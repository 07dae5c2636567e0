import Multicore.Runs.Counting

/-! The counting worker of part 2 and of simple_test, over any lock. Each thread makes a fixed
number of rounds of lock, `counter++` and unlock; the two halves of `counter++` are steps of
their own. All that is used of the lock is that it excludes and that it gets somewhere, for as
many calls as the threads make. -/

namespace Multicore.Locks.Worker

open Runs

/-- Where a thread stands in round `i`. -/
inductive Pc (L : Type*)
  | loop (i : ℕ) | locking (i : ℕ) (l : L) | locked (i : ℕ) | adding (i v : ℕ) | unlocking (i : ℕ) (l : L)

structure State (T S L : Type*) where
  shared : S
  counter : ℕ
  pc : T → Pc L

variable {T S L : Type*} [DecidableEq T]

def State.goto (s : State T S L) (shared : S) (counter : ℕ) (t : T) (p : Pc L) : State T S L :=
  ⟨shared, counter, Function.update s.pc t p⟩

@[simp] theorem goto_self (s : State T S L) (shared : S) (counter : ℕ) (t : T) (p : Pc L) :
    (s.goto shared counter t p).pc t = p := Function.update_self ..

/-- The next step of `worker_thread`, with a counter of `width` bits. -/
def workerThread (K : Lock S L) (width rounds : ℕ) (s : State T S L) (t : T) : Option (State T S L) :=
  match s.pc t with
  | .loop i => if i < rounds then some (s.goto s.shared s.counter t (.locking i K.lock)) else none
  | .locking i l => (K.access s.shared l).map fun r => s.goto r.1 s.counter t <| match r.2 with
    | none => .locked i
    | some l => .locking i l
  -- counter++ is a read and a write
  | .locked i => some (s.goto s.shared s.counter t (.adding i s.counter))
  | .adding i v => some (s.goto s.shared ((v + 1) % 2 ^ width) t (.unlocking i K.unlock))
  | .unlocking i l => (K.access s.shared l).map fun r => s.goto r.1 s.counter t <| match r.2 with
    | none => .loop (i + 1)
    | some l => .unlocking i l

def program (T : Type*) [DecidableEq T] (K : Lock S L) (width rounds : ℕ) :
    Program (State T S L) T Empty where
  step := workerThread K width rounds
  shows _ _ := []

def initial (T L : Type*) (shared : S) : State T S L := ⟨shared, 0, fun _ => .loop 0⟩

/-! ### The worker as a thread that counts -/

def Pc.stage : Pc L → Lock.Stage L
  | .loop _ => .outside
  | .locking _ l => .locking l
  | .locked _ => .locked
  | .adding _ v => .adding v
  | .unlocking _ l => .unlocking l

def State.counting (s : State T S L) : Lock.Counting T S L :=
  ⟨s.shared, s.counter, fun t => (s.pc t).stage⟩

/-- The calls of `lock` that a thread has made. -/
def Pc.calls : Pc L → ℕ
  | .loop i => i
  | .locking i _ | .locked i | .adding i _ | .unlocking i _ => i + 1

/-- The increments that a thread has stored. -/
def Pc.counted : Pc L → ℕ
  | .loop i | .locking i _ | .locked i | .adding i _ => i
  | .unlocking i _ => i + 1

/-- The steps that a thread has left beside the accesses of the lock. -/
def Pc.left (rounds : ℕ) : Pc L → ℕ
  | .loop i => 5 * (rounds - i)
  | .locking i _ => 5 * (rounds - i) - 1
  | .locked i => 5 * (rounds - i) - 2
  | .adding i _ => 5 * (rounds - i) - 3
  | .unlocking i _ => 5 * (rounds - i) - 4

section Step
variable {K : Lock S L} {width rounds : ℕ} {s u : State T S L} {t v : T}

omit [DecidableEq T] in
@[simp] theorem counting_shared (s : State T S L) : s.counting.shared = s.shared := rfl

omit [DecidableEq T] in
@[simp] theorem counting_counter (s : State T S L) : s.counting.counter = s.counter := rfl

omit [DecidableEq T] in
@[simp] theorem counting_stage (s : State T S L) (t : T) : s.counting.stage t = (s.pc t).stage := rfl

theorem counting_goto (s : State T S L) (shared : S) (counter : ℕ) (t : T) (p : Pc L) :
    (s.goto shared counter t p).counting = s.counting.goto shared counter t p.stage :=
  congrArg (Lock.Counting.mk shared counter) (Function.comp_update Pc.stage s.pc t p)

/-- A step of the worker: it calls `lock` or `unlock`, works inside, or makes an access of the
lock that ends its call or does not. -/
theorem step_cases (hu : workerThread K width rounds s t = some u) :
    (∃ i, s.pc t = .loop i ∧ i < rounds ∧ u = s.goto s.shared s.counter t (.locking i K.lock)) ∨
    (∃ i l r, s.pc t = .locking i l ∧ K.access s.shared l = some r ∧
      u = s.goto r.1 s.counter t (r.2.elim (.locked i) (.locking i))) ∨
    (∃ i, s.pc t = .locked i ∧ u = s.goto s.shared s.counter t (.adding i s.counter)) ∨
    (∃ i c, s.pc t = .adding i c ∧
      u = s.goto s.shared ((c + 1) % 2 ^ width) t (.unlocking i K.unlock)) ∨
    (∃ i l r, s.pc t = .unlocking i l ∧ K.access s.shared l = some r ∧
      u = s.goto r.1 s.counter t (r.2.elim (.loop (i + 1)) (.unlocking i))) := by
  cases hp : s.pc t with
  | loop i =>
    simp only [workerThread, hp, Option.ite_none_right_eq_some, Option.some.injEq] at hu
    exact .inl ⟨i, rfl, hu.1, hu.2.symm⟩
  | locking i l =>
    simp only [workerThread, hp, Option.map_eq_some_iff] at hu
    obtain ⟨⟨x, l'⟩, hr, rfl⟩ := hu
    exact .inr (.inl ⟨i, l, _, rfl, hr, by cases l' <;> rfl⟩)
  | locked i =>
    simp only [workerThread, hp, Option.some.injEq] at hu
    exact .inr (.inr (.inl ⟨i, rfl, hu.symm⟩))
  | adding i c =>
    simp only [workerThread, hp, Option.some.injEq] at hu
    exact .inr (.inr (.inr (.inl ⟨i, c, rfl, hu.symm⟩)))
  | unlocking i l =>
    simp only [workerThread, hp, Option.map_eq_some_iff] at hu
    obtain ⟨⟨x, l'⟩, hr, rfl⟩ := hu
    exact .inr (.inr (.inr (.inr ⟨i, l, _, rfl, hr, by cases l' <;> rfl⟩)))

theorem pc_of_ne (hu : workerThread K width rounds s t = some u) (hv : v ≠ t) : u.pc v = s.pc v := by
  rcases step_cases hu with ⟨i, -, -, rfl⟩ | ⟨i, l, r, -, -, rfl⟩ | ⟨i, -, rfl⟩ | ⟨i, c, -, rfl⟩ |
    ⟨i, l, r, -, -, rfl⟩ <;> exact Function.update_of_ne hv ..

/-- Every step of a worker is a step of a thread that counts. -/
theorem counting_of_step (hu : workerThread K width rounds s t = some u) :
    Lock.Counting.step K width s.counting t = some u.counting ∧
      (u.pc t).calls = (s.pc t).calls + (Lock.Counting.shows s.counting t).countP Lock.Seen.isCall ∧
      (u.pc t).counted = (s.pc t).counted + (Lock.Counting.shows s.counting t).countP Lock.Seen.isStore := by
  rcases step_cases hu with ⟨i, hp, -, rfl⟩ | ⟨i, l, r, hp, hr, rfl⟩ | ⟨i, hp, rfl⟩ | ⟨i, c, hp, rfl⟩ |
    ⟨i, l, r, hp, hr, rfl⟩ <;>
    simp only [Lock.Counting.step, Lock.Counting.shows, counting_goto, counting_stage, hp, Pc.stage,
      goto_self]
  · exact ⟨rfl, rfl, rfl⟩
  · rw [counting_shared, hr, Option.map_some]
    cases r.2 <;> exact ⟨rfl, rfl, rfl⟩
  · exact ⟨rfl, rfl, rfl⟩
  · exact ⟨rfl, rfl, rfl⟩
  · rw [counting_shared, hr, Option.map_some]
    cases r.2 <;> exact ⟨rfl, rfl, rfl⟩

end Step

/-! ### What the workers keep -/

section Inv
variable [Fintype T] {K : Lock S L} {width rounds : ℕ} {shared : S} {s u : State T S L} {t : T}

structure Inv (K : Lock S L) (width rounds : ℕ) (shared : S) (s : State T S L) : Prop where
  calls : ∀ t, (s.pc t).calls ≤ rounds
  counting : ∃ h, Run (Lock.Counting.program T K width) Free (Lock.Counting.initial T L shared) h s.counting ∧
    h.countP Lock.Seen.isCall = ∑ t, (s.pc t).calls ∧
    h.countP Lock.Seen.isStore = ∑ t, (s.pc t).counted

theorem Inv.initial (K : Lock S L) (width rounds : ℕ) (shared : S) :
    Inv K width rounds shared (initial T L shared) :=
  ⟨fun _ => Nat.zero_le _, [], .refl, by simp [Worker.initial, Pc.calls], by simp [Worker.initial, Pc.counted]⟩

theorem Inv.step (hi : Inv K width rounds shared s) (hu : workerThread K width rounds s t = some u) :
    Inv K width rounds shared u := by
  have hv : ∀ v, v ≠ t → u.pc v = s.pc v := fun v h => pc_of_ne hu h
  obtain ⟨hstep, hcalls, hcounted⟩ := counting_of_step hu
  refine ⟨fun v => ?_, ?_⟩
  · by_cases h : v = t
    · subst h
      have ht := hi.calls v
      rcases step_cases hu with ⟨i, hp, hlt, rfl⟩ | ⟨i, l, r, hp, -, rfl⟩ | ⟨i, hp, rfl⟩ | ⟨i, c, hp, rfl⟩ |
        ⟨i, l, r, hp, -, rfl⟩ <;> rw [hp] at ht <;> rw [goto_self]
      · exact hlt
      · cases r.2 <;> exact ht
      · exact ht
      · exact ht
      · cases r.2 <;> exact ht
    · rw [hv v h]
      exact hi.calls v
  · obtain ⟨h, hr, hc, ha⟩ := hi.counting
    refine ⟨h ++ Lock.Counting.shows s.counting t, hr.tail trivial hstep, ?_, ?_⟩
    · rw [List.countP_append, hc]
      exact (sum_add_at t hcalls fun v h => by rw [hv v h]).symm
    · rw [List.countP_append, ha]
      exact (sum_add_at t hcounted fun v h => by rw [hv v h]).symm

/-- The lock is never called more often than the rounds of all threads allow. -/
theorem Inv.counts (hi : Inv K width rounds shared s)
    (hex : Lock.Excludes T K shared (Fintype.card T * rounds)) :
    Lock.Reached K shared (Fintype.card T * rounds) s.counting.users ∧
      s.counter = (∑ t, (s.pc t).counted) % 2 ^ width := by
  obtain ⟨h, hr, hc, ha⟩ := hi.counting
  have hmax : h.countP Lock.Seen.isCall ≤ Fintype.card T * rounds := by
    have hle := Finset.sum_le_sum fun t (_ : t ∈ Finset.univ) => hi.calls t
    rw [Finset.sum_const, Finset.card_univ, Nat.nsmul_eq_mul] at hle
    exact hc.trans_le hle
  have hinv := Lock.Counting.inv_of_run hex hr hmax
  exact ⟨hinv.reached hmax, ha ▸ hinv.total⟩

/-- All threads have made their rounds. -/
def Done (rounds : ℕ) (s : State T S L) : Prop := ∀ t, ∃ i, s.pc t = .loop i ∧ rounds ≤ i

/-- The value of the counter at the end: no increment is lost. -/
theorem Inv.counter_of_done (hi : Inv K width rounds shared s)
    (hex : Lock.Excludes T K shared (Fintype.card T * rounds)) (hd : Done rounds s) :
    s.counter = Fintype.card T * rounds % 2 ^ width := by
  have hall : ∀ t, (s.pc t).counted = rounds := by
    intro t
    obtain ⟨i, hp, hle⟩ := hd t
    have hcalls := hi.calls t
    rw [hp] at hcalls ⊢
    exact Nat.le_antisymm hcalls hle
  rw [(hi.counts hex).2]
  simp only [hall, Finset.sum_const, Finset.card_univ, Nat.nsmul_eq_mul]

end Inv

/-! ### The end of the threads -/

section Ends
variable [Fintype T] {K : Lock S L} {width rounds : ℕ} {shared : S} {s u : State T S L} {t : T}
  {rank : Lock.Users T S L → ℕ} {Due : Lock.Users T S L → T → Prop}

/-- A step brings its thread on, or it is an access that does not end its call. -/
theorem Inv.left_lt (hi : Inv K width rounds shared s) (hu : workerThread K width rounds s t = some u) :
    (u.pc t).left rounds < (s.pc t).left rounds ∨ (u.pc t).left rounds = (s.pc t).left rounds ∧
      ((∃ l l', (s.pc t).stage = .locking l ∧ (u.pc t).stage = .locking l') ∨
        ∃ l l', (s.pc t).stage = .unlocking l ∧ (u.pc t).stage = .unlocking l') := by
  have ht := hi.calls t
  rcases step_cases hu with ⟨i, hp, hlt, rfl⟩ | ⟨i, l, ⟨x, r⟩, hp, hr, rfl⟩ | ⟨i, hp, rfl⟩ |
    ⟨i, c, hp, rfl⟩ | ⟨i, l, ⟨x, r⟩, hp, hr, rfl⟩ <;> rw [hp, goto_self] <;>
    simp only [hp, Pc.calls] at ht
  · refine .inl ?_
    simp only [Pc.left]
    omega
  · cases r with
    | none =>
      refine .inl ?_
      simp only [Option.elim_none, Pc.left]
      omega
    | some l' => exact .inr ⟨rfl, .inl ⟨l, l', rfl, rfl⟩⟩
  · refine .inl ?_
    simp only [Pc.left]
    omega
  · refine .inl ?_
    simp only [Pc.left]
    omega
  · cases r with
    | none =>
      refine .inl ?_
      simp only [Option.elim_none, Pc.left]
      omega
    | some l' => exact .inr ⟨rfl, .inr ⟨l, l', rfl, rfl⟩⟩

omit [DecidableEq T] [Fintype T] in
theorem eq_loop_of_outside {p : Pc L} (h : p.stage.phase = .outside) : ∃ i, p = .loop i := by
  cases p <;> first | exact ⟨_, rfl⟩ | cases h

omit [DecidableEq T] [Fintype T] in
/-- While all threads are outside, one that is not done has a round left. -/
theorem exists_ready (hnot : ¬ Done rounds s) (hout : ∀ t, (s.pc t).stage.phase = .outside) :
    ∃ t i, s.pc t = .loop i ∧ i < rounds := by
  simp only [Done, not_forall] at hnot
  obtain ⟨t, ht⟩ := hnot
  obtain ⟨i, hp⟩ := eq_loop_of_outside (hout t)
  refine ⟨t, i, hp, ?_⟩
  by_contra hle
  exact ht ⟨i, hp, Nat.not_lt.mp hle⟩

/-- Who is due can take its next step. -/
theorem enabled (hs : Lock.Serves K shared (Fintype.card T * rounds) rank Due)
    (hreached : Lock.Reached K shared (Fintype.card T * rounds) s.counting.users)
    (ht : Lock.Turn (fun s : State T S L => s.counting.users) Due
      (fun s t => ∃ i, s.pc t = .loop i ∧ i < rounds) s t) :
    workerThread K width rounds s t ≠ none := by
  rcases ht with ht | ⟨-, i, hp, hlt⟩
  · have hbusy := hs.busy _ _ hreached ht
    cases hp : s.pc t with
    | loop i =>
      rw [Lock.Counting.users_phase, counting_stage, hp] at hbusy
      exact absurd rfl hbusy
    | locking i l =>
      have hfree : K.access s.shared l ≠ none :=
        hs.enabled _ t l hreached ht (.inl (by simp [hp, Pc.stage, Lock.Stage.phase]))
      simpa [workerThread, hp] using hfree
    | unlocking i l =>
      have hfree : K.access s.shared l ≠ none :=
        hs.enabled _ t l hreached ht (.inr (by simp [hp, Pc.stage, Lock.Stage.phase]))
      simpa [workerThread, hp] using hfree
    | locked i | adding i c => simp [workerThread, hp]
  · simp [workerThread, hp, hlt]

/-- Every thread ends, if the lock excludes and gets somewhere and no thread that can always go on
is left standing; and no increment is lost. -/
theorem ends (hex : Lock.Excludes T K shared (Fintype.card T * rounds))
    (hlive : Lock.Live T K shared (Fintype.card T * rounds)) {f : ℕ → State T S L} {act : ℕ → Option T}
    (he : Execution (program T K width rounds) Free f act) (h0 : f 0 = initial T L shared)
    (hfair : Fair (program T K width rounds) f act) :
    ∃ m, Done rounds (f m) ∧ (f m).counter = Fintype.card T * rounds % 2 ^ width := by
  obtain ⟨rank, Due, hs⟩ := hlive
  have hinv : ∀ m, Inv K width rounds shared (f m) :=
    he.always (h0 ▸ Inv.initial K width rounds shared) fun _ _ _ hi _ hu => hi.step hu
  suffices hdone : ∃ m, Done rounds (f m) from
    hdone.imp fun m hm => ⟨hm, (hinv m).counter_of_done hex hm⟩
  by_cases hstart : Done rounds (f 0)
  · exact ⟨0, hstart⟩
  refine hs.ends (Q := Done rounds) (J := fun s => Inv K width rounds shared s ∧ ¬ Done rounds s) he
    ⟨hinv 0, hstart⟩ (fun s => s.counting.users) (fun t v => v = t)
    (fun s t => ∃ i, s.pc t = .loop i ∧ i < rounds) (fun s => ∑ v, (s.pc v).left rounds)
    (fun x hx => (hx.1.counts hex).1) (fun x hx hout => exists_ready hx.2 hout) ?_ ?_
  · rintro x t y ⟨hi, -⟩ - hu
    by_cases hy : Done rounds y
    · exact .inl hy
    have hv : ∀ v, v ≠ t → y.pc v = x.pc v := fun v h => pc_of_ne hu h
    refine .inr ⟨⟨hi.step hu, hy⟩, ?_⟩
    rcases hi.left_lt hu with hlt | ⟨hsame, hstay⟩
    · refine .inl (Finset.sum_lt_sum (fun v _ => ?_) ⟨t, Finset.mem_univ t, hlt⟩)
      by_cases h : v = t
      · rw [h]
        exact hlt.le
      · rw [hv v h]
    · refine .inr ⟨Finset.sum_congr rfl fun v _ => ?_, .inr ⟨t, fun v h => h.symm, ?_⟩⟩
      · by_cases h : v = t
        · rw [h, hsame]
        · rw [hv v h]
      · exact Lock.Counting.access_of_step (counting_of_step hu).1 hstay
  · intro n t hturn
    obtain ⟨m, hm, ha⟩ := hfair n t fun m hm => enabled hs ((hinv m).counts hex).1 (hturn m hm)
    exact ⟨m, t, hm, ha, rfl⟩

end Ends

end Multicore.Locks.Worker
