import Multicore.Runs.Mutex
import Multicore.Runs.Progress
import Mathlib.Data.Prod.Lex
import Mathlib.Algebra.Order.Group.Nat

/-! Threads that count under a lock. A thread calls `lock`, adds one to a number by a read and
a write, and calls `unlock`, again and again. If the lock excludes, no addition is lost. A
program whose threads do this beside other things only has to say which of its steps are steps
here. If the lock also gets somewhere, such a program ends as soon as its other steps run out. -/

namespace Multicore.Runs.Lock

/-- Where a thread stands. -/
inductive Stage (L : Type*)
  | outside | locking (l : L) | locked | adding (v : ℕ) | unlocking (l : L)

structure Counting (T S L : Type*) where
  shared : S
  counter : ℕ
  stage : T → Stage L

/-- What is seen of a thread: its calls of `lock` and its stores. -/
inductive Seen (T : Type*)
  | called (t : T) | added (t : T)
  deriving DecidableEq

def Seen.isCall {T : Type*} : Seen T → Bool
  | .called _ => true
  | .added _ => false

def Seen.isStore {T : Type*} : Seen T → Bool
  | .called _ => false
  | .added _ => true

def Stage.phase {L : Type*} : Stage L → Phase L
  | .outside => .outside
  | .locking l => .locking l
  | .locked | .adding _ => .inside
  | .unlocking l => .unlocking l

namespace Counting
variable {T S L : Type*} [DecidableEq T]

def goto (s : Counting T S L) (shared : S) (counter : ℕ) (t : T) (p : Stage L) : Counting T S L :=
  ⟨shared, counter, Function.update s.stage t p⟩

/-- The next step of a thread, with a number of `width` bits. -/
def step (K : Lock S L) (width : ℕ) (s : Counting T S L) (t : T) : Option (Counting T S L) :=
  match s.stage t with
  | .outside => some (s.goto s.shared s.counter t (.locking K.lock))
  | .locking l => (K.access s.shared l).map fun r =>
    s.goto r.1 s.counter t (r.2.elim .locked .locking)
  | .locked => some (s.goto s.shared s.counter t (.adding s.counter))
  | .adding v => some (s.goto s.shared ((v + 1) % 2 ^ width) t (.unlocking K.unlock))
  | .unlocking l => (K.access s.shared l).map fun r =>
    s.goto r.1 s.counter t (r.2.elim .outside .unlocking)

def shows (s : Counting T S L) (t : T) : List (Seen T) :=
  match s.stage t with
  | .outside => [.called t]
  | .adding _ => [.added t]
  | _ => []

def program (T : Type*) [DecidableEq T] (K : Lock S L) (width : ℕ) :
    Program (Counting T S L) T (Seen T) where
  step := step K width
  shows := shows

def initial (T L : Type*) (shared : S) : Counting T S L := ⟨shared, 0, fun _ => .outside⟩

def users (s : Counting T S L) : Users T S L := ⟨s.shared, fun t => (s.stage t).phase⟩

section Step
variable {K : Lock S L} {width : ℕ} {s u : Counting T S L} {t v : T}

@[simp] theorem goto_self (s : Counting T S L) (shared : S) (counter : ℕ) (t : T) (p : Stage L) :
    (s.goto shared counter t p).stage t = p := Function.update_self ..

@[simp] theorem goto_counter (s : Counting T S L) (shared : S) (counter : ℕ) (t : T) (p : Stage L) :
    (s.goto shared counter t p).counter = counter := rfl

omit [DecidableEq T] in
@[simp] theorem users_phase (s : Counting T S L) (t : T) : s.users.phase t = (s.stage t).phase := rfl

theorem users_goto (s : Counting T S L) (shared : S) (counter : ℕ) (t : T) (p : Stage L) :
    (s.goto shared counter t p).users = s.users.goto shared t p.phase :=
  congrArg (Users.mk shared) (Function.comp_update Stage.phase s.stage t p)

theorem step_cases (hu : step K width s t = some u) :
    (s.stage t = .outside ∧ u = s.goto s.shared s.counter t (.locking K.lock)) ∨
    (∃ l r, s.stage t = .locking l ∧ K.access s.shared l = some r ∧
      u = s.goto r.1 s.counter t (r.2.elim .locked .locking)) ∨
    (s.stage t = .locked ∧ u = s.goto s.shared s.counter t (.adding s.counter)) ∨
    (∃ c, s.stage t = .adding c ∧ u = s.goto s.shared ((c + 1) % 2 ^ width) t (.unlocking K.unlock)) ∨
    (∃ l r, s.stage t = .unlocking l ∧ K.access s.shared l = some r ∧
      u = s.goto r.1 s.counter t (r.2.elim .outside .unlocking)) := by
  cases hp : s.stage t with
  | outside =>
    simp only [step, hp, Option.some.injEq] at hu
    exact .inl ⟨rfl, hu.symm⟩
  | locking l =>
    simp only [step, hp, Option.map_eq_some_iff] at hu
    obtain ⟨r, hr, rfl⟩ := hu
    exact .inr (.inl ⟨l, r, rfl, hr, rfl⟩)
  | locked =>
    simp only [step, hp, Option.some.injEq] at hu
    exact .inr (.inr (.inl ⟨rfl, hu.symm⟩))
  | adding c =>
    simp only [step, hp, Option.some.injEq] at hu
    exact .inr (.inr (.inr (.inl ⟨c, rfl, hu.symm⟩)))
  | unlocking l =>
    simp only [step, hp, Option.map_eq_some_iff] at hu
    obtain ⟨r, hr, rfl⟩ := hu
    exact .inr (.inr (.inr (.inr ⟨l, r, rfl, hr, rfl⟩)))

theorem stage_of_ne (hu : step K width s t = some u) (hv : v ≠ t) : u.stage v = s.stage v := by
  rcases step_cases hu with ⟨-, rfl⟩ | ⟨l, r, -, -, rfl⟩ | ⟨-, rfl⟩ | ⟨c, -, rfl⟩ | ⟨l, r, -, -, rfl⟩ <;>
    exact Function.update_of_ne hv ..

/-- What a step is to the users of the lock. -/
theorem users_of_step (hu : step K width s t = some u) :
    ∃ k, Run (Lock.users T K) Free s.users k u.users ∧ k.length = (shows s t).countP Seen.isCall := by
  rcases step_cases hu with ⟨hp, rfl⟩ | ⟨l, r, hp, hr, rfl⟩ | ⟨hp, rfl⟩ | ⟨c, hp, rfl⟩ | ⟨l, r, hp, hr, rfl⟩
  · refine ⟨[t], ?_, by simp [shows, hp, Seen.isCall]⟩
    refine Run.single (P := Lock.users T K) (a := .lock t) trivial ?_
    simp only [Lock.users, Lock.step, users_phase, hp, Stage.phase, users_goto]
    rfl
  · refine ⟨[], Run.single (P := Lock.users T K) (a := .access t) trivial ?_, by simp [shows, hp]⟩
    simp only [Lock.users, Lock.step, users_phase, hp, Stage.phase, users_goto]
    show (K.access s.shared l).map _ = _
    rw [hr, Option.map_some]
    cases r.2 <;> rfl
  · refine ⟨[], ?_, by simp [shows, hp]⟩
    have hsame : (s.goto s.shared s.counter t (.adding s.counter)).users = s.users := by
      rw [users_goto]
      have hphase : (Stage.adding s.counter : Stage L).phase = s.users.phase t := by
        rw [users_phase, hp]
        rfl
      rw [hphase, Users.goto, Function.update_eq_self]
      rfl
    rw [hsame]
    exact .refl
  · refine ⟨[], ?_, by simp [shows, hp, Seen.isCall]⟩
    refine Run.single (P := Lock.users T K) (a := .unlock t) trivial ?_
    simp only [Lock.users, Lock.step, users_phase, hp, Stage.phase, users_goto]
    rfl
  · refine ⟨[], Run.single (P := Lock.users T K) (a := .access t) trivial ?_, by simp [shows, hp]⟩
    simp only [Lock.users, Lock.step, users_phase, hp, Stage.phase, users_goto]
    show (K.access s.shared l).map _ = _
    rw [hr, Option.map_some]
    cases r.2 <;> rfl

/-- An access that does not end its call. -/
theorem access_of_step (hu : step K width s t = some u)
    (h : (∃ l l', s.stage t = .locking l ∧ u.stage t = .locking l') ∨
      ∃ l l', s.stage t = .unlocking l ∧ u.stage t = .unlocking l') :
    Lock.step K s.users (.access t) = some u.users ∧ u.users.phase t ≠ .inside ∧
      u.users.phase t ≠ .outside := by
  rcases h with ⟨l, l', hp, hp'⟩ | ⟨l, l', hp, hp'⟩ <;> simp only [step, hp, Option.map_eq_some_iff] at hu <;>
    obtain ⟨⟨x, r⟩, hr, rfl⟩ := hu
  · rw [goto_self] at hp'
    cases r with
    | none => cases hp'
    | some r =>
      refine ⟨?_, ?_, ?_⟩
      · simp only [Lock.step, users_phase, hp, Stage.phase, users_goto]
        exact congrArg (Option.map _) hr
      all_goals rw [users_phase, goto_self]; simp [Stage.phase]
  · rw [goto_self] at hp'
    cases r with
    | none => cases hp'
    | some r =>
      refine ⟨?_, ?_, ?_⟩
      · simp only [Lock.step, users_phase, hp, Stage.phase, users_goto]
        exact congrArg (Option.map _) hr
      all_goals rw [users_phase, goto_self]; simp [Stage.phase]

end Step

/-! ### No addition is lost -/

section Inv
variable {K : Lock S L} {width max : ℕ} {shared : S} {s u : Counting T S L} {t : T} {h : List (Seen T)}

structure Inv (K : Lock S L) (width : ℕ) (shared : S) (h : List (Seen T)) (s : Counting T S L) : Prop where
  users : ∃ k, Run (Lock.users T K) Free (Lock.start T L shared) k s.users ∧
    k.length = h.countP Seen.isCall
  adding : ∀ t c, s.stage t = .adding c → c = s.counter
  total : s.counter = h.countP Seen.isStore % 2 ^ width

theorem Inv.reached (hi : Inv K width shared h s) (hmax : h.countP Seen.isCall ≤ max) :
    Reached K shared max s.users := by
  obtain ⟨k, hr, hlen⟩ := hi.users
  exact ⟨k, hr, hlen.trans_le hmax⟩

theorem Inv.initial (K : Lock S L) (width : ℕ) (shared : S) :
    Inv K width shared [] (initial T L shared) :=
  ⟨⟨[], .refl, rfl⟩, nofun, (Nat.zero_mod _).symm⟩

theorem Inv.step (hi : Inv K width shared h s) (hex : Excludes T K shared max)
    (hmax : h.countP Seen.isCall ≤ max) (hu : step K width s t = some u) :
    Inv K width shared (h ++ shows s t) u := by
  have husers : ∃ k, Run (Lock.users T K) Free (Lock.start T L shared) k u.users ∧
      k.length = (h ++ shows s t).countP Seen.isCall := by
    obtain ⟨k, hr, hlen⟩ := hi.users
    obtain ⟨k', hr', hlen'⟩ := users_of_step hu
    exact ⟨k ++ k', hr.trans hr', by rw [List.length_append, hlen, hlen', List.countP_append]⟩
  have hother : ∀ {v c}, v ≠ t → u.stage v = .adding c → s.stage v = .adding c :=
    fun hv hp => stage_of_ne hu hv ▸ hp
  have htotal := hi.total
  refine ⟨husers, ?_, ?_⟩
  · intro v c hp
    rcases step_cases hu with ⟨-, rfl⟩ | ⟨l, r, -, -, rfl⟩ | ⟨-, rfl⟩ | ⟨c', hp', rfl⟩ | ⟨l, r, -, -, rfl⟩ <;>
      by_cases hv : v = t
    · rw [hv, goto_self] at hp
      cases hp
    · exact hi.adding v c (hother hv hp)
    · rw [hv, goto_self] at hp
      cases hr : r.2 <;> rw [hr] at hp <;> cases hp
    · exact hi.adding v c (hother hv hp)
    · rw [hv, goto_self, Stage.adding.injEq] at hp
      exact hp.symm
    · exact hi.adding v c (hother hv hp)
    · rw [hv, goto_self] at hp
      cases hp
    · -- nobody else is about to store
      refine absurd (hex s.users (hi.reached hmax) v t ?_ ?_) hv
      · rw [users_phase, hother hv hp]
        rfl
      · rw [users_phase, hp']
        rfl
    · rw [hv, goto_self] at hp
      cases hr : r.2 <;> rw [hr] at hp <;> cases hp
    · exact hi.adding v c (hother hv hp)
  · rw [List.countP_append]
    rcases step_cases hu with ⟨hp, rfl⟩ | ⟨l, r, hp, -, rfl⟩ | ⟨hp, rfl⟩ | ⟨c, hp, rfl⟩ | ⟨l, r, hp, -, rfl⟩
    · simpa [shows, hp, Seen.isStore] using htotal
    · simpa [shows, hp] using htotal
    · simpa [shows, hp] using htotal
    · have hone : (shows s t).countP Seen.isStore = 1 := by simp [shows, hp, Seen.isStore]
      rw [hone, hi.adding t c hp, htotal]
      exact Nat.mod_add_mod ..
    · simpa [shows, hp] using htotal

/-- The number is the count of the stores, up to its width. -/
theorem inv_of_run (hex : Excludes T K shared max)
    (hr : Run (program T K width) Free (initial T L shared) h s) (hmax : h.countP Seen.isCall ≤ max) :
    Inv K width shared h s := by
  have hrun : h.countP Seen.isCall ≤ max → Inv K width shared h s := by
    refine hr.invariant (I := fun h s => h.countP Seen.isCall ≤ max → Inv K width shared h s)
      (fun _ => .initial K width shared) ?_
    intro h x t y hi _ hy hle
    have hle' : h.countP Seen.isCall ≤ max := by
      rw [List.countP_append] at hle
      omega
    exact (hi hle').step hex hle' hy
  exact hrun hmax

end Inv

end Counting

/-! ### The end of the threads -/

section Ends
variable {T S L σ α ε : Type*} [DecidableEq T] {K : Lock S L} {shared : S} {max : ℕ}
  {rank : Users T S L → ℕ} {Due : Users T S L → T → Prop}

/-- Who is due: whom the lock waits for, or while all threads are outside one that is ready. -/
def Turn (users : σ → Users T S L) (Due : Users T S L → T → Prop) (Ready : σ → T → Prop) (x : σ)
    (t : T) : Prop :=
  Due (users x) t ∨ (∀ v, (users x).phase v = .outside) ∧ Ready x t

/-- An action that brings no thread on: nobody's, or an access that does not end its call. -/
def Waits (K : Lock S L) (users : σ → Users T S L) (takes : T → α → Prop) (Ready : σ → T → Prop)
    (x : σ) (a : α) (y : σ) : Prop :=
  (users y = users x ∧ ∀ t, ¬ takes t a ∧ (Ready x t → Ready y t)) ∨
  ∃ t, (∀ v, takes v a → v = t) ∧ step K (users x) (.access t) = some (users y) ∧
    (users y).phase t ≠ .inside ∧ (users y).phase t ≠ .outside

/-- A program whose threads use the lock ends, if its other actions run out and no thread that is
due for ever is left standing. -/
theorem Serves.ends {P : Program σ α ε} {C : Guard σ α} {f : ℕ → σ} {act : ℕ → Option α} {J Q : σ → Prop}
    (hs : Serves K shared max rank Due) (he : Execution P C f act) (h0 : J (f 0))
    (users : σ → Users T S L) (takes : T → α → Prop) (Ready : σ → T → Prop) (μ : σ → ℕ)
    (hreached : ∀ x, J x → Reached K shared max (users x))
    (hready : ∀ x, J x → (∀ t, (users x).phase t = .outside) → ∃ t, Ready x t)
    (hstep : ∀ x a y, J x → C x a → P.step x a = some y →
      Q y ∨ J y ∧ (μ y < μ x ∨ μ y = μ x ∧ Waits K users takes Ready x a y))
    (hfair : ∀ n t, (∀ m, n ≤ m → Turn users Due Ready (f m) t) →
      ∃ m a, n ≤ m ∧ act m = some a ∧ takes t a) : ∃ n, Q (f n) := by
  refine he.leads_due (Q := Q) (J := J) (Turn users Due Ready) takes
    (fun x => toLex (μ x, rank (users x))) h0 (fun x hx => ?_) ?_ hfair
  · by_cases hbusy : ∃ t, (users x).phase t ≠ .outside
    · exact (hs.exists_due _ (hreached x hx) hbusy).imp fun _ => .inl
    · simp only [not_exists, not_not] at hbusy
      exact (hready x hx hbusy).imp fun _ ht => .inr ⟨hbusy, ht⟩
  · intro x a y hx hc ha
    rcases hstep x a y hx hc ha with hq | ⟨hy, hlt | ⟨hsame, hwait⟩⟩
    · exact .inl hq
    · exact .inr ⟨hy, .inl (Prod.Lex.toLex_lt_toLex.mpr (.inl hlt))⟩
    refine .inr ⟨hy, ?_⟩
    rcases hwait with ⟨husers, hnot⟩ | ⟨t, honly, haccess, hin, hout⟩
    · refine .inr ⟨by rw [hsame, husers], fun t ht => ⟨(hnot t).1, ?_⟩⟩
      rw [Turn, husers]
      exact ht.imp_right fun h => ⟨h.1, (hnot t).2 h.2⟩
    rcases hs.nearer _ _ _ (hreached x hx) haccess with h | h | h | ⟨hrank, hdue⟩
    · exact absurd h hin
    · exact absurd h hout
    · exact .inl (Prod.Lex.toLex_lt_toLex.mpr (.inr ⟨hsame, h⟩))
    · refine .inr ⟨by rw [hsame, hrank], fun v hv => ?_⟩
      rcases hv with hv | ⟨hall, -⟩
      · exact ⟨fun h => (hdue v hv).1 (honly v h), .inl (hdue v hv).2⟩
      · -- the thread that makes the access is not outside
        rw [step, hall t] at haccess
        cases haccess

end Ends

end Multicore.Runs.Lock
