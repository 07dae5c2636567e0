import Multicore.Runs.Program
import Multicore.Runs.Totals
import Mathlib.Algebra.Order.Group.Nat
import Mathlib.Data.Fintype.EquivFin

/-! The counter of part 1, which all threads increment without a lock. A round reads the counter
into a local variable and stores the local plus one; between the two any other thread may do as
much as it has left. An increment that is overwritten is lost. With at least two threads the
counter can end at any value from two up to the number of all rounds, and at no other. -/

namespace Multicore.Counters.LostUpdate

open Runs Finset

/-- Where a thread stands in round `i`; after the read it has its copy of the counter. -/
inductive Pc
  | loop (i : ℕ) | loaded (i v : ℕ)

structure State (T : Type*) where
  counter : ℕ
  pc : T → Pc

variable {T : Type*} [DecidableEq T]

def State.goto (s : State T) (counter : ℕ) (t : T) (p : Pc) : State T :=
  ⟨counter, Function.update s.pc t p⟩

@[simp] theorem goto_self (s : State T) (counter : ℕ) (t : T) (p : Pc) : (s.goto counter t p).pc t = p :=
  Function.update_self ..

theorem goto_of_ne (s : State T) (counter : ℕ) {t v : T} (p : Pc) (hv : v ≠ t) :
    (s.goto counter t p).pc v = s.pc v := Function.update_of_ne hv ..

/-- The next step of `worker_thread`; `wrap` is what the type of the counter makes of a sum. -/
def workerThread (wrap : ℕ → ℕ) (rounds : ℕ) (s : State T) (t : T) : Option (State T) :=
  match s.pc t with
  | .loop i => if i < rounds then some (s.goto s.counter t (.loaded i s.counter)) else none
  | .loaded i v => some (s.goto (wrap (v + 1)) t (.loop (i + 1)))

def program (T : Type*) [DecidableEq T] (wrap : ℕ → ℕ) (rounds : ℕ) : Program (State T) T Empty where
  step := workerThread wrap rounds
  shows _ _ := []

def initial (T : Type*) : State T := ⟨0, fun _ => .loop 0⟩

/-- All threads have made their rounds, and `main` has joined them. -/
def Done (rounds : ℕ) (s : State T) : Prop := ∀ t, ∃ i, s.pc t = .loop i ∧ rounds ≤ i

/-- The sum of a `uint32_t`. -/
def uint32 (n : ℕ) : ℕ := n % 2 ^ 32

/-- The rounds that a thread has made. -/
def Pc.made : Pc → ℕ
  | .loop i | .loaded i _ => i

section Step
variable {wrap : ℕ → ℕ} {rounds : ℕ} {s u : State T} {t v : T}

theorem step_cases (hu : workerThread wrap rounds s t = some u) :
    (∃ i, s.pc t = .loop i ∧ i < rounds ∧ u = s.goto s.counter t (.loaded i s.counter)) ∨
    (∃ i c, s.pc t = .loaded i c ∧ u = s.goto (wrap (c + 1)) t (.loop (i + 1))) := by
  cases hp : s.pc t with
  | loop i =>
    simp only [workerThread, hp, Option.ite_none_right_eq_some, Option.some.injEq] at hu
    exact .inl ⟨i, rfl, hu.1, hu.2.symm⟩
  | loaded i c =>
    simp only [workerThread, hp, Option.some.injEq] at hu
    exact .inr ⟨i, c, rfl, hu.symm⟩

theorem pc_goto {counter : ℕ} {p q : Pc} (h : (s.goto counter t p).pc v = q) :
    (v = t ∧ p = q) ∨ (v ≠ t ∧ s.pc v = q) := update_cases h

/-- A load is no round. -/
theorem made_goto {c : ℕ} {p : Pc} (h : p.made = (s.pc t).made) (v : T) :
    ((s.goto c t p).pc v).made = (s.pc v).made := by
  by_cases hv : v = t
  · rw [hv, goto_self, h]
  · rw [goto_of_ne s c p hv]

theorem sum_made_succ [Fintype T] {c : ℕ} {p : Pc} (h : p.made = (s.pc t).made + 1) :
    ∑ v, ((s.goto c t p).pc v).made = ∑ v, (s.pc v).made + 1 :=
  sum_add_at t (by rw [goto_self, h]) fun v hv => by rw [goto_of_ne s c p hv]

end Step

/-! ### The bounds -/

section Bounds
variable [Fintype T] {rounds : ℕ} {s u : State T} {t : T}

/-- What the threads keep while nothing wraps. The thread of the last store has made one round,
or it has put two into the counter. -/
structure Inv (rounds : ℕ) (s : State T) : Prop where
  loop_le : ∀ t i, s.pc t = .loop i → i ≤ rounds
  loaded_lt : ∀ t i c, s.pc t = .loaded i c → i < rounds
  counter_le : s.counter ≤ ∑ t, (s.pc t).made
  loaded_le : ∀ t i c, s.pc t = .loaded i c → c ≤ ∑ t, (s.pc t).made
  counter_pos : ∀ t, 1 ≤ (s.pc t).made → 1 ≤ s.counter
  loaded_pos : ∀ t i c, s.pc t = .loaded i c → 1 ≤ i → 1 ≤ c
  last : ∃ t, 2 ≤ (s.pc t).made → 2 ≤ s.counter

omit [DecidableEq T] in
theorem Inv.initial (rounds : ℕ) (t : T) : Inv rounds (initial T) where
  loop_le _ _ h := by cases h; exact Nat.zero_le _
  loaded_lt _ _ _ h := by cases h
  counter_le := Nat.zero_le _
  loaded_le _ _ _ h := by cases h
  counter_pos _ h := by cases h
  loaded_pos _ _ _ h := by cases h
  last := ⟨t, fun h => by cases h⟩

theorem Inv.step (hi : Inv rounds s) (hu : workerThread id rounds s t = some u) : Inv rounds u := by
  rcases step_cases hu with ⟨i, hp, hlt, rfl⟩ | ⟨i, c, hp, rfl⟩
  · have hmade := made_goto (s := s) (t := t) (c := s.counter) (p := .loaded i s.counter)
      (by rw [hp]; rfl)
    have hsum : ∑ v, ((s.goto s.counter t (.loaded i s.counter)).pc v).made = ∑ v, (s.pc v).made :=
      sum_congr rfl fun v _ => hmade v
    refine ⟨fun v j h => ?_, fun v j c h => ?_, ?_, fun v j c h => ?_, fun v h => ?_,
      fun v j c h hj => ?_, ?_⟩
    · rcases pc_goto h with ⟨-, h⟩ | ⟨-, h⟩
      · cases h
      · exact hi.loop_le v j h
    · rcases pc_goto h with ⟨-, h⟩ | ⟨-, h⟩
      · cases h
        exact hlt
      · exact hi.loaded_lt v j c h
    · rw [hsum]
      exact hi.counter_le
    · rw [hsum]
      rcases pc_goto h with ⟨-, h⟩ | ⟨-, h⟩
      · cases h
        exact hi.counter_le
      · exact hi.loaded_le v j c h
    · rw [hmade] at h
      exact hi.counter_pos v h
    · rcases pc_goto h with ⟨-, h⟩ | ⟨-, h⟩
      · cases h
        exact hi.counter_pos t (by rw [hp]; exact hj)
      · exact hi.loaded_pos v j c h hj
    · obtain ⟨w, hw⟩ := hi.last
      refine ⟨w, fun h => hw ?_⟩
      rwa [hmade] at h
  · have hsum := sum_made_succ (s := s) (t := t) (c := id (c + 1)) (p := .loop (i + 1))
      (by rw [hp]; rfl)
    refine ⟨fun v j h => ?_, fun v j d h => ?_, ?_, fun v j d h => ?_, fun v h => ?_,
      fun v j d h hj => ?_, t, fun h => ?_⟩
    · rcases pc_goto h with ⟨-, h⟩ | ⟨-, h⟩
      · cases h
        exact hi.loaded_lt t i c hp
      · exact hi.loop_le v j h
    · rcases pc_goto h with ⟨-, h⟩ | ⟨-, h⟩
      · cases h
      · exact hi.loaded_lt v j d h
    · rw [hsum]
      exact Nat.succ_le_succ (hi.loaded_le t i c hp)
    · rw [hsum]
      rcases pc_goto h with ⟨-, h⟩ | ⟨-, h⟩
      · cases h
      · exact (hi.loaded_le v j d h).trans (Nat.le_succ _)
    · exact Nat.le_add_left 1 c
    · rcases pc_goto h with ⟨-, h⟩ | ⟨-, h⟩
      · cases h
      · exact hi.loaded_pos v j d h hj
    · -- a second round has read what a first one has stored
      rw [goto_self] at h
      exact Nat.succ_le_succ (hi.loaded_pos t i c hp (Nat.le_of_succ_le_succ h))

theorem inv_of_run {h : List Empty} (t : T) (hr : Run (program T id rounds) Free (initial T) h s) :
    Inv rounds s :=
  hr.always (Inv.initial rounds t) fun _ _ _ hi _ hu => hi.step hu

omit [DecidableEq T] in
theorem Inv.made_of_done (hi : Inv rounds s) (hd : Done rounds s) (t : T) : (s.pc t).made = rounds := by
  obtain ⟨i, hp, hle⟩ := hd t
  rw [hp]
  exact Nat.le_antisymm (hi.loop_le t i hp) hle

omit [DecidableEq T] in
theorem Inv.counter_of_done (hi : Inv rounds s) (hrounds : 2 ≤ rounds) (hd : Done rounds s) :
    2 ≤ s.counter ∧ s.counter ≤ Fintype.card T * rounds := by
  obtain ⟨w, hw⟩ := hi.last
  refine ⟨hw (by rwa [hi.made_of_done hd]), hi.counter_le.trans_eq ?_⟩
  simp only [hi.made_of_done hd, sum_const, card_univ, Nat.nsmul_eq_mul]

end Bounds

/-! ### Schedules that lose increments -/

section Schedules
variable {rounds : ℕ} {s : State T} {t : T}

/-- The rounds that a thread has left. -/
def Pc.left (rounds : ℕ) : Pc → ℕ
  | .loop i | .loaded i _ => rounds - i

theorem left_loop (i : ℕ) : (Pc.loop i).left rounds = rounds - i := rfl

/-- A thread that is between two rounds. -/
def Pc.AtLoop (rounds : ℕ) (p : Pc) : Prop := ∃ i, p = .loop i ∧ i ≤ rounds

theorem run_load {i : ℕ} (hp : s.pc t = .loop i) (hi : i < rounds) :
    Run (program T id rounds) Free s [] (s.goto s.counter t (.loaded i s.counter)) :=
  Run.single (P := program T id rounds) (a := t) trivial
    (by simp only [program, workerThread, hp, if_pos hi])

theorem run_store {i c : ℕ} (hp : s.pc t = .loaded i c) :
    Run (program T id rounds) Free s [] (s.goto (c + 1) t (.loop (i + 1))) :=
  Run.single (P := program T id rounds) (a := t) trivial
    (by simp only [program, workerThread, hp, id_eq])

theorem run_round {i : ℕ} (hp : s.pc t = .loop i) (hi : i < rounds) :
    Run (program T id rounds) Free s [] (s.goto (s.counter + 1) t (.loop (i + 1))) := by
  have hrun := (run_load hp hi).trans (run_store (goto_self ..))
  rwa [State.goto, State.goto, Function.update_idem] at hrun

/-- Threads that are between rounds can make any number of the rounds that they have left, one
after the other, and lose none. -/
theorem exists_run_rounds (among : Finset T) (j : ℕ) (hloop : ∀ t ∈ among, (s.pc t).AtLoop rounds)
    (hj : j ≤ ∑ t ∈ among, (s.pc t).left rounds) :
    ∃ u, Run (program T id rounds) Free s [] u ∧ u.counter = s.counter + j ∧
      (∀ t, t ∉ among → u.pc t = s.pc t) ∧ (∀ t ∈ among, (u.pc t).AtLoop rounds) ∧
      ∑ t ∈ among, (u.pc t).left rounds + j = ∑ t ∈ among, (s.pc t).left rounds := by
  induction j with
  | zero => exact ⟨s, .refl, rfl, fun _ _ => rfl, hloop, rfl⟩
  | succ j ih =>
    obtain ⟨u, hr, hc, hout, hat, hsum⟩ := ih (Nat.le_of_succ_le hj)
    have hpos : 0 < ∑ t ∈ among, (u.pc t).left rounds := by omega
    obtain ⟨t, ht, hleft⟩ := exists_ne_zero_of_sum_ne_zero hpos.ne'
    obtain ⟨i, hp, -⟩ := hat t ht
    have hi : i < rounds := by
      rw [hp] at hleft
      exact Nat.lt_of_sub_ne_zero hleft
    refine ⟨u.goto (u.counter + 1) t (.loop (i + 1)), hr.trans (run_round hp hi), ?_, fun v hv => ?_,
      fun v hv => ?_, ?_⟩
    · show u.counter + 1 = s.counter + (j + 1)
      rw [hc, Nat.add_assoc]
    · rw [goto_of_ne _ _ _ (ne_of_mem_of_not_mem ht hv).symm, hout v hv]
    · by_cases h : v = t
      · exact ⟨i + 1, by rw [h, goto_self], hi⟩
      · rw [goto_of_ne _ _ _ h]
        exact hat v hv
    · rw [← hsum, ← add_sum_erase among _ ht, ← add_sum_erase among (fun v => (u.pc v).left rounds) ht,
        goto_self, hp, sum_congr rfl fun v hv => by rw [goto_of_ne _ _ _ (ne_of_mem_erase hv)]]
      simp only [Pc.left]
      omega

variable [Fintype T]

omit [DecidableEq T] in
theorem done_of_left (hloop : ∀ t, (s.pc t).AtLoop rounds) (hsum : ∑ t, (s.pc t).left rounds = 0) :
    Done rounds s := by
  intro t
  obtain ⟨i, hp, -⟩ := hloop t
  have hleft := sum_eq_zero_iff.mp hsum t (mem_univ t)
  rw [hp] at hleft
  exact ⟨i, hp, Nat.sub_eq_zero_iff_le.mp hleft⟩

/-- One thread reads the first value, the others make `j` rounds, and the thread stores one: the
`j` increments are lost. -/
theorem exists_run_overwrite (hrounds : 0 < rounds) (a : T) {j : ℕ}
    (hj : j ≤ (Fintype.card T - 1) * rounds) :
    ∃ u, Run (program T id rounds) Free (initial T) [] u ∧ u.counter = 1 ∧ u.pc a = .loop 1 ∧
      (∀ t, (u.pc t).AtLoop rounds) ∧
      ∑ t ∈ univ.erase a, (u.pc t).left rounds + j = (Fintype.card T - 1) * rounds := by
  let s : State T := (initial T).goto 0 a (.loaded 0 0)
  have hs : ∀ t ∈ univ.erase a, s.pc t = .loop 0 := fun t ht => goto_of_ne _ _ _ (ne_of_mem_erase ht)
  have hload : Run (program T id rounds) Free (initial T) [] s := run_load (i := 0) rfl hrounds
  have hsum : ∑ t ∈ univ.erase a, (s.pc t).left rounds = (Fintype.card T - 1) * rounds := by
    rw [sum_congr rfl fun t ht => by rw [hs t ht], sum_const, card_erase_of_mem (mem_univ a), card_univ,
      Nat.nsmul_eq_mul]
    rfl
  obtain ⟨u, hr, -, hout, hat, hleft⟩ := exists_run_rounds (univ.erase a) j
    (fun t ht => ⟨0, hs t ht, Nat.zero_le _⟩) (hj.trans_eq hsum.symm)
  have ha : u.pc a = .loaded 0 0 := (hout a (notMem_erase a univ)).trans (goto_self ..)
  refine ⟨u.goto 1 a (.loop 1), (hload.trans hr).trans (run_store ha), rfl, goto_self .., fun t => ?_, ?_⟩
  · by_cases h : t = a
    · exact ⟨1, by rw [h, goto_self], hrounds⟩
    · rw [goto_of_ne _ _ _ h]
      exact hat t (mem_erase.mpr ⟨h, mem_univ t⟩)
  · rw [sum_congr rfl fun t ht => by rw [goto_of_ne _ _ _ (ne_of_mem_erase ht)], hleft, hsum]

/-- Any value from the rounds of one thread up to the rounds of all. -/
theorem exists_run_many (hrounds : 0 < rounds) (a : T) {j : ℕ}
    (hj : j ≤ (Fintype.card T - 1) * rounds) :
    ∃ u, Run (program T id rounds) Free (initial T) [] u ∧ Done rounds u ∧ u.counter = rounds + j := by
  obtain ⟨s, hs, hc, ha, hat, hleft⟩ := exists_run_overwrite hrounds a (Nat.sub_le _ j)
  have hsum : ∑ t, (s.pc t).left rounds = rounds - 1 + j := by
    rw [← add_sum_erase univ _ (mem_univ a), ha, left_loop]
    omega
  obtain ⟨u, hr, hcu, -, hatu, hleftu⟩ := exists_run_rounds univ _ (fun t _ => hat t) hsum.ge
  refine ⟨u, hs.trans hr, done_of_left (fun t => hatu t (mem_univ t)) (by omega), ?_⟩
  rw [hcu, hc]
  omega

/-- Any value from two up to the rounds of one thread: another thread reads the one that the first
store left and keeps it for its last round. -/
theorem exists_run_few (hcard : 2 ≤ Fintype.card T) (hrounds : 0 < rounds) (a : T) {c : ℕ} (hc : 2 ≤ c)
    (hle : c ≤ rounds + 1) :
    ∃ u, Run (program T id rounds) Free (initial T) [] u ∧ Done rounds u ∧ u.counter = c := by
  have hothers : 1 ≤ (Fintype.card T - 1) * rounds :=
    Nat.mul_pos (Nat.sub_pos_of_lt hcard) hrounds
  obtain ⟨s, hs, hone, ha, hat, hleft⟩ := exists_run_overwrite hrounds a (Nat.sub_le _ 1)
  have hleft : ∑ t ∈ univ.erase a, (s.pc t).left rounds = 1 := by omega
  obtain ⟨b, hb, hne⟩ := exists_ne_zero_of_sum_ne_zero (hleft.trans_ne Nat.one_ne_zero)
  obtain ⟨i, hp, -⟩ := hat b
  have hi : i < rounds := by
    rw [hp] at hne
    exact Nat.lt_of_sub_ne_zero hne
  have hba : b ≠ a := ne_of_mem_erase hb
  let x : State T := s.goto s.counter b (.loaded i s.counter)
  have hxa : x.pc a = .loop 1 := (goto_of_ne _ _ _ hba.symm).trans ha
  obtain ⟨y, hy, -, hout, haty, hlefty⟩ := exists_run_rounds (s := x) {a} (rounds + 1 - c)
    (fun t ht => ⟨1, by rw [mem_singleton.mp ht, hxa], hrounds⟩)
    (by rw [sum_singleton, hxa, left_loop]; omega)
  have hyb : y.pc b = .loaded i 1 := by
    rw [hout b (notMem_singleton.mpr hba), goto_self, hone]
  let z : State T := y.goto 2 b (.loop (i + 1))
  have hz : ∀ t, (z.pc t).AtLoop rounds := by
    intro t
    by_cases htb : t = b
    · exact ⟨i + 1, by rw [htb]; exact goto_self .., hi⟩
    · rw [goto_of_ne _ _ _ htb]
      by_cases hta : t = a
      · exact hta ▸ haty a (mem_singleton_self a)
      · rw [hout t (notMem_singleton.mpr hta), goto_of_ne _ _ _ htb]
        exact hat t
  have hrest : ∑ t ∈ (univ.erase a).erase b, (z.pc t).left rounds =
      ∑ t ∈ (univ.erase a).erase b, (s.pc t).left rounds := by
    refine sum_congr rfl fun t ht => ?_
    have htb : t ≠ b := ne_of_mem_erase ht
    have hta : t ≠ a := ne_of_mem_erase (mem_of_mem_erase ht)
    rw [goto_of_ne _ _ _ htb, hout t (notMem_singleton.mpr hta), goto_of_ne _ _ _ htb]
  have hsum : ∑ t, (z.pc t).left rounds = c - 2 := by
    rw [← add_sum_erase _ _ hb, hp, left_loop] at hleft
    rw [sum_singleton, sum_singleton, hxa, left_loop] at hlefty
    rw [← add_sum_erase univ _ (mem_univ a), ← add_sum_erase _ _ hb, hrest, goto_self, left_loop,
      goto_of_ne _ _ _ hba.symm]
    omega
  obtain ⟨u, hu, hcu, -, hatu, hleftu⟩ := exists_run_rounds univ _ (fun t _ => hz t) hsum.ge
  have hrun : Run (program T id rounds) Free (initial T) [] z :=
    ((hs.trans (run_load hp hi)).trans hy).trans (run_store hyb)
  refine ⟨u, hrun.trans hu, done_of_left (fun t => hatu t (mem_univ t)) (by omega), ?_⟩
  have hcz : z.counter = 2 := rfl
  omega

end Schedules

/-! ### The counter of 32 bits -/

section Wrap
variable {rounds : ℕ} {s : State T} {t : T}

def Pc.wrap : Pc → Pc
  | .loop i => .loop i
  | .loaded i v => .loaded i (uint32 v)

/-- The state that the program is in when the counter does wrap. -/
def State.wrap (s : State T) : State T := ⟨uint32 s.counter, fun t => (s.pc t).wrap⟩

theorem wrap_goto (counter : ℕ) (p : Pc) :
    (s.goto counter t p).wrap = s.wrap.goto (uint32 counter) t p.wrap :=
  congrArg (State.mk _) (Function.comp_update Pc.wrap s.pc t p)

/-- To wrap at every sum or at the end is the same. -/
theorem step_wrap (s : State T) (t : T) :
    workerThread uint32 rounds s.wrap t = (workerThread id rounds s t).map State.wrap := by
  have hpc : s.wrap.pc t = (s.pc t).wrap := rfl
  cases hp : s.pc t with
  | loop i =>
    rw [hp] at hpc
    simp only [workerThread, hp, hpc, Pc.wrap]
    split
    · rw [Option.map_some, wrap_goto]
      rfl
    · rfl
  | loaded i v =>
    rw [hp] at hpc
    have hadd : uint32 (uint32 v + 1) = uint32 (v + 1) := Nat.mod_add_mod ..
    simp only [workerThread, hp, hpc, Pc.wrap, hadd, Option.map_some, wrap_goto, id_eq]

omit [DecidableEq T] in
theorem done_wrap : Done rounds s.wrap ↔ Done rounds s := by
  refine forall_congr' fun t => ?_
  show (∃ i, (s.pc t).wrap = .loop i ∧ _) ↔ _
  cases s.pc t <;> simp [Pc.wrap]

theorem run_wrap_iff {h : List Empty} {u : State T} :
    Run (program T uint32 rounds) Free (initial T) h u ↔
      ∃ v : State T, Run (program T id rounds) Free (initial T) h v ∧ v.wrap = u := by
  constructor
  · intro hr
    refine hr.simulate (fun (x y : State T) => y.wrap = x) rfl ?_
    rintro x t y x' rfl - hy
    obtain ⟨y', hy', rfl⟩ := Option.map_eq_some_iff.mp ((step_wrap x' t).symm.trans hy)
    exact ⟨y', Run.single (P := program T id rounds) (a := t) trivial hy', rfl⟩
  · rintro ⟨v, hv, rfl⟩
    refine hv.map (Q := program T uint32 rounds) (E := Free) State.wrap fun x t y _ hy => ?_
    refine Run.single (P := program T uint32 rounds) (a := t) trivial ?_
    exact (step_wrap x t).trans (Option.map_eq_some_iff.mpr ⟨y, hy, rfl⟩)

end Wrap

/-- The values that part 1 can print, with at least two threads: up to the wrap of a `uint32_t`,
all from two to the number of all rounds. -/
theorem part1_counter_iff [Fintype T] (hcard : 2 ≤ Fintype.card T) (c : ℕ) :
    (∃ h s, Run (program T uint32 10000) Free (initial T) h s ∧ Done 10000 s ∧ s.counter = c) ↔
      ∃ m, 2 ≤ m ∧ m ≤ Fintype.card T * 10000 ∧ m % 2 ^ 32 = c := by
  obtain ⟨a⟩ : Nonempty T := Fintype.card_pos_iff.mp (Nat.zero_lt_of_lt hcard)
  constructor
  · rintro ⟨h, s, hr, hd, rfl⟩
    obtain ⟨u, hu, rfl⟩ := run_wrap_iff.mp hr
    have hb := (inv_of_run a hu).counter_of_done (by decide) (done_wrap.mp hd)
    exact ⟨u.counter, hb.1, hb.2, rfl⟩
  · rintro ⟨m, hm, hle, rfl⟩
    suffices hex : ∃ u, Run (program T id 10000) Free (initial T) [] u ∧ Done 10000 u ∧ u.counter = m by
      obtain ⟨u, hu, hd, rfl⟩ := hex
      exact ⟨[], u.wrap, run_wrap_iff.mpr ⟨u, hu, rfl⟩, done_wrap.mpr hd, rfl⟩
    by_cases hfew : m ≤ 10000
    · exact exists_run_few hcard (by decide) a hm (hfew.trans (Nat.le_succ _))
    · obtain ⟨u, hu, hd, hc⟩ := exists_run_many (by decide : 0 < 10000) a (j := m - 10000) (by
        rw [Nat.sub_mul, Nat.one_mul]
        exact Nat.sub_le_sub_right hle _)
      exact ⟨u, hu, hd, by omega⟩

theorem part1_counter_iff_two :
    (∃ h s, Run (program (Fin 2) uint32 10000) Free (initial (Fin 2)) h s ∧ Done 10000 s ∧
      s.counter = 2) ↔ ∃ m, 2 ≤ m ∧ m ≤ Fintype.card (Fin 2) * 10000 ∧ m % 2 ^ 32 = 2 :=
  part1_counter_iff (T := Fin 2) (by decide) 2

end Multicore.Counters.LostUpdate
