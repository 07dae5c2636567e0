import Multicore.Counters.LostUpdate
import Multicore.Locks.SimpleTest

/-! The two repairs of the counter of part 1. Part 2 puts a mutex around the increment, part 2a
makes it one atomic action. Neither loses an increment, whatever the schedule. -/

namespace Multicore.Counters

open Runs Locks

/-! ### Part 2a -/

namespace AtomicAdd

/-- The threads stand between two rounds. -/
structure State (T : Type*) where
  counter : ℕ
  round : T → ℕ

variable {T : Type*} [DecidableEq T]

/-- The next step of `worker_thread`: `__sync_add_and_fetch` of a counter of `width` bits. -/
def workerThread (width rounds : ℕ) (s : State T) (t : T) : Option (State T) :=
  if s.round t < rounds then
    some ⟨(s.counter + 1) % 2 ^ width, Function.update s.round t (s.round t + 1)⟩
  else none

def program (T : Type*) [DecidableEq T] (width rounds : ℕ) : Program (State T) T Empty where
  step := workerThread width rounds
  shows _ _ := []

def initial (T : Type*) : State T := ⟨0, fun _ => 0⟩

def Done (rounds : ℕ) (s : State T) : Prop := ∀ t, rounds ≤ s.round t

variable [Fintype T] {width rounds : ℕ} {s u : State T} {t : T}

structure Inv (width rounds : ℕ) (s : State T) : Prop where
  round_le : ∀ t, s.round t ≤ rounds
  total : s.counter = (∑ t, s.round t) % 2 ^ width

omit [DecidableEq T] in
theorem Inv.initial (width rounds : ℕ) : Inv width rounds (initial T) :=
  ⟨fun _ => Nat.zero_le _, by simp [AtomicAdd.initial]⟩

/-- A step is one round of one thread. -/
theorem sum_round_succ (hu : workerThread width rounds s t = some u) :
    ∑ v, u.round v = ∑ v, s.round v + 1 := by
  simp only [workerThread, Option.ite_none_right_eq_some, Option.some.injEq] at hu
  obtain ⟨-, rfl⟩ := hu
  exact sum_add_at t (Function.update_self ..) fun v hv => Function.update_of_ne hv ..

theorem Inv.step (hi : Inv width rounds s) (hu : workerThread width rounds s t = some u) :
    Inv width rounds u := by
  have hsum := sum_round_succ hu
  simp only [workerThread, Option.ite_none_right_eq_some, Option.some.injEq] at hu
  obtain ⟨hlt, rfl⟩ := hu
  refine ⟨fun v => ?_, ?_⟩
  · show Function.update s.round t (s.round t + 1) v ≤ rounds
    by_cases hv : v = t
    · rw [hv, Function.update_self]
      exact hlt
    · rw [Function.update_of_ne hv]
      exact hi.round_le v
  · rw [hsum, hi.total, Nat.mod_add_mod]

omit [DecidableEq T] in
theorem Inv.counter_of_done (hi : Inv width rounds s) (hd : Done rounds s) :
    s.counter = Fintype.card T * rounds % 2 ^ width := by
  have hround : ∀ t, s.round t = rounds := fun t => Nat.le_antisymm (hi.round_le t) (hd t)
  rw [hi.total]
  simp only [hround, Finset.sum_const, Finset.card_univ, Nat.nsmul_eq_mul]

theorem ends {f : ℕ → State T} {act : ℕ → Option T}
    (he : Execution (program T width rounds) Free f act) (h0 : f 0 = initial T)
    (hfair : Fair (program T width rounds) f act) :
    ∃ m, Done rounds (f m) ∧ (f m).counter = Fintype.card T * rounds % 2 ^ width := by
  have hinv : ∀ m, Inv width rounds (f m) :=
    he.always (h0 ▸ Inv.initial width rounds) fun _ _ _ hi _ hu => hi.step hu
  suffices hdone : ∃ m, Done rounds (f m) from
    hdone.imp fun m hm => ⟨hm, (hinv m).counter_of_done hm⟩
  by_cases hstart : Done rounds (f 0)
  · exact ⟨0, hstart⟩
  -- whoever has a round left is due, and every round brings the end nearer
  refine he.leads_due (Q := Done rounds) (J := fun s => Inv width rounds s ∧ ¬ Done rounds s)
    (fun s t => s.round t < rounds) (fun t v => v = t)
    (fun s => Fintype.card T * rounds - ∑ t, s.round t) ⟨hinv 0, hstart⟩ ?_ ?_ ?_
  · rintro x ⟨-, hnot⟩
    simpa only [Done, not_forall, Nat.not_le] using hnot
  · rintro x t y ⟨hi, -⟩ - hu
    by_cases hy : Done rounds y
    · exact .inl hy
    have hle := Finset.sum_le_sum fun v (_ : v ∈ Finset.univ) => (hi.step hu).round_le v
    rw [Finset.sum_const, Finset.card_univ, Nat.nsmul_eq_mul] at hle
    have hsum := sum_round_succ hu
    exact .inr ⟨⟨hi.step hu, hy⟩, .inl (by omega)⟩
  · intro n t hdue
    obtain ⟨m, hm, ha⟩ := hfair n t fun m hm => by
      simp only [program, workerThread, if_pos (hdue m hm)]
      exact Option.some_ne_none _
    exact ⟨m, t, hm, ha, rfl⟩

end AtomicAdd

/-! ### Both repairs -/

/-- Part 2 and part 2a end with every increment counted, up to the wrap of a `uint32_t`: for any
number of threads and any fair schedule. -/
theorem part2_counter {T : Type*} [Fintype T] [DecidableEq T] :
    (∀ (f : ℕ → Worker.State T Bool PThreadLock.Call) (act : ℕ → Option T),
      Execution (Worker.program T PThreadLock.lock 32 10000) Free f act →
      f 0 = Worker.initial T PThreadLock.Call PThreadLock.new →
      Fair (Worker.program T PThreadLock.lock 32 10000) f act →
      ∃ m, Worker.Done 10000 (f m) ∧ (f m).counter = Fintype.card T * 10000 % 2 ^ 32) ∧
    (∀ (f : ℕ → AtomicAdd.State T) (act : ℕ → Option T),
      Execution (AtomicAdd.program T 32 10000) Free f act → f 0 = AtomicAdd.initial T →
      Fair (AtomicAdd.program T 32 10000) f act →
      ∃ m, AtomicAdd.Done 10000 (f m) ∧ (f m).counter = Fintype.card T * 10000 % 2 ^ 32) :=
  ⟨fun _ _ he h0 hfair => Worker.ends (PThreadLock.lock_word.excludes _ _)
      (PThreadLock.lock_word.live rfl _ PThreadLock.lock_ready) he h0 hfair,
    fun _ _ he h0 hfair => AtomicAdd.ends he h0 hfair⟩

/-- Three threads, taking turns. -/
theorem part2_counter_three :
    (∃ (f : ℕ → Worker.State (Fin 3) Bool PThreadLock.Call) (act : ℕ → Option (Fin 3)),
      Execution (Worker.program (Fin 3) PThreadLock.lock 32 10000) Free f act ∧
        f 0 = Worker.initial (Fin 3) PThreadLock.Call PThreadLock.new ∧
        ∃ m, Worker.Done 10000 (f m) ∧ (f m).counter = 30000) ∧
    ∃ (f : ℕ → AtomicAdd.State (Fin 3)) (act : ℕ → Option (Fin 3)),
      Execution (AtomicAdd.program (Fin 3) 32 10000) Free f act ∧ f 0 = AtomicAdd.initial (Fin 3) ∧
        ∃ m, AtomicAdd.Done 10000 (f m) ∧ (f m).counter = 30000 := by
  have hturn : ∀ (n : ℕ) (t : Fin 3), ∃ m, n ≤ m ∧ (⟨m % 3, Nat.mod_lt m (by decide)⟩ : Fin 3) = t :=
    fun n t => exists_turn (by decide) t
  obtain ⟨hmutex, hatomic⟩ := part2_counter (T := Fin 3)
  refine ⟨?_, ?_⟩
  · obtain ⟨f, act, he, h0, hfair⟩ := exists_fair (Worker.program (Fin 3) PThreadLock.lock 32 10000)
      (Worker.initial (Fin 3) PThreadLock.Call PThreadLock.new) hturn
    exact ⟨f, act, he, h0, hmutex f act he h0 hfair⟩
  · obtain ⟨f, act, he, h0, hfair⟩ := exists_fair (AtomicAdd.program (Fin 3) 32 10000)
      (AtomicAdd.initial (Fin 3)) hturn
    exact ⟨f, act, he, h0, hatomic f act he h0 hfair⟩

end Multicore.Counters
