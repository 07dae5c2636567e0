import Multicore.Runs.Program
import Mathlib.Algebra.BigOperators.Fin
import Mathlib.Data.UInt

/-! The test-and-set family of locks under the counting worker. A lock is its
acquire loop: the sequence of accesses that it makes to the shared state byte.
Mutual exclusion asks one thing of a loop, that it returns only from a
test-and-set that found the byte not set; the three loops of the repository are
written out and meet it. Under any such loop the byte is set while a worker is
inside, whatever it held at the start, so the two halves of `counter++` are
never split and the counter agrees with the per-thread tallies. -/

namespace Multicore.Locks.TestAndSet

open Runs

/-! ### Acquire loops -/

/-- The next access of an acquire loop. The continuation of a test-and-set gets
the old byte and gives nothing when `lock` returns. -/
inductive Access (L : Type)
  | testAndSet (k : UInt8 → Option L)
  | load (k : UInt8 → L)
  | pause (l : L)

structure AcquireLoop (L : Type) where
  entry : L
  access : L → Access L

/-- The loop returns only from a test-and-set that did not find `AO_TS_SET`. -/
def AcquireLoop.Sound {L : Type} (AO_TS_SET : UInt8) (loop : AcquireLoop L) : Prop :=
  ∀ l k, loop.access l = .testAndSet k → ∀ old, k old = none → old ≠ AO_TS_SET

variable (AO_TS_SET AO_TS_CLEAR : UInt8)

namespace TASLock

/-- `while (AO_test_and_set(&state) == AO_TS_SET);` -/
def lock : AcquireLoop Unit where
  entry := ()
  access _ := .testAndSet fun old => if old = AO_TS_SET then some () else none

theorem lock_sound : (lock AO_TS_SET).Sound AO_TS_SET := by
  intro l k hk old hold
  cases hk
  simpa using hold

end TASLock

namespace TTASLock

inductive Point
  | test | attempt

/-- Spin on plain reads, then try once, for ever. -/
def lock : AcquireLoop Point where
  entry := .test
  access
    | .test => .load fun state => if state = AO_TS_SET then .test else .attempt
    | .attempt => .testAndSet fun old => if old ≠ AO_TS_SET then none else some .test

theorem lock_sound : (lock AO_TS_SET).Sound AO_TS_SET := by
  intro l k hk old hold
  cases l with
  | test => cases hk
  | attempt => cases hk; simpa using hold

end TTASLock

/-- The `Backoff` object of one `lock` call; the drawn delays are not kept. -/
structure Backoff where
  minDelay : UInt32
  maxDelay : UInt32
  limit : UInt32
  deriving DecidableEq

def Backoff.create (minDelay maxDelay : UInt32) : Backoff :=
  ⟨minDelay, maxDelay, min minDelay maxDelay⟩

/-- Draw from `dist(minDelay, limit)`, double the limit under its bound, sleep. -/
def Backoff.backoff (b : Backoff) : Backoff :=
  { b with limit := min b.maxDelay (2 * b.limit) }

namespace BackoffLock

inductive Point
  | attempt (b : Backoff) | backoff (b : Backoff) | test (b : Backoff)
  deriving DecidableEq

/-- Try first, back off on failure. Both ends of the inner `do ... while` lead
back to the attempt. -/
def lock (minDelay maxDelay : UInt32) : AcquireLoop Point where
  entry := .attempt (Backoff.create minDelay maxDelay)
  access
    | .attempt b => .testAndSet fun old => if old ≠ AO_TS_SET then none else some (.backoff b)
    | .backoff b => .pause (.test b.backoff)
    | .test b => .load fun state => if state = AO_TS_SET then .attempt b else .attempt b

theorem lock_sound (minDelay maxDelay : UInt32) :
    (lock AO_TS_SET minDelay maxDelay).Sound AO_TS_SET := by
  intro l k hk old hold
  cases l with
  | attempt b => cases hk; simpa using hold
  | backoff b => cases hk
  | test b => cases hk

end BackoffLock

/-- The test-and-set locks that `create_lock` can build. -/
inductive Kind
  | TASLock | TTASLock | BackoffLock (minDelay maxDelay : UInt32)

def Kind.Local : Kind → Type
  | .TASLock => Unit
  | .TTASLock => TTASLock.Point
  | .BackoffLock _ _ => BackoffLock.Point

def Kind.lock : (kind : Kind) → AcquireLoop kind.Local
  | .TASLock => TASLock.lock AO_TS_SET
  | .TTASLock => TTASLock.lock AO_TS_SET
  | .BackoffLock minDelay maxDelay => BackoffLock.lock AO_TS_SET minDelay maxDelay

theorem Kind.lock_sound (kind : Kind) : (kind.lock AO_TS_SET).Sound AO_TS_SET := by
  cases kind with
  | TASLock => exact TASLock.lock_sound AO_TS_SET
  | TTASLock => exact TTASLock.lock_sound AO_TS_SET
  | BackoffLock minDelay maxDelay => exact BackoffLock.lock_sound AO_TS_SET minDelay maxDelay

/-! ### The counting worker -/

/-- Where a worker stands; `L` is the local state of the acquire loop. -/
inductive Pc (L : Type)
  | idle
  | locking (l : L)
  | locked
  | adding (v : UInt64)
  | unlocking
  | counting
  | storing (v : UInt64)
  | finished
  deriving DecidableEq

/-- Between the return from `lock` and the `AO_CLEAR` of `unlock`. -/
def Pc.Inside {L : Type} : Pc L → Prop
  | .locked | .adding _ | .unlocking => True
  | _ => False

/-- The shared counter already has this worker's increment, its tally has not. -/
def Pc.owed {L : Type} : Pc L → UInt64
  | .unlocking | .counting | .storing _ => 1
  | _ => 0

structure State (T L : Type) where
  state : UInt8
  counter : UInt64
  tcounters : T → UInt64
  pc : T → Pc L

/-- A worker enters another round, leaves its loop, or makes its next access. -/
inductive Action (T : Type)
  | enter (t : T) | finish (t : T) | access (t : T)

variable {T L : Type} [DecidableEq T] (loop : AcquireLoop L)

def State.goto (s : State T L) (t : T) (p : Pc L) : State T L :=
  { s with pc := Function.update s.pc t p }

@[simp] theorem goto_pc (s : State T L) (t u : T) (p : Pc L) :
    (s.goto t p).pc u = if u = t then p else s.pc u := Function.update_apply ..

def step (s : State T L) : Action T → Option (State T L)
  | .enter t => match s.pc t with
    | .idle => some (s.goto t (.locking loop.entry))
    | _ => none
  | .finish t => match s.pc t with
    | .idle => some (s.goto t .finished)
    | _ => none
  | .access t => match s.pc t with
    | .idle | .finished => none
    | .locking l => match loop.access l with
      | .testAndSet k => match k s.state with
        | some l' => some { s.goto t (.locking l') with state := AO_TS_SET }
        | none => some { s.goto t .locked with state := AO_TS_SET }
      | .load k => some (s.goto t (.locking (k s.state)))
      | .pause l' => some (s.goto t (.locking l'))
    -- counter++ is a read and a write
    | .locked => some (s.goto t (.adding s.counter))
    | .adding v => some { s.goto t .unlocking with counter := v + 1 }
    | .unlocking => some { s.goto t .counting with state := AO_TS_CLEAR }
    -- tcounters[tnum]++ likewise
    | .counting => some (s.goto t (.storing (s.tcounters t)))
    | .storing v => some { s.goto t .idle with tcounters := Function.update s.tcounters t (v + 1) }

def program : Program (State T L) (Action T) Empty where
  step := step AO_TS_SET AO_TS_CLEAR loop
  shows _ _ := []

/-- All workers before their loop over a byte with any content. -/
def initial (state : UInt8) : State T L :=
  ⟨state, 0, fun _ => 0, fun _ => .idle⟩

structure Inv [Fintype T] (s : State T L) : Prop where
  exclusive : ∀ t u, (s.pc t).Inside → (s.pc u).Inside → t = u
  held : ∀ t, (s.pc t).Inside → s.state = AO_TS_SET
  adding : ∀ t v, s.pc t = .adding v → v = s.counter
  storing : ∀ t v, s.pc t = .storing v → v = s.tcounters t
  total : s.counter = ∑ t, (s.tcounters t + (s.pc t).owed)

variable {AO_TS_SET AO_TS_CLEAR loop}

section Goto
variable {s : State T L} {t u : T} {p : Pc L}

/-- Nobody comes in when `t` does not. -/
theorem inside_goto (hin : p.Inside → (s.pc t).Inside) (h : ((s.goto t p).pc u).Inside) :
    (s.pc u).Inside := by
  rw [goto_pc] at h
  split at h
  · rename_i hut
    exact hut ▸ hin h
  · exact h

theorem owed_goto (howed : p.owed = (s.pc t).owed) (u : T) :
    ((s.goto t p).pc u).owed = (s.pc u).owed := by
  rw [goto_pc]
  split
  · rename_i hut
    rw [hut, howed]
  · rfl

variable [Fintype T]

theorem Inv.adding_goto (hi : Inv AO_TS_SET s) (hadd : ∀ v, p = .adding v → v = s.counter) :
    ∀ u v, (s.goto t p).pc u = .adding v → v = s.counter := by
  intro u v hu
  rcases update_cases hu with ⟨-, hp⟩ | ⟨-, hu⟩
  · exact hadd v hp
  · exact hi.adding u v hu

theorem Inv.storing_goto (hi : Inv AO_TS_SET s) (hsto : ∀ v, p = .storing v → v = s.tcounters t) :
    ∀ u v, (s.goto t p).pc u = .storing v → v = s.tcounters u := by
  intro u v hu
  rcases update_cases hu with ⟨rfl, hp⟩ | ⟨-, hu⟩
  · exact hsto v hp
  · exact hi.storing u v hu

theorem Inv.total_goto (hi : Inv AO_TS_SET s) (howed : p.owed = (s.pc t).owed) :
    s.counter = ∑ u, (s.tcounters u + ((s.goto t p).pc u).owed) := by
  rw [hi.total]
  exact Finset.sum_congr rfl fun u _ => by rw [owed_goto howed]

/-- A move that neither enters nor leaves, and changes no count. -/
theorem Inv.goto (hi : Inv AO_TS_SET s) (hin : p.Inside → (s.pc t).Inside)
    (hadd : ∀ v, p = .adding v → v = s.counter) (hsto : ∀ v, p = .storing v → v = s.tcounters t)
    (howed : p.owed = (s.pc t).owed) : Inv AO_TS_SET (s.goto t p) where
  exclusive u v hu hv := hi.exclusive u v (inside_goto hin hu) (inside_goto hin hv)
  held u hu := hi.held u (inside_goto hin hu)
  adding := hi.adding_goto hadd
  storing := hi.storing_goto hsto
  total := hi.total_goto howed

end Goto

section Step
variable [Fintype T] {s : State T L} {t : T}

omit [DecidableEq T] in
/-- A test-and-set by a worker outside leaves the byte set. -/
theorem Inv.set (hi : Inv AO_TS_SET s) : Inv AO_TS_SET { s with state := AO_TS_SET } :=
  ⟨hi.exclusive, fun _ _ => rfl, hi.adding, hi.storing, hi.total⟩

/-- A test-and-set that did not find the byte set lets its caller in, since nobody is inside. -/
theorem Inv.acquire (hi : Inv AO_TS_SET s) {l : L} (hp : s.pc t = .locking l)
    (hs : s.state ≠ AO_TS_SET) : Inv AO_TS_SET { s.goto t .locked with state := AO_TS_SET } := by
  have hnone : ∀ u, ¬ (s.pc u).Inside := fun u hu => hs (hi.held u hu)
  have honly : ∀ u, ((s.goto t .locked).pc u).Inside → u = t := by
    intro u hu
    by_contra hut
    rw [goto_pc, if_neg hut] at hu
    exact hnone u hu
  exact ⟨fun u v hu hv => (honly u hu).trans (honly v hv).symm, fun _ _ => rfl,
    hi.adding_goto nofun, hi.storing_goto nofun, hi.total_goto (by rw [hp]; rfl)⟩

/-- `AO_CLEAR` by the worker inside. -/
theorem Inv.release (hi : Inv AO_TS_SET s) (hp : s.pc t = .unlocking) :
    Inv AO_TS_SET { s.goto t .counting with state := AO_TS_CLEAR } := by
  have hin : (Pc.counting (L := L)).Inside → (s.pc t).Inside := nofun
  refine ⟨fun u v hu hv => hi.exclusive u v (inside_goto hin hu) (inside_goto hin hv), fun u hu => ?_,
    hi.adding_goto nofun, hi.storing_goto nofun, hi.total_goto (by rw [hp]; rfl)⟩
  -- who is inside now was inside before, so it is `t`, which has left
  have hut : u = t := hi.exclusive u t (inside_goto hin hu) (by rw [hp]; trivial)
  have hpc : (s.goto t .counting).pc u = .counting := by rw [goto_pc, if_pos hut]
  have hleft : ((s.goto t .counting).pc u).Inside := hu
  rw [hpc] at hleft
  exact hleft.elim

/-- The store half of `counter++`: no other worker is between its read and its store. -/
theorem Inv.add (hi : Inv AO_TS_SET s) {v : UInt64} (hp : s.pc t = .adding v) :
    Inv AO_TS_SET { s.goto t .unlocking with counter := v + 1 } := by
  have ht : (s.pc t).Inside := by rw [hp]; trivial
  refine ⟨fun u w hu hw => hi.exclusive u w (inside_goto (fun _ => ht) hu) (inside_goto (fun _ => ht) hw),
    fun u hu => hi.held u (inside_goto (fun _ => ht) hu), fun u w hu => ?_, hi.storing_goto nofun, ?_⟩
  · rcases update_cases hu with ⟨-, hpc⟩ | ⟨hut, hu⟩
    · cases hpc
    · exact absurd (hi.exclusive u t (by rw [hu]; trivial) ht) hut
  · have hone : ∀ u, s.tcounters u + ((s.goto t .unlocking).pc u).owed =
        (s.tcounters u + (s.pc u).owed) + if u = t then 1 else 0 := by
      intro u
      rw [goto_pc]
      split
      · rename_i hut
        rw [hut, hp]
        simp [Pc.owed]
      · rw [add_zero]
    show v + 1 = ∑ u, (s.tcounters u + ((s.goto t .unlocking).pc u).owed)
    rw [hi.adding t v hp, hi.total]
    simp only [hone, Finset.sum_add_distrib, Finset.sum_ite_eq', Finset.mem_univ, if_true]

/-- The store half of `tcounters[tnum]++` pays what was owed. -/
theorem Inv.tally (hi : Inv AO_TS_SET s) {v : UInt64} (hp : s.pc t = .storing v) :
    Inv AO_TS_SET { s.goto t .idle with tcounters := Function.update s.tcounters t (v + 1) } := by
  have hin : (Pc.idle (L := L)).Inside → (s.pc t).Inside := nofun
  refine ⟨fun u w hu hw => hi.exclusive u w (inside_goto hin hu) (inside_goto hin hw),
    fun u hu => hi.held u (inside_goto hin hu), hi.adding_goto nofun, fun u w hu => ?_, ?_⟩
  · rcases update_cases hu with ⟨-, hpc⟩ | ⟨hut, hu⟩
    · cases hpc
    · rw [hi.storing u w hu]
      exact (Function.update_of_ne hut ..).symm
  · show s.counter = ∑ u, (Function.update s.tcounters t (v + 1) u + ((s.goto t .idle).pc u).owed)
    rw [hi.total]
    refine Finset.sum_congr rfl fun u _ => ?_
    rw [goto_pc]
    split
    · rename_i hut
      rw [hut, hp, Function.update_self, hi.storing t v hp]
      simp [Pc.owed]
    · rename_i hut
      rw [Function.update_of_ne hut]

theorem Inv.step (hl : loop.Sound AO_TS_SET) {s' : State T L} {a : Action T}
    (hi : Inv AO_TS_SET s) (ha : step AO_TS_SET AO_TS_CLEAR loop s a = some s') :
    Inv AO_TS_SET s' := by
  cases a with
  | enter t =>
    cases hp : s.pc t <;> simp only [TestAndSet.step, hp, Option.some.injEq, reduceCtorEq] at ha
    subst ha
    exact hi.goto nofun nofun nofun (by rw [hp]; rfl)
  | finish t =>
    cases hp : s.pc t <;> simp only [TestAndSet.step, hp, Option.some.injEq, reduceCtorEq] at ha
    subst ha
    exact hi.goto nofun nofun nofun (by rw [hp]; rfl)
  | access t =>
    cases hp : s.pc t with
    | idle => simp only [TestAndSet.step, hp, reduceCtorEq] at ha
    | finished => simp only [TestAndSet.step, hp, reduceCtorEq] at ha
    | locking l =>
      cases hk : loop.access l with
      | testAndSet k =>
        cases ho : k s.state with
        | some l' =>
          simp only [TestAndSet.step, hp, hk, ho, Option.some.injEq] at ha
          subst ha
          have hg := hi.goto (t := t) (p := .locking l') nofun nofun nofun (by rw [hp]; rfl)
          exact hg.set
        | none =>
          simp only [TestAndSet.step, hp, hk, ho, Option.some.injEq] at ha
          subst ha
          exact hi.acquire hp (hl l k hk _ ho)
      | load k =>
        simp only [TestAndSet.step, hp, hk, Option.some.injEq] at ha
        subst ha
        exact hi.goto nofun nofun nofun (by rw [hp]; rfl)
      | pause l' =>
        simp only [TestAndSet.step, hp, hk, Option.some.injEq] at ha
        subst ha
        exact hi.goto nofun nofun nofun (by rw [hp]; rfl)
    | locked =>
      simp only [TestAndSet.step, hp, Option.some.injEq] at ha
      subst ha
      exact hi.goto (by rw [hp]; exact id) (fun _ h => (Pc.adding.inj h).symm) nofun (by rw [hp]; rfl)
    | adding v =>
      simp only [TestAndSet.step, hp, Option.some.injEq] at ha
      subst ha
      exact hi.add hp
    | unlocking =>
      simp only [TestAndSet.step, hp, Option.some.injEq] at ha
      subst ha
      exact hi.release hp
    | counting =>
      simp only [TestAndSet.step, hp, Option.some.injEq] at ha
      subst ha
      exact hi.goto nofun nofun (fun _ h => (Pc.storing.inj h).symm) (by rw [hp]; rfl)
    | storing v =>
      simp only [TestAndSet.step, hp, Option.some.injEq] at ha
      subst ha
      exact hi.tally hp

end Step

/-! ### The run of second_test -/

omit [DecidableEq T] in
theorem Inv.initial [Fintype T] (state : UInt8) :
    Inv AO_TS_SET (initial state : State T L) := by
  constructor <;> simp [TestAndSet.initial, Pc.Inside, Pc.owed]

theorem inv_of_run [Fintype T] (hl : loop.Sound AO_TS_SET) {state : UInt8} {h : List Empty}
    {s : State T L} (hr : Run (program AO_TS_SET AO_TS_CLEAR loop) Free (initial state) h s) :
    Inv AO_TS_SET s :=
  hr.always (Inv.initial state) (fun _ _ _ hi _ ha => hi.step hl ha)

/-- The exit status of `main`: 1 when the tallies do not add up to the counter. -/
def main {n : ℕ} (s : State (Fin n) L) : ℕ :=
  if (List.finRange n).foldl (fun test i => test + s.tcounters i) 0 ≠ s.counter then 1 else 0

theorem foldl_tally {n : ℕ} (f : Fin n → UInt64) :
    (List.finRange n).foldl (fun test i => test + f i) 0 = ∑ i, f i := by
  rw [Fin.sum_univ_def, List.sum_eq_foldl, List.foldl_map]

/-- Mutual exclusion and no lost update, for each lock of the family, any number
of workers and rounds, and any first content of the byte. -/
theorem second_test_correct (AO_TS_SET AO_TS_CLEAR : UInt8) (kind : Kind) (numThreads : ℕ)
    (state : UInt8) {h : List Empty} {s : State (Fin numThreads) kind.Local}
    (hr : Run (program AO_TS_SET AO_TS_CLEAR (kind.lock AO_TS_SET)) Free (initial state) h s) :
    (∀ t u, (s.pc t).Inside → (s.pc u).Inside → t = u) ∧
      ((∀ t, s.pc t = .finished) → s.counter = ∑ t, s.tcounters t ∧ main s = 0) := by
  have hi := inv_of_run (kind.lock_sound AO_TS_SET) hr
  refine ⟨hi.exclusive, fun hfin => ?_⟩
  have hsum : s.counter = ∑ t, s.tcounters t := by
    rw [hi.total]
    exact Finset.sum_congr rfl fun t _ => by rw [hfin t]; exact add_zero _
  exact ⟨hsum, by rw [main, foldl_tally, hsum]; simp⟩

/-- Two workers race for a `BackoffLock` over a byte that starts with neither of the two values. While
one is inside the other backs off and tries again; then it comes in too, and the counter is two. -/
theorem second_test_correct_race :
    ∃ (h k : List Empty) (s u : State (Fin 2) (Kind.BackoffLock 1 128).Local),
      Run (program 1 0 (BackoffLock.lock 1 1 128)) Free (initial 7) h s ∧ s.pc 0 = .adding 0 ∧
        s.pc 1 = .locking (.backoff ⟨1, 128, 2⟩) ∧ (∀ t, (s.pc t).Inside → t = 0) ∧
      Run (program 1 0 (BackoffLock.lock 1 1 128)) Free s k u ∧ u.counter = 2 ∧ main u = 0 := by
  obtain ⟨h, s, hr, ht⟩ := exists_run_of_exec (C := Free) (P := program 1 0 (BackoffLock.lock 1 1 128))
    (s := (initial 7 : State (Fin 2) BackoffLock.Point))
    ([.enter 0, .enter 1, .access 0, .access 0] ++ List.replicate 4 (.access 1))
    (fun _ (s : State (Fin 2) BackoffLock.Point) =>
      (s.pc 0 == .adding 0 && s.pc 1 == .locking (.backoff ⟨1, 128, 2⟩)) &&
        ((program 1 0 (BackoffLock.lock 1 1 128)).exec Free s (List.replicate 2 (.access 0) ++
          List.replicate 8 (.access 1) ++ List.replicate 2 (.access 0) ++ [.finish 1, .finish 0])).any
          fun (_, (u : State (Fin 2) BackoffLock.Point)) =>
            u.counter == 2 && decide (∀ t, u.pc t = .finished)) (by decide +kernel)
  simp only [Bool.and_eq_true, beq_iff_eq] at ht
  obtain ⟨⟨h0, h1⟩, hrest⟩ := ht
  obtain ⟨k, u, hu, hend⟩ := exists_run_of_exec _ (fun _ (u : State (Fin 2) BackoffLock.Point) =>
    u.counter == 2 && decide (∀ t, u.pc t = .finished)) hrest
  rw [Bool.and_eq_true, beq_iff_eq, decide_eq_true_iff] at hend
  have hexclusive := (second_test_correct 1 0 (.BackoffLock 1 128) 2 7 hr).1
  have hcounts := (second_test_correct 1 0 (.BackoffLock 1 128) 2 7 (hr.trans hu)).2
  exact ⟨h, k, s, u, hr, h0, h1, fun t hin => hexclusive t 0 hin (by rw [h0]; trivial), hu, hend.1,
    (hcounts hend.2).2⟩

end Multicore.Locks.TestAndSet
