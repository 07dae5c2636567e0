import Multicore.Locks.TestAndSet

/-! No phantom holder. The state byte of a test-and-set lock should be set only while some
thread is inside, and then a thread that is alone gets the lock. `AO_test_and_set` and
`AO_CLEAR` keep this if it holds when the lock is made; `TASLock` and `TTASLock` clear the
byte in their constructors, `BackoffLock` leaves it as the memory was. -/

namespace Multicore.Locks.TestAndSet

open Runs

variable (AO_TS_SET AO_TS_CLEAR : UInt8)

/-! ### Constructors -/

/-- The state byte after `AO_CLEAR(&state)`, whatever the memory held. -/
def TASLock.new (_memory : UInt8) : UInt8 := AO_TS_CLEAR

def TTASLock.new (_memory : UInt8) : UInt8 := AO_TS_CLEAR

/-- The constructor of `BackoffLock` sets the two delays and seeds the generator. -/
def BackoffLock.new (memory : UInt8) : UInt8 := memory

/-- `create_lock` over memory in which the state byte was `memory`. -/
def createLock (kind : Kind) (memory : UInt8) : UInt8 :=
  match kind with
  | .TASLock => TASLock.new AO_TS_CLEAR memory
  | .TTASLock => TTASLock.new AO_TS_CLEAR memory
  | .BackoffLock _ _ => BackoffLock.new memory

/-! ### Who set the byte -/

/-- The loop goes on after a test-and-set only if that found `AO_TS_SET`. -/
def AcquireLoop.Complete {L : Type} (loop : AcquireLoop L) : Prop :=
  ∀ l k, loop.access l = .testAndSet k → ∀ old l', k old = some l' → old = AO_TS_SET

theorem Kind.lock_complete (kind : Kind) : (kind.lock AO_TS_SET).Complete AO_TS_SET := by
  intro l k hk old l' hold
  cases kind with
  | TASLock =>
    cases hk
    by_contra hne
    simp [hne] at hold
  | TTASLock =>
    cases l with
    | test => cases hk
    | attempt =>
      cases hk
      by_contra hne
      simp [hne] at hold
  | BackoffLock minDelay maxDelay =>
    cases l with
    | attempt b =>
      cases hk
      by_contra hne
      simp [hne] at hold
    | backoff b => cases hk
    | test b => cases hk

variable {AO_TS_SET AO_TS_CLEAR} {T L : Type}

/-- The byte is set only while some thread is inside. -/
def Held (AO_TS_SET : UInt8) (s : State T L) : Prop := s.state = AO_TS_SET → ∃ t, (s.pc t).Inside

variable [DecidableEq T] {loop : AcquireLoop L} {s u : State T L} {t : T} {p : Pc L}

/-- A move with which nobody leaves. -/
theorem Held.goto (hs : Held AO_TS_SET s) (hin : (s.pc t).Inside → p.Inside) :
    Held AO_TS_SET (s.goto t p) := by
  intro hset
  obtain ⟨v, hv⟩ := hs hset
  refine ⟨v, ?_⟩
  rw [goto_pc]
  split
  · rename_i hvt
    exact hin (hvt ▸ hv)
  · exact hv

theorem Held.step (hne : AO_TS_SET ≠ AO_TS_CLEAR) (hl : loop.Complete AO_TS_SET) {a : Action T}
    (hs : Held AO_TS_SET s) (ha : step AO_TS_SET AO_TS_CLEAR loop s a = some u) :
    Held AO_TS_SET u := by
  cases a with
  | enter t | finish t =>
    cases hp : s.pc t <;> simp only [TestAndSet.step, hp, Option.some.injEq, reduceCtorEq] at ha
    subst ha
    exact hs.goto (by rw [hp]; exact id)
  | access t =>
    cases hp : s.pc t with
    | idle | finished => simp only [TestAndSet.step, hp, reduceCtorEq] at ha
    | locking l =>
      cases hk : loop.access l with
      | testAndSet k =>
        cases ho : k s.state with
        | some l' =>
          simp only [TestAndSet.step, hp, hk, ho, Option.some.injEq] at ha
          subst ha
          -- the byte was set before, by the one who is inside
          have hg : Held AO_TS_SET (s.goto t (.locking l')) := hs.goto (by rw [hp]; exact id)
          exact fun _ => hg (hl l k hk _ l' ho)
        | none =>
          simp only [TestAndSet.step, hp, hk, ho, Option.some.injEq] at ha
          subst ha
          refine fun _ => ⟨t, ?_⟩
          show ((s.goto t .locked).pc t).Inside
          rw [goto_pc, if_pos rfl]
          trivial
      | load k | pause l' =>
        simp only [TestAndSet.step, hp, hk, Option.some.injEq] at ha
        subst ha
        exact hs.goto (by rw [hp]; exact id)
    | locked | counting =>
      simp only [TestAndSet.step, hp, Option.some.injEq] at ha
      subst ha
      exact hs.goto (by rw [hp]; exact id)
    | adding v =>
      simp only [TestAndSet.step, hp, Option.some.injEq] at ha
      subst ha
      exact (hs.goto (t := t) (p := .unlocking) (by rw [hp]; exact id) : Held _ _)
    | unlocking =>
      simp only [TestAndSet.step, hp, Option.some.injEq] at ha
      subst ha
      exact fun hset => absurd hset.symm hne
    | storing v =>
      simp only [TestAndSet.step, hp, Option.some.injEq] at ha
      subst ha
      exact (hs.goto (t := t) (p := .idle) (by rw [hp]; exact id) : Held _ _)

/-! ### A thread on its own -/

/-- `t` makes its next access; nobody else does anything. -/
def Alone (t : T) : Guard (State T L) (Action T) := fun _ a => a = .access t

/-- `t` calls `lock` now, goes on alone and gets the lock. -/
def Obtains (AO_TS_SET AO_TS_CLEAR : UInt8) (loop : AcquireLoop L) (s : State T L) (t : T) : Prop :=
  ∃ u h v, step AO_TS_SET AO_TS_CLEAR loop s (.enter t) = some u ∧
    Run (program AO_TS_SET AO_TS_CLEAR loop) (Alone t) u h v ∧ v.pc t = .locked

theorem run_access (ha : step AO_TS_SET AO_TS_CLEAR loop s (.access t) = some u) :
    Run (program AO_TS_SET AO_TS_CLEAR loop) (Alone t) s [] u :=
  Run.single (P := program AO_TS_SET AO_TS_CLEAR loop) (C := Alone t) (a := .access t) rfl ha

/-- From an attempt that finds the byte not set, `lock` returns. -/
theorem run_attempt {l : L} {k : UInt8 → Option L} (ht : s.pc t = .locking l)
    (hk : loop.access l = .testAndSet k) (hs : k s.state = none) :
    ∃ h v, Run (program AO_TS_SET AO_TS_CLEAR loop) (Alone t) s h v ∧ v.pc t = .locked := by
  refine ⟨[], { s.goto t .locked with state := AO_TS_SET }, run_access ?_, ?_⟩
  · simp only [TestAndSet.step, ht, hk, hs]
  · show (s.goto t .locked).pc t = .locked
    rw [goto_pc, if_pos rfl]

/-- A read that finds the byte not set leads to such an attempt. -/
theorem run_test {l l' : L} {k : UInt8 → L} {k' : UInt8 → Option L} (ht : s.pc t = .locking l)
    (hk : loop.access l = .load k) (hl : k s.state = l') (hk' : loop.access l' = .testAndSet k')
    (hs : k' s.state = none) :
    ∃ h v, Run (program AO_TS_SET AO_TS_CLEAR loop) (Alone t) s h v ∧ v.pc t = .locked := by
  have hread : step AO_TS_SET AO_TS_CLEAR loop s (.access t) = some (s.goto t (.locking l')) := by
    simp only [TestAndSet.step, ht, hk, hl]
  have ht' : (s.goto t (.locking l')).pc t = .locking l' := by
    rw [goto_pc, if_pos rfl]
  obtain ⟨h, v, hr, hv⟩ := run_attempt ht' hk' hs
  exact ⟨h, v, (run_access hread).trans hr, hv⟩

/-- The lock is obtained where the byte is not set. -/
theorem Kind.obtains (kind : Kind) {s : State T kind.Local} (hs : s.state ≠ AO_TS_SET)
    (ht : s.pc t = .idle) : Obtains AO_TS_SET AO_TS_CLEAR (kind.lock AO_TS_SET) s t := by
  have hstep : TestAndSet.step AO_TS_SET AO_TS_CLEAR (kind.lock AO_TS_SET) s (.enter t) =
      some (s.goto t (.locking (kind.lock AO_TS_SET).entry)) := by
    simp only [TestAndSet.step, ht]
  have henter : (s.goto t (.locking (kind.lock AO_TS_SET).entry)).pc t =
      .locking (kind.lock AO_TS_SET).entry := by
    rw [goto_pc, if_pos rfl]
  suffices ∃ h v, Run (program AO_TS_SET AO_TS_CLEAR (kind.lock AO_TS_SET)) (Alone t)
      (s.goto t (.locking (kind.lock AO_TS_SET).entry)) h v ∧ v.pc t = .locked by
    obtain ⟨h, v, hr, hv⟩ := this
    exact ⟨_, h, v, hstep, hr, hv⟩
  cases kind with
  | TASLock => exact run_attempt henter rfl (if_neg hs)
  | TTASLock => exact run_test henter rfl (if_neg hs) rfl (if_pos hs)
  | BackoffLock minDelay maxDelay => exact run_attempt henter rfl (if_pos hs)

/-! ### The law and its one exception -/

/-- In every run the byte is set only while some thread is inside, and who calls `lock` while
nobody is inside obtains the lock, unless a `BackoffLock` is made over a byte that is set. -/
theorem no_phantom_holder_iff {AO_TS_SET AO_TS_CLEAR : UInt8} (hne : AO_TS_SET ≠ AO_TS_CLEAR)
    (kind : Kind) (memory : UInt8) (numThreads : ℕ) :
    (∀ (h : List Empty) (s : State (Fin numThreads) kind.Local),
      Run (program AO_TS_SET AO_TS_CLEAR (kind.lock AO_TS_SET)) Free
        (initial (createLock AO_TS_CLEAR kind memory)) h s →
      (s.state = AO_TS_SET → ∃ t, (s.pc t).Inside) ∧
        ∀ t, s.pc t = .idle → (∀ v, ¬ (s.pc v).Inside) →
          Obtains AO_TS_SET AO_TS_CLEAR (kind.lock AO_TS_SET) s t) ↔
      ∀ minDelay maxDelay, kind = .BackoffLock minDelay maxDelay → memory ≠ AO_TS_SET := by
  constructor
  · rintro hall minDelay maxDelay rfl hset
    obtain ⟨t, ht⟩ := (hall [] _ .refl).1 hset
    exact ht
  · intro hcond h s hr
    have hinit : Held AO_TS_SET
        (initial (createLock AO_TS_CLEAR kind memory) : State (Fin numThreads) kind.Local) := by
      intro hset
      cases kind with
      | TASLock | TTASLock => exact absurd hset.symm hne
      | BackoffLock minDelay maxDelay => exact absurd hset (hcond minDelay maxDelay rfl)
    have hs : Held AO_TS_SET s :=
      hr.always hinit fun _ _ _ hs _ ha => hs.step hne (kind.lock_complete AO_TS_SET) ha
    refine ⟨hs, fun t ht hfree => kind.obtains (fun hset => ?_) ht⟩
    obtain ⟨v, hv⟩ := hs hset
    exact hfree v hv

/-- A `BackoffLock` over clear memory: the first thread obtains it. -/
theorem no_phantom_holder_iff_clear :
    Obtains 0xff 0 ((Kind.BackoffLock 1 128).lock 0xff)
      (initial (createLock 0 (.BackoffLock 1 128) 0) : State (Fin 2) _) 0 :=
  (((no_phantom_holder_iff (by decide) (.BackoffLock 1 128) 0 2).mpr
    fun _ _ _ => by decide) [] _ .refl).2 0 rfl fun _ => id

/-- A thread that is alone stays in its loop as long as the byte is set. -/
theorem locking_of_set (hl : loop.Sound AO_TS_SET) {h : List Empty}
    (hr : Run (program AO_TS_SET AO_TS_CLEAR loop) (Alone t) s h u) (hs : s.state = AO_TS_SET)
    (ht : ∃ l, s.pc t = .locking l) : u.state = AO_TS_SET ∧ ∃ l, u.pc t = .locking l := by
  refine hr.always (I := fun u => u.state = AO_TS_SET ∧ ∃ l, u.pc t = .locking l) ⟨hs, ht⟩ ?_
  rintro u a v ⟨hu, l, hp⟩ rfl ha
  have hgoto : ∀ l', (u.goto t (.locking l')).pc t = .locking l' := by
    intro l'
    rw [goto_pc, if_pos rfl]
  cases hk : loop.access l with
  | testAndSet k =>
    cases ho : k u.state with
    | some l' =>
      simp only [program, TestAndSet.step, hp, hk, ho, Option.some.injEq] at ha
      subst ha
      exact ⟨rfl, l', hgoto l'⟩
    | none => exact absurd hu (hl l k hk _ ho)
  | load k | pause l' =>
    simp only [program, TestAndSet.step, hp, hk, Option.some.injEq] at ha
    subst ha
    exact ⟨hu, _, hgoto _⟩

/-- A `BackoffLock` made over a byte that happens to be set is born held: no thread is inside,
and the one thread that there is never obtains the lock. -/
theorem backoffLock_born_held : ∃ (h : List Empty) (s : State (Fin 1) _),
    Run (program 0xff 0 ((Kind.BackoffLock 1 128).lock 0xff)) Free
      (initial (createLock 0 (.BackoffLock 1 128) 0xff)) h s ∧
      s.state = 0xff ∧ (∀ t, ¬ (s.pc t).Inside) ∧ s.pc 0 = .idle ∧
      ¬ Obtains 0xff 0 ((Kind.BackoffLock 1 128).lock 0xff) s 0 := by
  refine ⟨[], _, .refl, rfl, fun t => id, rfl, ?_⟩
  rintro ⟨u, h, v, hu, hr, hv⟩
  simp only [TestAndSet.step, initial, Option.some.injEq] at hu
  subst hu
  obtain ⟨-, l, hl⟩ := locking_of_set (Kind.lock_sound 0xff (.BackoffLock 1 128)) hr rfl
    ⟨_, by rw [goto_pc, if_pos rfl]⟩
  rw [hl] at hv
  cases hv

end Multicore.Locks.TestAndSet
