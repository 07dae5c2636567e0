import Multicore.Locks.Args
import Multicore.Locks.Worker
import Multicore.Locks.Holder
import Multicore.Locks.Starvation

/-! The five locks of `create_lock` under the worker of simple_test. The test-and-set locks and
the mutex look whether their state is free; the array lock excludes and serves by its tickets.
Under each of them all threads end and the counter has every increment. -/

namespace Multicore.Locks

open Runs

/-! ### PThreadLock -/

namespace PThreadLock

/-- The two calls make one access each. -/
inductive Call
  | lock | unlock
  deriving DecidableEq

/-- `pthread_mutex_lock` blocks while the mutex is locked. -/
def lock : Lock Bool Call where
  lock := .lock
  unlock := .unlock
  access
    | mutex, .lock => if mutex then none else some (true, none)
    | _, .unlock => some (false, none)

/-- The mutex after `pthread_mutex_init`. -/
def new : Bool := false

theorem lock_word : lock.Word (fun mutex => mutex = false) (· = .lock) (· = .unlock) where
  lock := rfl
  unlock := rfl
  tries x l x' l' hl h := by
    subst hl
    cases x <;> simp [lock] at h
  takes x l x' hl h := by
    subst hl
    cases x <;> simp [lock] at h
    subst h
    exact ⟨rfl, nofun⟩
  frees x l hl := by
    subst hl
    exact ⟨false, rfl, rfl⟩

theorem lock_ready (x : Bool) (l : Call) (hx : x = false) (hl : l = .lock) :
    ∃ r, lock.access x l = some r ∧ ∀ l', r.2 = some l' → 0 < 0 := by
  subst hx hl
  exact ⟨(true, none), rfl, nofun⟩

end PThreadLock

/-! ### The test-and-set locks -/

namespace TestAndSet

/-- A call of `lock` in its acquire loop, and one of `unlock`. -/
inductive Call (L : Type)
  | acquire (l : L) | clear

variable (AO_TS_SET AO_TS_CLEAR : UInt8)

/-- A lock of the family, from its acquire loop. -/
def AcquireLoop.toLock {L : Type} (loop : AcquireLoop L) : Lock UInt8 (Call L) where
  lock := .acquire loop.entry
  unlock := .clear
  access
    | state, .acquire l => match loop.access l with
      | .testAndSet k => some (AO_TS_SET, (k state).map .acquire)
      | .load k => some (state, some (.acquire (k state)))
      | .pause l' => some (state, some (.acquire l'))
    | _, .clear => some (AO_TS_CLEAR, none)

variable {AO_TS_SET AO_TS_CLEAR} {L : Type} {loop : AcquireLoop L}

theorem AcquireLoop.toLock_word (hsound : loop.Sound AO_TS_SET) (hcomplete : loop.Complete AO_TS_SET)
    (hne : AO_TS_SET ≠ AO_TS_CLEAR) : (loop.toLock AO_TS_SET AO_TS_CLEAR).Word (· ≠ AO_TS_SET)
      (∃ p, · = .acquire p) (· = .clear) where
  lock := ⟨_, rfl⟩
  unlock := rfl
  tries x l x' l' hl h := by
    obtain ⟨p, rfl⟩ := hl
    cases hp : loop.access p with
    | testAndSet k =>
      simp only [toLock, hp, Option.some.injEq, Prod.mk.injEq, Option.map_eq_some_iff] at h
      obtain ⟨rfl, p', hp', rfl⟩ := h
      exact ⟨⟨p', rfl⟩, by rw [hcomplete p k hp x p' hp']⟩
    | load k | pause p' =>
      simp only [toLock, hp, Option.some.injEq, Prod.mk.injEq] at h
      obtain ⟨rfl, rfl⟩ := h
      exact ⟨⟨_, rfl⟩, Iff.rfl⟩
  takes x l x' hl h := by
    obtain ⟨p, rfl⟩ := hl
    cases hp : loop.access p with
    | testAndSet k =>
      simp only [toLock, hp, Option.some.injEq, Prod.mk.injEq, Option.map_eq_none_iff] at h
      obtain ⟨rfl, hk⟩ := h
      exact ⟨hsound p k hp x hk, fun h => h rfl⟩
    | load k | pause p' => simp [toLock, hp] at h
  frees x l hl := by
    subst hl
    exact ⟨AO_TS_CLEAR, rfl, hne.symm⟩

/-- The accesses up to the next test-and-set. -/
def Kind.toAttempt : (kind : Kind) → kind.Local → ℕ
  | .TASLock, _ => 0
  | .TTASLock, p => match p with
    | .test => 1
    | .attempt => 0
  | .BackoffLock _ _, p => match p with
    | .attempt _ => 0
    | .test _ => 1
    | .backoff _ => 2

def Kind.distance (kind : Kind) : Call kind.Local → ℕ
  | .acquire p => kind.toAttempt p
  | .clear => 0

/-- A call that finds the byte not set goes on to its next test-and-set and returns from that. -/
theorem Kind.ready (kind : Kind) (x : UInt8) (l : Call kind.Local) (hx : x ≠ AO_TS_SET)
    (hl : ∃ p, l = .acquire p) :
    ∃ r, ((kind.lock AO_TS_SET).toLock AO_TS_SET AO_TS_CLEAR).access x l = some r ∧
      ∀ l', r.2 = some l' → kind.distance l' < kind.distance l := by
  obtain ⟨p, rfl⟩ := hl
  cases kind with
  | TASLock => exact ⟨_, rfl, by simp only [hx, if_false]; nofun⟩
  | TTASLock =>
    cases p with
    | test => exact ⟨_, rfl, by simp [hx, distance, toAttempt]⟩
    | attempt => exact ⟨_, rfl, by simp only [hx, ne_eq, not_false_eq_true, if_true]; nofun⟩
  | BackoffLock minDelay maxDelay =>
    cases p with
    | attempt b => exact ⟨_, rfl, by simp only [hx, ne_eq, not_false_eq_true, if_true]; nofun⟩
    | backoff b => exact ⟨_, rfl, by simp [distance, toAttempt]⟩
    | test b => exact ⟨_, rfl, by simp [distance, toAttempt]⟩

theorem Kind.toLock_word (kind : Kind) (hne : AO_TS_SET ≠ AO_TS_CLEAR) :
    ((kind.lock AO_TS_SET).toLock AO_TS_SET AO_TS_CLEAR).Word (· ≠ AO_TS_SET) (∃ p, · = .acquire p)
      (· = .clear) :=
  AcquireLoop.toLock_word (kind.lock_sound AO_TS_SET) (kind.lock_complete AO_TS_SET) hne

end TestAndSet

/-! ### ALock -/

namespace ALock

variable {T : Type} [DecidableEq T]

structure Shared where
  flag : ℕ → Bool
  tail : ℕ
  curslot : ℕ

/-- The next access of a thread that stands at `p`, and where it stands then. -/
def access (size : ℕ) (x : Shared) : Pc → Shared × Pc
  | .idle => ({ x with tail := (x.tail + 1) % 2 ^ 64 }, .spinning x.tail (x.tail % size % 2 ^ 32))
  | .spinning tmp slot => (x, if x.flag slot then .clearing tmp slot else .spinning tmp slot)
  | .clearing _ slot => ({ x with flag := Function.update x.flag slot false }, .marking slot)
  | .marking slot => ({ x with curslot := slot }, .inside)
  | .inside => (x, .unlocking x.curslot)
  | .unlocking cur => ({ x with flag := Function.update x.flag ((cur + 1) % 2 ^ 32 % size) true }, .idle)

/-- `lock` is over with the store of `curslot`, and `unlock` with that of the next flag. -/
def lock (size : ℕ) : Lock Shared Pc where
  lock := .idle
  unlock := .inside
  access x p := some ((access size x p).1, match p with
    | .marking _ | .unlocking _ => none
    | _ => some (access size x p).2)

/-- The constructor: only the first flag is raised. -/
def new : Shared := ⟨fun i => decide (i = 0), 0, 0⟩

def State.shared (s : State T) : Shared := ⟨s.flag, s.tail, s.curslot⟩

/-- The step of a thread is its next access. -/
theorem step_eq (size : ℕ) (s : State T) (t : T) :
    step size s t = some ⟨(access size s.shared (s.pc t)).1.flag, (access size s.shared (s.pc t)).1.tail,
      (access size s.shared (s.pc t)).1.curslot,
      Function.update s.pc t (access size s.shared (s.pc t)).2⟩ := by
  cases hp : s.pc t with
  | spinning tmp slot =>
    cases hf : s.flag slot with
    | true => simp [access, step, hp, hf, State.goto, State.shared]
    | false =>
      have hsame : Function.update s.pc t (.spinning tmp slot) = s.pc := by
        rw [← hp, Function.update_eq_self]
      simp [access, step, hp, hf, hsame, State.shared]
  | _ => simp [access, step, hp, State.goto, State.shared]

/-- Where a user of the lock stands in its code. -/
def standing : Lock.Phase Pc → Pc
  | .outside => .idle
  | .inside => .inside
  | .locking p | .unlocking p => p

def ofUsers (s : Lock.Users T Shared Pc) : State T :=
  ⟨s.shared.flag, s.shared.tail, s.shared.curslot, fun t => standing (s.phase t)⟩

/-- A call of `lock` is in the code of `lock`, and one of `unlock` in that of `unlock`. -/
def Proper : Lock.Phase Pc → Prop
  | .locking p => p = .idle ∨ (∃ tmp slot, p = .spinning tmp slot ∨ p = .clearing tmp slot) ∨
      ∃ slot, p = .marking slot
  | .unlocking p => p = .inside ∨ ∃ cur, p = .unlocking cur
  | _ => True

/-- 1 for a call of `lock` that has no ticket yet. -/
def pending : Lock.Phase Pc → ℕ
  | .locking .idle => 1
  | _ => 0

section Users
variable {size : ℕ} {s u : Lock.Users T Shared Pc} {t : T}

theorem ofUsers_goto (x : Shared) (p : Lock.Phase Pc) :
    ofUsers (s.goto x t p) = ⟨x.flag, x.tail, x.curslot, Function.update (ofUsers s).pc t (standing p)⟩ :=
  congrArg (State.mk x.flag x.tail x.curslot) (Function.comp_update standing s.phase t p)

/-- A call changes nothing in the lock. -/
theorem ofUsers_call {p : Lock.Phase Pc} (hp : standing p = standing (s.phase t)) :
    ofUsers (s.goto s.shared t p) = ofUsers s := by
  have hpc : standing (s.phase t) = (ofUsers s).pc t := rfl
  rw [ofUsers_goto, hp, hpc, Function.update_eq_self]
  rfl

/-- What an access of a call does, with the draw that it makes. -/
theorem ofUsers_access (hproper : Proper (s.phase t))
    (hu : Lock.step (lock size) s (.access t) = some u) :
    step size (ofUsers s) t = some (ofUsers u) ∧ ∃ p, u.phase = Function.update s.phase t p ∧ Proper p ∧
      pending p + (drawn (shows (ofUsers s) t)).length = pending (s.phase t) := by
  rw [step_eq]
  cases hp : s.phase t with
  | outside | inside => simp only [Lock.step, hp, reduceCtorEq] at hu
  | locking p =>
    have hpc : (ofUsers s).pc t = p := by simp only [ofUsers, hp, standing]
    simp only [Lock.step, hp, lock, Option.map_some, Option.some.injEq] at hu
    rw [hp] at hproper
    obtain rfl | ⟨tmp, slot, rfl | rfl⟩ | ⟨slot, rfl⟩ := hproper <;> subst hu <;> rw [hpc]
    · exact ⟨by rw [ofUsers_goto]; rfl, _, rfl, .inr (.inl ⟨_, _, .inl rfl⟩),
        by simp [Lock.Phase.afterLock, access, pending, shows, hpc, drawn]⟩
    · cases hf : s.shared.flag slot
      · have hf' : (ofUsers s).flag slot = false := hf
        exact ⟨by rw [ofUsers_goto]; rfl, _, rfl, .inr (.inl ⟨tmp, slot, .inl (by simp [access, hf])⟩),
          by simp [Lock.Phase.afterLock, access, pending, shows, hpc, drawn, hf, hf']⟩
      · have hf' : (ofUsers s).flag slot = true := hf
        exact ⟨by rw [ofUsers_goto]; rfl, _, rfl, .inr (.inl ⟨tmp, slot, .inr (by simp [access, hf])⟩),
          by simp [Lock.Phase.afterLock, access, pending, shows, hpc, drawn, hf, hf']⟩
    · exact ⟨by rw [ofUsers_goto]; rfl, _, rfl, .inr (.inr ⟨_, rfl⟩),
        by simp [Lock.Phase.afterLock, access, pending, shows, hpc, drawn]⟩
    · exact ⟨by rw [ofUsers_goto]; rfl, _, rfl, trivial,
        by simp [Lock.Phase.afterLock, pending, shows, hpc, drawn]⟩
  | unlocking p =>
    have hpc : (ofUsers s).pc t = p := by simp only [ofUsers, hp, standing]
    simp only [Lock.step, hp, lock, Option.map_some, Option.some.injEq] at hu
    rw [hp] at hproper
    obtain rfl | ⟨cur, rfl⟩ := hproper <;> subst hu <;> rw [hpc]
    · exact ⟨by rw [ofUsers_goto]; rfl, _, rfl, .inr ⟨_, rfl⟩,
        by simp [Lock.Phase.afterUnlock, access, pending, shows, hpc, drawn]⟩
    · exact ⟨by rw [ofUsers_goto]; rfl, _, rfl, trivial,
        by simp [Lock.Phase.afterUnlock, pending, shows, hpc, drawn]⟩

end Users

section Reached
variable [Fintype T] {size max : ℕ} {s u : Lock.Users T Shared Pc} {t : T}

/-- The users follow a run of the array lock, with a draw for each call of `lock` that has one. -/
theorem run_of_users {h : List T} (hr : Run (Lock.users T (lock size)) Free (Lock.start T Pc new) h s) :
    (∀ t, Proper (s.phase t)) ∧ ∃ k, Run (program size) Free (initial : State T) k (ofUsers s) ∧
      (drawn k).length + ∑ t, pending (s.phase t) = h.length := by
  refine hr.invariant (I := fun (h : List T) (s : Lock.Users T Shared Pc) => (∀ t, Proper (s.phase t)) ∧
    ∃ k, Run (program size) Free (initial : State T) k (ofUsers s) ∧
      (drawn k).length + ∑ t, pending (s.phase t) = h.length)
    ?_ ?_
  · refine ⟨fun t => ?_, [], .refl, by simp [Lock.start, pending, drawn]⟩
    trivial
  rintro h x a y ⟨hproper, k, hk, hlen⟩ - hy
  have hgoto : ∀ t p, Proper p → ∀ v, Proper ((x.goto x.shared t p).phase v) := by
    intro t p hp v
    by_cases hv : v = t
    · rwa [hv, Lock.Users.goto_self]
    · rw [Lock.Users.goto_of_ne _ _ hv]
      exact hproper v
  cases a with
  | lock t =>
    cases hp : x.phase t <;> simp only [Lock.users, Lock.step, hp, Option.some.injEq, reduceCtorEq] at hy
    subst hy
    refine ⟨hgoto t _ (.inl rfl), k, by rwa [ofUsers_call (by rw [hp]; rfl)], ?_⟩
    have hsum : ∑ v, pending ((x.goto x.shared t (.locking (lock size).lock)).phase v) =
        ∑ v, pending (x.phase v) + 1 :=
      sum_add_at t (by rw [Lock.Users.goto_self, hp]; rfl) fun v hv => by rw [Lock.Users.goto_of_ne _ _ hv]
    simp only [Lock.users, List.length_append, List.length_singleton]
    omega
  | unlock t =>
    cases hp : x.phase t <;> simp only [Lock.users, Lock.step, hp, Option.some.injEq, reduceCtorEq] at hy
    subst hy
    refine ⟨hgoto t _ (.inl rfl), k, by rwa [ofUsers_call (by rw [hp]; rfl)], ?_⟩
    have hsum : ∑ v, pending ((x.goto x.shared t (.unlocking (lock size).unlock)).phase v) =
        ∑ v, pending (x.phase v) + 0 :=
      sum_add_at t (by rw [Lock.Users.goto_self, hp]; rfl) fun v hv => by rw [Lock.Users.goto_of_ne _ _ hv]
    simp only [Lock.users, List.length_append, List.length_nil]
    omega
  | access t =>
    obtain ⟨hstep, p, hphase, hp, hpend⟩ := ofUsers_access (hproper t) hy
    refine ⟨fun v => ?_, k ++ shows (ofUsers x) t, hk.tail (P := program size) trivial hstep, ?_⟩
    · rw [hphase, Function.update_apply]
      split
      · exact hp
      · exact hproper v
    · have hsum : ∑ v, pending (x.phase v) = ∑ v, pending (y.phase v) + (drawn (shows (ofUsers x) t)).length :=
        sum_add_at t (by rw [hphase, Function.update_self, hpend]) fun v hv => by
          rw [hphase, Function.update_of_ne hv]
      simp only [Lock.users, drawn_append, List.length_append, List.length_nil]
      omega

theorem inv_of_reached (hpos : 0 < size) (hsize : size < 2 ^ 32) (hT : Fintype.card T ≤ size)
    (hmax : max < 2 ^ 64) (hs : Lock.Reached (lock size) new max s) :
    (∀ t, Proper (s.phase t)) ∧ ∃ D E, Inv size D E (ofUsers s) := by
  obtain ⟨h, hr, hlen⟩ := hs
  obtain ⟨hproper, k, hk, hdrawn⟩ := run_of_users hr
  exact ⟨hproper, _, _, (served_of_run hsize hpos hT hk (by omega)).inv⟩

theorem lock_excludes (hpos : 0 < size) (hsize : size < 2 ^ 32) (hT : Fintype.card T ≤ size)
    (hmax : max < 2 ^ 64) : Lock.Excludes T (lock size) new max := by
  intro s hs t u ht hu
  obtain ⟨-, D, E, hi⟩ := inv_of_reached hpos hsize hT hmax hs
  have hin : ∀ v, s.phase v = .inside → ((ofUsers s).pc v).Passing := fun v hv => by
    simp only [ofUsers, hv, standing]
    trivial
  exact hi.exclusive t u (hin t ht) (hin u hu)

/-- How far a call is from its end, beside the wait for its turn. -/
def weight : Lock.Phase Pc → ℕ
  | .outside | .inside => 0
  | .locking p | .unlocking p => match p with
    | .idle => 6
    | .spinning _ _ => 5
    | .clearing _ _ => 4
    | .marking _ => 3
    | .inside => 2
    | .unlocking _ => 1

/-- Whose turn it is, or who has yet to draw its ticket. -/
def Turn (s : Lock.Users T Shared Pc) (t : T) : Prop :=
  s.phase t ≠ .outside ∧ (Due (ofUsers s) t ∨ s.phase t = .locking .idle)

omit [Fintype T] in
/-- An access ends its call, brings it nearer, or is a look at a flag that is down. -/
theorem access_cases (hproper : Proper (s.phase t)) (hu : Lock.step (lock size) s (.access t) = some u) :
    u.phase t = .inside ∨ u.phase t = .outside ∨
      (∃ p, u.phase = Function.update s.phase t p ∧ weight p + 1 = weight (s.phase t)) ∨
      (u = s ∧ ∃ tmp slot, s.phase t = .locking (.spinning tmp slot) ∧ s.shared.flag slot = false) := by
  cases hp : s.phase t with
  | outside | inside => simp only [Lock.step, hp, reduceCtorEq] at hu
  | locking p =>
    simp only [Lock.step, hp, lock, Option.map_some, Option.some.injEq] at hu
    rw [hp] at hproper
    obtain rfl | ⟨tmp, slot, rfl | rfl⟩ | ⟨slot, rfl⟩ := hproper <;> subst hu
    · exact .inr (.inr (.inl ⟨_, rfl, rfl⟩))
    · cases hf : s.shared.flag slot with
      | true => exact .inr (.inr (.inl ⟨_, rfl, by simp [Lock.Phase.afterLock, access, hf, weight]⟩))
      | false =>
        refine .inr (.inr (.inr ⟨?_, tmp, slot, rfl, hf⟩))
        have hsame : Function.update s.phase t (.locking (.spinning tmp slot)) = s.phase := by
          rw [← hp, Function.update_eq_self]
        simp [Lock.Users.goto, Lock.Phase.afterLock, access, hf, hsame]
    · exact .inr (.inr (.inl ⟨_, rfl, rfl⟩))
    · exact .inl (Lock.Users.goto_self ..)
  | unlocking p =>
    simp only [Lock.step, hp, lock, Option.map_some, Option.some.injEq] at hu
    rw [hp] at hproper
    obtain rfl | ⟨cur, rfl⟩ := hproper <;> subst hu
    · exact .inr (.inr (.inl ⟨_, rfl, rfl⟩))
    · exact .inr (.inl (Lock.Users.goto_self ..))

theorem lock_serves (hpos : 0 < size) (hsize : size < 2 ^ 32) (hT : Fintype.card T ≤ size)
    (hmax : max < 2 ^ 64) : Lock.Serves (T := T) (lock size) new max (fun s => ∑ t, weight (s.phase t))
      Turn where
  exists_due s hs := by
    rintro ⟨t, ht⟩
    obtain ⟨hproper, D, E, hi⟩ := inv_of_reached hpos hsize hT hmax hs
    by_cases hidle : s.phase t = .locking .idle
    · exact ⟨t, ht, .inr hidle⟩
    have hturn : ∃ v, Due (ofUsers s) v := by
      by_cases hpass : ((ofUsers s).pc t).Passing
      · exact ⟨t, .inl hpass⟩
      · have hwait : ∃ tmp slot, (ofUsers s).pc t = .spinning tmp slot := by
          have := hproper t
          simp only [ofUsers] at hpass ⊢
          cases hp : s.phase t with
          | outside => exact absurd hp ht
          | inside => rw [hp] at hpass; exact absurd trivial hpass
          | locking p =>
            rw [hp] at hpass this
            obtain rfl | ⟨tmp, slot, rfl | rfl⟩ | ⟨slot, rfl⟩ := this
            · exact absurd hp hidle
            · exact ⟨tmp, slot, rfl⟩
            · exact absurd trivial hpass
            · exact absurd trivial hpass
          | unlocking p =>
            rw [hp] at hpass this
            obtain rfl | ⟨cur, rfl⟩ := this <;> exact absurd trivial hpass
        obtain ⟨tmp, slot, hp⟩ := hwait
        obtain ⟨-, hE, hD⟩ := hi.spin t tmp slot hp
        exact hi.exists_due hpos (hE.trans_lt hD)
    refine hturn.imp fun v hv => ⟨fun hout => hv.ne_idle ?_, .inl hv⟩
    simp only [ofUsers, hout, standing]
  busy _ _ _ ht := ht.1
  enabled _ _ _ _ _ _ := nofun
  nearer s t u hs hu := by
    obtain ⟨hproper, -⟩ := inv_of_reached hpos hsize hT hmax hs
    rcases access_cases (hproper t) hu with h | h | ⟨p, hphase, hlt⟩ | ⟨rfl, tmp, slot, hp, hf⟩
    · exact .inl h
    · exact .inr (.inl h)
    · refine .inr (.inr (.inl ?_))
      have hless : weight (u.phase t) < weight (s.phase t) := by
        rw [hphase, Function.update_self]
        omega
      refine Finset.sum_lt_sum (fun v _ => ?_) ⟨t, Finset.mem_univ t, hless⟩
      by_cases hv : v = t
      · rw [hv]
        exact hless.le
      · rw [hphase, Function.update_of_ne hv]
    · refine .inr (.inr (.inr ⟨rfl, fun v hv => ⟨?_, hv⟩⟩))
      rintro rfl
      have hpc : (ofUsers u).pc v = .spinning tmp slot := by simp only [ofUsers, hp, standing]
      rcases hv.2 with (hpass | ⟨-, tmp', slot', hpc', hflag⟩) | hidle
      · rw [hpc] at hpass
        exact hpass
      · rw [hpc] at hpc'
        cases hpc'
        have hdown : (ofUsers u).flag slot = false := hf
        rw [hdown] at hflag
        cases hflag
      · rw [hp] at hidle
        cases hidle

end Reached

end ALock

/-! ### The test -/

/-- The interface `LOCK`: the code of the two calls and the object that the constructor leaves. -/
structure LOCK where
  Shared : Type
  Local : Type
  code : Lock Shared Local
  object : Shared

section Test
variable (AO_TS_SET AO_TS_CLEAR : UInt8)

/-- A lock of the test-and-set family over memory in which the state byte was `memory`. -/
def TestAndSet.Kind.create (kind : TestAndSet.Kind) (memory : UInt8) : LOCK :=
  ⟨UInt8, TestAndSet.Call kind.Local, (kind.lock AO_TS_SET).toLock AO_TS_SET AO_TS_CLEAR,
    TestAndSet.createLock AO_TS_CLEAR kind memory⟩

def createLock (carg : CommonArgs) (memory : UInt8) : LOCK :=
  match carg.locktype with
  | .TEST_TASLOCK => TestAndSet.Kind.TASLock.create AO_TS_SET AO_TS_CLEAR memory
  | .TEST_TTASLOCK => TestAndSet.Kind.TTASLock.create AO_TS_SET AO_TS_CLEAR memory
  | .TEST_BACKOFF =>
    (TestAndSet.Kind.BackoffLock carg.minDelay carg.maxDelay).create AO_TS_SET AO_TS_CLEAR memory
  | .TEST_ALOCK => ⟨ALock.Shared, ALock.Pc, ALock.lock carg.numThreads.toNat, ALock.new⟩
  | .TEST_PTHREAD => ⟨Bool, PThreadLock.Call, PThreadLock.lock, PThreadLock.new⟩

variable {AO_TS_SET AO_TS_CLEAR}

theorem TestAndSet.Kind.create_serves (hne : AO_TS_SET ≠ AO_TS_CLEAR) (kind : TestAndSet.Kind) {memory : UInt8}
    (hfree : TestAndSet.createLock AO_TS_CLEAR kind memory ≠ AO_TS_SET) (n max : ℕ) :
    Lock.Excludes (Fin n) (kind.create AO_TS_SET AO_TS_CLEAR memory).code
      (kind.create AO_TS_SET AO_TS_CLEAR memory).object max ∧
    Lock.Live (Fin n) (kind.create AO_TS_SET AO_TS_CLEAR memory).code
      (kind.create AO_TS_SET AO_TS_CLEAR memory).object max :=
  ⟨(kind.toLock_word hne).excludes _ max, (kind.toLock_word hne).live hfree max kind.ready⟩

/-- Every lock of `create_lock` that is not born held excludes its threads and serves them. -/
theorem createLock_serves (hne : AO_TS_SET ≠ AO_TS_CLEAR) (carg : CommonArgs) {memory : UInt8}
    (hthreads : carg.locktype = .TEST_ALOCK → 0 < carg.numThreads.toNat)
    (hfree : carg.locktype = .TEST_BACKOFF → memory ≠ AO_TS_SET) {max : ℕ}
    (hmax : carg.locktype = .TEST_ALOCK → max < 2 ^ 64) :
    Lock.Excludes (Fin carg.numThreads.toNat) (createLock AO_TS_SET AO_TS_CLEAR carg memory).code
      (createLock AO_TS_SET AO_TS_CLEAR carg memory).object max ∧
    Lock.Live (Fin carg.numThreads.toNat) (createLock AO_TS_SET AO_TS_CLEAR carg memory).code
      (createLock AO_TS_SET AO_TS_CLEAR carg memory).object max := by
  have hclear : AO_TS_CLEAR ≠ AO_TS_SET := hne.symm
  unfold createLock
  cases htype : carg.locktype with
  | TEST_TASLOCK => exact TestAndSet.Kind.create_serves hne .TASLock hclear _ max
  | TEST_TTASLOCK => exact TestAndSet.Kind.create_serves hne .TTASLock hclear _ max
  | TEST_BACKOFF => exact TestAndSet.Kind.create_serves hne (.BackoffLock _ _) (hfree htype) _ max
  | TEST_ALOCK =>
    have hcard : Fintype.card (Fin carg.numThreads.toNat) ≤ carg.numThreads.toNat :=
      (Fintype.card_fin _).le
    have hsize : carg.numThreads.toNat < 2 ^ 32 := carg.numThreads.toNat_lt
    exact ⟨ALock.lock_excludes (hthreads htype) hsize hcard (hmax htype),
      _, _, ALock.lock_serves (hthreads htype) hsize hcard (hmax htype)⟩
  | TEST_PTHREAD =>
    exact ⟨PThreadLock.lock_word.excludes _ max, PThreadLock.lock_word.live rfl max PThreadLock.lock_ready⟩

/-- simple_test ends with every increment counted: for each lock that `create_lock` makes, any
number of threads and any fair schedule, all threads make their 10000 rounds and the counter is
10000 for each of them. A `BackoffLock` must not be born held, and an `ALock` must have a slot. -/
theorem simple_test_counts (hne : AO_TS_SET ≠ AO_TS_CLEAR) (carg : CommonArgs) (memory : UInt8)
    (hthreads : carg.locktype = .TEST_ALOCK → 0 < carg.numThreads.toNat)
    (hfree : carg.locktype = .TEST_BACKOFF → memory ≠ AO_TS_SET)
    {f : ℕ → Worker.State (Fin carg.numThreads.toNat) (createLock AO_TS_SET AO_TS_CLEAR carg memory).Shared
      (createLock AO_TS_SET AO_TS_CLEAR carg memory).Local} {act : ℕ → Option (Fin carg.numThreads.toNat)}
    (he : Execution (Worker.program _ (createLock AO_TS_SET AO_TS_CLEAR carg memory).code 64 10000) Free f act)
    (h0 : f 0 = Worker.initial _ _ (createLock AO_TS_SET AO_TS_CLEAR carg memory).object)
    (hfair : Fair (Worker.program _ (createLock AO_TS_SET AO_TS_CLEAR carg memory).code 64 10000) f act) :
    ∃ m, Worker.Done 10000 (f m) ∧ (f m).counter = carg.numThreads.toNat * 10000 := by
  have hlt : carg.numThreads.toNat < 2 ^ 32 := carg.numThreads.toNat_lt
  have hmax : Fintype.card (Fin carg.numThreads.toNat) * 10000 < 2 ^ 64 := by
    rw [Fintype.card_fin]
    omega
  obtain ⟨hex, hlive⟩ := createLock_serves hne carg hthreads hfree fun _ => hmax
  obtain ⟨m, hdone, hcounter⟩ := Worker.ends hex hlive he h0 hfair
  exact ⟨m, hdone, by rw [hcounter, Nat.mod_eq_of_lt hmax, Fintype.card_fin]⟩

end Test

/-- Three threads at the array lock, taking turns. -/
theorem simple_test_counts_alock : ∃ (f : ℕ → Worker.State (Fin 3) ALock.Shared ALock.Pc)
    (act : ℕ → Option (Fin 3)), Execution (Worker.program (Fin 3) (ALock.lock 3) 64 10000) Free f act ∧
      f 0 = Worker.initial (Fin 3) ALock.Pc ALock.new ∧
      ∃ m, Worker.Done 10000 (f m) ∧ (f m).counter = 30000 := by
  obtain ⟨f, act, he, h0, hfair⟩ := exists_fair (Worker.program (Fin 3) (ALock.lock 3) 64 10000)
    (Worker.initial (Fin 3) ALock.Pc ALock.new) fun n t => exists_turn (n := n) (by decide : 0 < 3) t
  exact ⟨f, act, he, h0, simple_test_counts (by decide : (1 : UInt8) ≠ 0)
    ⟨.TEST_ALOCK, 1, 128, 3, 1⟩ 0 (fun _ => by decide) nofun he h0 hfair⟩

end Multicore.Locks
