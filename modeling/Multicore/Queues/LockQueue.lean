import Multicore.Queues.Fifo

/-! The locking queue of one producer and one consumer. Both calls test their
condition once, wait on the one condition variable if they must, and go on
without testing again; the signal is sent before the counter moves. A wake-up
needs no signal, so a thread may go on although its condition still fails, and
the ring is then overrun. The queue is a bounded first-in first-out one in every
run in which no wait returns too early, and signalled wake-ups never do. -/

namespace Multicore.Queues.LockQueue

open Runs

variable {α : Type*}

inductive Role
  | producer | consumer
  deriving DecidableEq

/-- The producer in its call number `i`. It blocks at `waiting`; at `woken` it has
been woken and needs the mutex before `pthread_cond_wait` returns. -/
inductive ProducerPc
  | idle (i : ℕ) | locking (i : ℕ) | test (i : ℕ) | wait (i : ℕ) | waiting (i : ℕ) | woken (i : ℕ)
  | signal (i : ℕ) | store (i : ℕ) | incr (i : ℕ) | unlock (i : ℕ)
  deriving DecidableEq

/-- The consumer in its call number `j`. -/
inductive ConsumerPc (α : Type*)
  | idle (j : ℕ) | locking (j : ℕ) | test (j : ℕ) | wait (j : ℕ) | waiting (j : ℕ) | woken (j : ℕ)
  | signal (j : ℕ) | load (j : ℕ) | incr (j : ℕ) (x : α) | unlock (j : ℕ) (x : α)
  deriving DecidableEq

structure State (α : Type*) where
  q : Queue α
  mutex : Option Role
  prod : ProducerPc
  cons : ConsumerPc α

/-- A thread goes on, or is woken from its wait without a signal. -/
inductive Action
  | run (r : Role) | spurious (r : Role)
  deriving DecidableEq

/-- `pthread_cond_signal` by the producer: the consumer is woken if it waits. -/
def ConsumerPc.wake : ConsumerPc α → ConsumerPc α
  | .waiting j => .woken j
  | pc => pc

def ProducerPc.wake : ProducerPc → ProducerPc
  | .waiting i => .woken i
  | pc => pc

/-- One action of the producer in `enqueue(item i)`, for `i < n`. -/
def enqueue (capacity n : ℕ) (item : ℕ → α) (s : State α) : Option (State α) :=
  match s.prod with
  | .idle i => if i < n then some { s with prod := .locking i } else none
  | .locking i => match s.mutex with
    | none => some { s with mutex := some .producer, prod := .test i }
    | some _ => none
  | .test i => some { s with
      prod := if isFull capacity s.q.tail_ s.q.head_ then .wait i else .signal i }
  | .wait i => some { s with mutex := none, prod := .waiting i }
  | .waiting _ => none
  | .woken i => match s.mutex with
    | none => some { s with mutex := some .producer, prod := .signal i }
    | some _ => none
  | .signal i => some { s with
      cons := if s.q.tail_ = s.q.head_ then s.cons.wake else s.cons
      prod := .store i }
  | .store i => some { s with
      q := { s.q with items := Function.update s.q.items (s.q.tail_ % capacity) (item i) }
      prod := .incr i }
  | .incr i => some { s with q := { s.q with tail_ := s.q.tail_ + 1 }, prod := .unlock i }
  | .unlock i => some { s with mutex := none, prod := .idle (i + 1) }

/-- One action of the consumer in `dequeue()`. -/
def dequeue (capacity n : ℕ) (s : State α) : Option (State α) :=
  match s.cons with
  | .idle j => if j < n then some { s with cons := .locking j } else none
  | .locking j => match s.mutex with
    | none => some { s with mutex := some .consumer, cons := .test j }
    | some _ => none
  | .test j => some { s with cons := if s.q.tail_ = s.q.head_ then .wait j else .signal j }
  | .wait j => some { s with mutex := none, cons := .waiting j }
  | .waiting _ => none
  | .woken j => match s.mutex with
    | none => some { s with mutex := some .consumer, cons := .signal j }
    | some _ => none
  | .signal j => some { s with
      prod := if isFull capacity s.q.tail_ s.q.head_ then s.prod.wake else s.prod
      cons := .load j }
  | .load j => some { s with cons := .incr j (s.q.items (s.q.head_ % capacity)) }
  | .incr j x => some { s with q := { s.q with head_ := s.q.head_ + 1 }, cons := .unlock j x }
  | .unlock j _ => some { s with mutex := none, cons := .idle (j + 1) }

def step (capacity n : ℕ) (item : ℕ → α) (s : State α) : Action → Option (State α)
  | .run .producer => enqueue capacity n item s
  | .run .consumer => dequeue capacity n s
  | .spurious .producer => match s.prod with
    | .waiting i => some { s with prod := .woken i }
    | _ => none
  | .spurious .consumer => match s.cons with
    | .waiting j => some { s with cons := .woken j }
    | _ => none

/-- A call shows its item when it moves its counter. -/
def shows (item : ℕ → α) (s : State α) : Action → List (Event α)
  | .run .producer => match s.prod with
    | .incr i => [.enqueue (item i)]
    | _ => []
  | .run .consumer => match s.cons with
    | .incr _ x => [.dequeue x]
    | _ => []
  | .spurious _ => []

def program (capacity n : ℕ) (item : ℕ → α) : Program (State α) Action (Event α) where
  step := step capacity n item
  shows := shows item

def initial (items : ℕ → α) : State α := ⟨⟨0, 0, items⟩, none, .idle 0, .idle 0⟩

/-- Blocked no more, but `pthread_cond_wait` has yet to return. -/
def ProducerPc.isWoken : ProducerPc → Bool
  | .woken _ => true
  | _ => false

def ConsumerPc.isWoken : ConsumerPc α → Bool
  | .woken _ => true
  | _ => false

/-- No wait returns while what it waited for still fails: a woken producer gets
the mutex only when the queue is not full, a woken consumer when it is not empty. -/
def Due (capacity : ℕ) : Guard (State α) Action
  | s, .run .producer => s.prod.isWoken = true → s.q.tail_ ≠ s.q.head_ + capacity
  | s, .run .consumer => s.cons.isWoken = true → s.q.tail_ ≠ s.q.head_
  | _, .spurious _ => True

instance (capacity : ℕ) : ∀ (s : State α) (a : Action), Decidable (Due capacity s a)
  | s, .run .producer => inferInstanceAs (Decidable (s.prod.isWoken = true → _))
  | s, .run .consumer => inferInstanceAs (Decidable (s.cons.isWoken = true → _))
  | _, .spurious _ => inferInstanceAs (Decidable True)

/-- No wait returns without a signal. -/
def Signalled : Guard (State α) Action
  | _, .run _ => True
  | _, .spurious _ => False

/-! ### The invariant -/

/-- The producer holds the mutex. -/
def ProducerPc.Holds : ProducerPc → Prop
  | .idle _ | .locking _ | .waiting _ | .woken _ => False
  | _ => True

def ConsumerPc.Holds : ConsumerPc α → Prop
  | .idle _ | .locking _ | .waiting _ | .woken _ => False
  | _ => True

/-- What the producer knows at its place. -/
def ProducerAt (capacity n : ℕ) (item : ℕ → α) (q : Queue α) : ProducerPc → Prop
  | .idle i => q.tail_ = i ∧ i ≤ n
  | .locking i | .test i | .wait i | .waiting i | .woken i => q.tail_ = i ∧ i < n
  | .signal i | .store i => q.tail_ = i ∧ i < n ∧ q.tail_ < q.head_ + capacity
  | .incr i => q.tail_ = i ∧ i < n ∧ q.tail_ < q.head_ + capacity ∧
      q.items (q.tail_ % capacity) = item i
  | .unlock i => q.tail_ = i + 1 ∧ i < n

/-- What the consumer knows at its place. -/
def ConsumerAt (n : ℕ) (item : ℕ → α) (q : Queue α) : ConsumerPc α → Prop
  | .idle j => q.head_ = j ∧ j ≤ n
  | .locking j | .test j | .wait j | .waiting j | .woken j => q.head_ = j ∧ j < n
  | .signal j | .load j => q.head_ = j ∧ j < n ∧ q.head_ < q.tail_
  | .incr j x => q.head_ = j ∧ j < n ∧ q.head_ < q.tail_ ∧ x = item j
  | .unlock j _ => q.head_ = j + 1 ∧ j < n

structure Inv (capacity n : ℕ) (item : ℕ → α) (s : State α) : Prop where
  prod_mutex : s.prod.Holds → s.mutex = some .producer
  cons_mutex : s.cons.Holds → s.mutex = some .consumer
  le : s.q.head_ ≤ s.q.tail_
  room : s.q.tail_ ≤ s.q.head_ + capacity
  window : Window capacity item s.q.items s.q.head_ s.q.tail_
  prod : ProducerAt capacity n item s.q s.prod
  cons : ConsumerAt n item s.q s.cons

variable {capacity n : ℕ} {item : ℕ → α}

theorem ConsumerAt.mono {q q' : Queue α} {pc : ConsumerPc α} (hc : ConsumerAt n item q pc)
    (hh : q'.head_ = q.head_) (ht : q.tail_ ≤ q'.tail_) : ConsumerAt n item q' pc := by
  cases pc <;> simp only [ConsumerAt, hh] at hc ⊢ <;> grind

theorem ProducerAt.mono {q q' : Queue α} {pc : ProducerPc} (hp : ProducerAt capacity n item q pc)
    (hh : q.head_ ≤ q'.head_) (ht : q'.tail_ = q.tail_) (hi : q'.items = q.items) :
    ProducerAt capacity n item q' pc := by
  cases pc <;> simp only [ProducerAt, ht, hi] at hp ⊢ <;> grind

theorem ConsumerAt.wake {q : Queue α} {pc : ConsumerPc α} (hc : ConsumerAt n item q pc) :
    ConsumerAt n item q pc.wake := by
  cases pc <;> exact hc

theorem ProducerAt.wake {q : Queue α} {pc : ProducerPc} (hp : ProducerAt capacity n item q pc) :
    ProducerAt capacity n item q pc.wake := by
  cases pc <;> exact hp

@[simp] theorem consumer_wake_holds (pc : ConsumerPc α) : pc.wake.Holds ↔ pc.Holds := by
  cases pc <;> exact Iff.rfl

@[simp] theorem producer_wake_holds (pc : ProducerPc) : pc.wake.Holds ↔ pc.Holds := by
  cases pc <;> exact Iff.rfl

/-- Who holds the mutex excludes the other. -/
theorem Inv.cons_free {s : State α} (hi : Inv capacity n item s) (hm : s.mutex ≠ some .consumer) :
    ¬ s.cons.Holds := fun h => hm (hi.cons_mutex h)

theorem Inv.prod_free {s : State α} (hi : Inv capacity n item s) (hm : s.mutex ≠ some .producer) :
    ¬ s.prod.Holds := fun h => hm (hi.prod_mutex h)

/-- One action of the producer whose wait, if it returns now, returns in due time. -/
theorem Inv.enqueue {s s' : State α} {h : List (Event α)} (hi : Inv capacity n item s)
    (hf : Refines capacity item h s.q.head_ s.q.tail_) (hdue : Due capacity s (.run .producer))
    (ha : enqueue capacity n item s = some s') :
    Inv capacity n item s' ∧
      Refines capacity item (h ++ shows item s (.run .producer)) s'.q.head_ s'.q.tail_ := by
  have hcf := hi.cons_free
  obtain ⟨hpm, hcm, hle, hroom, hwin, hprod, hcons⟩ := hi
  cases hp : s.prod with
  | idle i =>
    rw [hp] at hprod
    simp only [LockQueue.enqueue, hp, Option.ite_none_right_eq_some, Option.some.injEq] at ha
    obtain ⟨hlt, rfl⟩ := ha
    exact ⟨⟨nofun, hcm, hle, hroom, hwin, ⟨hprod.1, hlt⟩, hcons⟩, by simpa [shows, hp] using hf⟩
  | locking i =>
    rw [hp] at hprod
    cases hm : s.mutex with
    | some r => simp only [LockQueue.enqueue, hp, hm, reduceCtorEq] at ha
    | none =>
      simp only [LockQueue.enqueue, hp, hm, Option.some.injEq] at ha
      subst ha
      exact ⟨⟨fun _ => rfl, fun hc => absurd hc (hcf (by rw [hm]; nofun)), hle, hroom, hwin, hprod,
        hcons⟩, by simpa [shows, hp] using hf⟩
  | test i =>
    rw [hp] at hprod hpm
    simp only [LockQueue.enqueue, hp, Option.some.injEq] at ha
    subst ha
    refine ⟨⟨fun _ => hpm trivial, hcm, hle, hroom, hwin, ?_, hcons⟩, by simpa [shows, hp] using hf⟩
    simp only
    split
    · exact hprod
    · rename_i hfull
      rw [isFull_iff] at hfull
      exact ⟨hprod.1, hprod.2, by omega⟩
  | wait i =>
    rw [hp] at hprod hpm
    simp only [LockQueue.enqueue, hp, Option.some.injEq] at ha
    subst ha
    exact ⟨⟨nofun, fun hc => absurd hc (hcf (by rw [hpm trivial]; nofun)), hle, hroom, hwin, hprod,
      hcons⟩, by simpa [shows, hp] using hf⟩
  | waiting i => simp only [LockQueue.enqueue, hp, reduceCtorEq] at ha
  | woken i =>
    rw [hp] at hprod
    cases hm : s.mutex with
    | some r => simp only [LockQueue.enqueue, hp, hm, reduceCtorEq] at ha
    | none =>
      simp only [LockQueue.enqueue, hp, hm, Option.some.injEq] at ha
      subst ha
      have hne := hdue (by rw [hp]; rfl)
      exact ⟨⟨fun _ => rfl, fun hc => absurd hc (hcf (by rw [hm]; nofun)), hle, hroom, hwin,
        ⟨hprod.1, hprod.2, Nat.lt_of_le_of_ne hroom hne⟩, hcons⟩, by simpa [shows, hp] using hf⟩
  | signal i =>
    rw [hp] at hprod hpm
    simp only [LockQueue.enqueue, hp, Option.some.injEq] at ha
    subst ha
    refine ⟨⟨fun _ => hpm trivial, ?_, hle, hroom, hwin, hprod, ?_⟩, by simpa [shows, hp] using hf⟩
    · simp only
      split
      · rw [consumer_wake_holds]; exact hcm
      · exact hcm
    · simp only
      split
      · exact hcons.wake
      · exact hcons
  | store i =>
    rw [hp] at hprod hpm
    obtain ⟨h1, h2, h3⟩ := hprod
    simp only [LockQueue.enqueue, hp, Option.some.injEq] at ha
    subst ha
    exact ⟨⟨fun _ => hpm trivial, hcm, hle, hroom, hwin.write h3 _,
      ⟨h1, h2, h3, Function.update_self ..⟩, hcons.mono rfl le_rfl⟩, by simpa [shows, hp] using hf⟩
  | incr i =>
    rw [hp] at hprod hpm
    obtain ⟨rfl, h2, h3, h4⟩ := hprod
    simp only [LockQueue.enqueue, hp, Option.some.injEq] at ha
    subst ha
    refine ⟨⟨fun _ => hpm trivial, hcm, by simp only; omega, by simp only; omega, hwin.extend h4,
      ⟨rfl, h2⟩, hcons.mono rfl (Nat.le_succ _)⟩, ?_⟩
    simpa only [shows, hp] using hf.enqueue hle h3
  | unlock i =>
    rw [hp] at hprod hpm
    simp only [LockQueue.enqueue, hp, Option.some.injEq] at ha
    subst ha
    exact ⟨⟨nofun, fun hc => absurd hc (hcf (by rw [hpm trivial]; nofun)), hle, hroom, hwin,
      ⟨hprod.1, hprod.2⟩, hcons⟩, by simpa [shows, hp] using hf⟩

/-- One action of the consumer whose wait, if it returns now, returns in due time. -/
theorem Inv.dequeue {s s' : State α} {h : List (Event α)} (hi : Inv capacity n item s)
    (hf : Refines capacity item h s.q.head_ s.q.tail_) (hdue : Due capacity s (.run .consumer))
    (ha : dequeue capacity n s = some s') :
    Inv capacity n item s' ∧
      Refines capacity item (h ++ shows item s (.run .consumer)) s'.q.head_ s'.q.tail_ := by
  have hpf := hi.prod_free
  obtain ⟨hpm, hcm, hle, hroom, hwin, hprod, hcons⟩ := hi
  cases hc : s.cons with
  | idle j =>
    rw [hc] at hcons
    simp only [LockQueue.dequeue, hc, Option.ite_none_right_eq_some, Option.some.injEq] at ha
    obtain ⟨hlt, rfl⟩ := ha
    exact ⟨⟨hpm, nofun, hle, hroom, hwin, hprod, ⟨hcons.1, hlt⟩⟩, by simpa [shows, hc] using hf⟩
  | locking j =>
    rw [hc] at hcons
    cases hm : s.mutex with
    | some r => simp only [LockQueue.dequeue, hc, hm, reduceCtorEq] at ha
    | none =>
      simp only [LockQueue.dequeue, hc, hm, Option.some.injEq] at ha
      subst ha
      exact ⟨⟨fun hp => absurd hp (hpf (by rw [hm]; nofun)), fun _ => rfl, hle, hroom, hwin, hprod,
        hcons⟩, by simpa [shows, hc] using hf⟩
  | test j =>
    rw [hc] at hcons hcm
    simp only [LockQueue.dequeue, hc, Option.some.injEq] at ha
    subst ha
    refine ⟨⟨hpm, fun _ => hcm trivial, hle, hroom, hwin, hprod, ?_⟩, by simpa [shows, hc] using hf⟩
    simp only
    split
    · exact hcons
    · exact ⟨hcons.1, hcons.2, by omega⟩
  | wait j =>
    rw [hc] at hcons hcm
    simp only [LockQueue.dequeue, hc, Option.some.injEq] at ha
    subst ha
    exact ⟨⟨fun hp => absurd hp (hpf (by rw [hcm trivial]; nofun)), nofun, hle, hroom, hwin, hprod,
      hcons⟩, by simpa [shows, hc] using hf⟩
  | waiting j => simp only [LockQueue.dequeue, hc, reduceCtorEq] at ha
  | woken j =>
    rw [hc] at hcons
    cases hm : s.mutex with
    | some r => simp only [LockQueue.dequeue, hc, hm, reduceCtorEq] at ha
    | none =>
      simp only [LockQueue.dequeue, hc, hm, Option.some.injEq] at ha
      subst ha
      have hne := hdue (by rw [hc]; rfl)
      exact ⟨⟨fun hp => absurd hp (hpf (by rw [hm]; nofun)), fun _ => rfl, hle, hroom, hwin, hprod,
        ⟨hcons.1, hcons.2, Nat.lt_of_le_of_ne hle hne.symm⟩⟩, by simpa [shows, hc] using hf⟩
  | signal j =>
    rw [hc] at hcons hcm
    simp only [LockQueue.dequeue, hc, Option.some.injEq] at ha
    subst ha
    refine ⟨⟨?_, fun _ => hcm trivial, hle, hroom, hwin, ?_, hcons⟩, by simpa [shows, hc] using hf⟩
    · simp only
      split
      · rw [producer_wake_holds]; exact hpm
      · exact hpm
    · simp only
      split
      · exact hprod.wake
      · exact hprod
  | load j =>
    rw [hc] at hcons hcm
    obtain ⟨rfl, h2, h3⟩ := hcons
    simp only [LockQueue.dequeue, hc, Option.some.injEq] at ha
    subst ha
    exact ⟨⟨hpm, fun _ => hcm trivial, hle, hroom, hwin, hprod, ⟨rfl, h2, h3, hwin _ le_rfl h3⟩⟩,
      by simpa [shows, hc] using hf⟩
  | incr j x =>
    rw [hc] at hcons hcm
    obtain ⟨rfl, h2, h3, rfl⟩ := hcons
    simp only [LockQueue.dequeue, hc, Option.some.injEq] at ha
    subst ha
    refine ⟨⟨hpm, fun _ => hcm trivial, by simp only; omega, by simp only; omega, hwin.advance,
      hprod.mono (Nat.le_succ _) rfl rfl, ⟨rfl, h2⟩⟩, ?_⟩
    simpa only [shows, hc] using hf.dequeue h3
  | unlock j x =>
    rw [hc] at hcons hcm
    simp only [LockQueue.dequeue, hc, Option.some.injEq] at ha
    subst ha
    exact ⟨⟨fun hp => absurd hp (hpf (by rw [hcm trivial]; nofun)), nofun, hle, hroom, hwin, hprod,
      ⟨hcons.1, hcons.2⟩⟩, by simpa [shows, hc] using hf⟩

/-- A spurious wake-up alone does no harm: the woken thread still needs the mutex. -/
theorem Inv.spurious {s s' : State α} {r : Role} (hi : Inv capacity n item s)
    (ha : step capacity n item s (.spurious r) = some s') :
    Inv capacity n item s' ∧ s'.q = s.q := by
  obtain ⟨hpm, hcm, hle, hroom, hwin, hprod, hcons⟩ := hi
  cases r with
  | producer =>
    cases hp : s.prod <;> simp only [step, hp, Option.some.injEq, reduceCtorEq] at ha
    subst ha
    rw [hp] at hprod
    exact ⟨⟨nofun, hcm, hle, hroom, hwin, hprod, hcons⟩, rfl⟩
  | consumer =>
    cases hc : s.cons <;> simp only [step, hc, Option.some.injEq, reduceCtorEq] at ha
    subst ha
    rw [hc] at hcons
    exact ⟨⟨hpm, nofun, hle, hroom, hwin, hprod, hcons⟩, rfl⟩

theorem Inv.initial (capacity n : ℕ) (item items : ℕ → α) :
    Inv capacity n item (initial items) :=
  ⟨nofun, nofun, le_rfl, Nat.zero_le _, window_empty _ _ _ _, ⟨rfl, Nat.zero_le _⟩,
    ⟨rfl, Nat.zero_le _⟩⟩

theorem Inv.step {s s' : State α} {h : List (Event α)} {a : Action} (hi : Inv capacity n item s)
    (hf : Refines capacity item h s.q.head_ s.q.tail_) (hdue : Due capacity s a)
    (ha : step capacity n item s a = some s') :
    Inv capacity n item s' ∧
      Refines capacity item (h ++ shows item s a) s'.q.head_ s'.q.tail_ := by
  cases a with
  | run r =>
    cases r with
    | producer => exact hi.enqueue hf hdue ha
    | consumer => exact hi.dequeue hf hdue ha
  | spurious r =>
    obtain ⟨hi', hq⟩ := hi.spurious ha
    exact ⟨hi', by rw [hq]; simpa [shows] using hf⟩

theorem inv_of_run {items : ℕ → α} {h : List (Event α)} {s : State α}
    (hr : Run (program capacity n item) (Due capacity) (initial items) h s) :
    Inv capacity n item s ∧ Refines capacity item h s.q.head_ s.q.tail_ :=
  hr.invariant
    (I := fun h s => Inv capacity n item s ∧ Refines capacity item h s.q.head_ s.q.tail_)
    ⟨Inv.initial capacity n item items, Refines.nil capacity item⟩
    (fun _ _ _ _ hi hdue ha => hi.1.step hi.2 hdue ha)

/-! ### Signalled wake-ups are due -/

/-- The producer has sent its signal, if any, and not yet moved its counter. -/
def ProducerPc.Putting : ProducerPc → Prop
  | .store _ | .incr _ => True
  | _ => False

def ConsumerPc.Taking : ConsumerPc α → Prop
  | .load _ | .incr _ _ => True
  | _ => False

theorem ConsumerPc.Taking.holds {pc : ConsumerPc α} (h : pc.Taking) : pc.Holds := by
  cases pc <;> trivial

theorem ProducerPc.Putting.holds {pc : ProducerPc} (h : pc.Putting) : pc.Holds := by
  cases pc <;> trivial

theorem ConsumerPc.wake_ne_waiting (pc : ConsumerPc α) (j : ℕ) : pc.wake ≠ .waiting j := by
  cases pc <;> nofun

theorem ProducerPc.wake_ne_waiting (pc : ProducerPc) (i : ℕ) : pc.wake ≠ .waiting i := by
  cases pc <;> nofun

/-- While all wake-ups are signalled, who waits has reason to, and who is woken
has none any more once the signaller has moved its counter. -/
structure Waits (capacity : ℕ) (s : State α) : Prop where
  full : ∀ i, s.prod = .wait i ∨ s.prod = .waiting i → s.q.tail_ = s.q.head_ + capacity
  empty : ∀ j, s.cons = .wait j ∨ s.cons = .waiting j → s.q.tail_ = s.q.head_
  room : ∀ i, s.prod = .woken i → s.q.tail_ = s.q.head_ + capacity → s.cons.Taking
  item : ∀ j, s.cons = .woken j → s.q.tail_ = s.q.head_ → s.prod.Putting
  taking : s.cons.Taking → ∀ i, s.prod ≠ .waiting i
  putting : s.prod.Putting → ∀ j, s.cons ≠ .waiting j

section Steps
variable {s s' : State α}

/-- The producer goes on where it need not wait. -/
theorem Waits.producer_goto (hw : Waits capacity s) {p : ProducerPc}
    (hwait : ∀ i, p ≠ .wait i ∧ p ≠ .waiting i ∧ p ≠ .woken i) (hput : p.Putting ↔ s.prod.Putting)
    (items : ℕ → α) (mutex : Option Role) :
    Waits capacity { s with q := { s.q with items := items }, mutex := mutex, prod := p } where
  full i h := h.elim (absurd · (hwait i).1) (absurd · (hwait i).2.1)
  empty := hw.empty
  room i h := absurd h (hwait i).2.2
  item j hj h := hput.mpr (hw.item j hj h)
  taking _ i := (hwait i).2.1
  putting h := hw.putting (hput.mp h)

theorem Waits.consumer_goto (hw : Waits capacity s) {c : ConsumerPc α}
    (hwait : ∀ j, c ≠ .wait j ∧ c ≠ .waiting j ∧ c ≠ .woken j) (htake : c.Taking ↔ s.cons.Taking)
    (mutex : Option Role) : Waits capacity { s with mutex := mutex, cons := c } where
  full := hw.full
  empty j h := h.elim (absurd · (hwait j).1) (absurd · (hwait j).2.1)
  room i hi h := htake.mpr (hw.room i hi h)
  item j h := absurd h (hwait j).2.2
  taking h := hw.taking (htake.mp h)
  putting _ j := (hwait j).2.1

/-- The producer goes to wait on the full queue. -/
theorem Waits.producer_blocks (hw : Waits capacity s) (hput : ¬ s.prod.Putting)
    (hfull : s.q.tail_ = s.q.head_ + capacity) {p : ProducerPc} (hp : ¬ p.Putting)
    (hwoken : ∀ i, p ≠ .woken i) (htake : s.cons.Taking → ∀ i, p ≠ .waiting i) (mutex : Option Role) :
    Waits capacity { s with mutex := mutex, prod := p } where
  full _ _ := hfull
  empty := hw.empty
  room i h := absurd h (hwoken i)
  item j hj h := absurd (hw.item j hj h) hput
  taking := htake
  putting h := absurd h hp

/-- The consumer goes to wait on the empty queue. -/
theorem Waits.consumer_blocks (hw : Waits capacity s) (htake : ¬ s.cons.Taking)
    (hempty : s.q.tail_ = s.q.head_) {c : ConsumerPc α} (hc : ¬ c.Taking) (hwoken : ∀ j, c ≠ .woken j)
    (hput : s.prod.Putting → ∀ j, c ≠ .waiting j) (mutex : Option Role) :
    Waits capacity { s with mutex := mutex, cons := c } where
  full := hw.full
  empty _ _ := hempty
  room i hi h := absurd (hw.room i hi h) htake
  item j h := absurd h (hwoken j)
  taking h := absurd h hc
  putting := hput

theorem Waits.enqueue (hw : Waits capacity s) (hi : Inv capacity n item s)
    (ha : enqueue capacity n item s = some s') : Waits capacity s' := by
  have hfree : s.prod.Holds → ¬ s.cons.Holds := fun hp => hi.cons_free (by rw [hi.prod_mutex hp]; nofun)
  cases hp : s.prod with
  | idle i =>
    simp only [LockQueue.enqueue, hp, Option.ite_none_right_eq_some, Option.some.injEq] at ha
    obtain ⟨-, rfl⟩ := ha
    exact hw.producer_goto (by simp) (by rw [hp]; rfl) s.q.items s.mutex
  | locking i | woken i =>
    cases hm : s.mutex with
    | some r => simp only [LockQueue.enqueue, hp, hm, reduceCtorEq] at ha
    | none =>
      simp only [LockQueue.enqueue, hp, hm, Option.some.injEq] at ha
      subst ha
      exact hw.producer_goto (by simp) (by rw [hp]; rfl) s.q.items (some .producer)
  | test i =>
    simp only [LockQueue.enqueue, hp, Option.some.injEq] at ha
    subst ha
    by_cases hfull : isFull capacity s.q.tail_ s.q.head_ = true
    · rw [if_pos hfull]
      exact hw.producer_blocks (p := .wait i) (by rw [hp]; exact id) (isFull_iff.mp hfull) id nofun
        (fun _ => nofun) s.mutex
    · rw [if_neg hfull]
      exact hw.producer_goto (by simp) (by rw [hp]; rfl) s.q.items s.mutex
  | wait i =>
    simp only [LockQueue.enqueue, hp, Option.some.injEq] at ha
    subst ha
    exact hw.producer_blocks (p := .waiting i) (by rw [hp]; exact id) (hw.full i (.inl hp)) id nofun
      (fun ht => absurd ht.holds (hfree (by rw [hp]; trivial))) none
  | waiting i => simp only [LockQueue.enqueue, hp, reduceCtorEq] at ha
  | signal i =>
    simp only [LockQueue.enqueue, hp, Option.some.injEq] at ha
    subst ha
    by_cases hempty : s.q.tail_ = s.q.head_
    · rw [if_pos hempty]
      exact ⟨nofun, fun _ _ => hempty, nofun, fun _ _ _ => trivial, fun _ => nofun,
        fun _ => s.cons.wake_ne_waiting⟩
    · rw [if_neg hempty]
      exact ⟨nofun, hw.empty, nofun, fun _ _ _ => trivial, fun _ => nofun,
        fun _ j hj => hempty (hw.empty j (.inr hj))⟩
  | store i =>
    simp only [LockQueue.enqueue, hp, Option.some.injEq] at ha
    subst ha
    exact hw.producer_goto (by simp) (by rw [hp]; rfl) _ s.mutex
  | incr i =>
    simp only [LockQueue.enqueue, hp, Option.some.injEq] at ha
    subst ha
    have hle := hi.le
    refine ⟨nofun, fun j hj => ?_, nofun, fun j _ h => ?_, fun _ => nofun, nofun⟩
    -- the consumer does not hold the mutex, and the signal has woken it
    · rcases hj with hj | hj
      · exact absurd (by rw [hj]; trivial) (hfree (by rw [hp]; trivial))
      · exact absurd hj (hw.putting (by rw [hp]; trivial) j)
    · simp only at h
      omega
  | unlock i =>
    simp only [LockQueue.enqueue, hp, Option.some.injEq] at ha
    subst ha
    exact hw.producer_goto (by simp) (by rw [hp]; rfl) s.q.items none

theorem Waits.dequeue (hw : Waits capacity s) (hi : Inv capacity n item s)
    (ha : dequeue capacity n s = some s') : Waits capacity s' := by
  have hfree : s.cons.Holds → ¬ s.prod.Holds := fun hc => hi.prod_free (by rw [hi.cons_mutex hc]; nofun)
  cases hc : s.cons with
  | idle j =>
    simp only [LockQueue.dequeue, hc, Option.ite_none_right_eq_some, Option.some.injEq] at ha
    obtain ⟨-, rfl⟩ := ha
    exact hw.consumer_goto (by simp) (by rw [hc]; rfl) s.mutex
  | locking j | woken j =>
    cases hm : s.mutex with
    | some r => simp only [LockQueue.dequeue, hc, hm, reduceCtorEq] at ha
    | none =>
      simp only [LockQueue.dequeue, hc, hm, Option.some.injEq] at ha
      subst ha
      exact hw.consumer_goto (by simp) (by rw [hc]; rfl) (some .consumer)
  | test j =>
    simp only [LockQueue.dequeue, hc, Option.some.injEq] at ha
    subst ha
    by_cases hempty : s.q.tail_ = s.q.head_
    · rw [if_pos hempty]
      exact hw.consumer_blocks (c := .wait j) (by rw [hc]; exact id) hempty id nofun
        (fun _ => nofun) s.mutex
    · rw [if_neg hempty]
      exact hw.consumer_goto (by simp) (by rw [hc]; rfl) s.mutex
  | wait j =>
    simp only [LockQueue.dequeue, hc, Option.some.injEq] at ha
    subst ha
    exact hw.consumer_blocks (c := .waiting j) (by rw [hc]; exact id) (hw.empty j (.inl hc)) id nofun
      (fun hp => absurd hp.holds (hfree (by rw [hc]; trivial))) none
  | waiting j => simp only [LockQueue.dequeue, hc, reduceCtorEq] at ha
  | signal j =>
    simp only [LockQueue.dequeue, hc, Option.some.injEq] at ha
    subst ha
    by_cases hfull : isFull capacity s.q.tail_ s.q.head_ = true
    · rw [if_pos hfull]
      exact ⟨fun _ _ => isFull_iff.mp hfull, nofun, fun _ _ _ => trivial, nofun,
        fun _ => s.prod.wake_ne_waiting, fun _ => nofun⟩
    · rw [if_neg hfull]
      exact ⟨hw.full, nofun, fun _ _ _ => trivial, nofun,
        fun _ i hi => hfull (isFull_iff.mpr (hw.full i (.inr hi))), fun _ => nofun⟩
  | load j =>
    simp only [LockQueue.dequeue, hc, Option.some.injEq] at ha
    subst ha
    exact hw.consumer_goto (by simp) (by rw [hc]; rfl) s.mutex
  | incr j x =>
    simp only [LockQueue.dequeue, hc, Option.some.injEq] at ha
    subst ha
    have hroom := hi.room
    refine ⟨fun i hp => ?_, nofun, fun i _ h => ?_, nofun, nofun, fun _ => nofun⟩
    · rcases hp with hp | hp
      · exact absurd (by rw [hp]; trivial) (hfree (by rw [hc]; trivial))
      · exact absurd hp (hw.taking (by rw [hc]; trivial) i)
    · simp only at h
      omega
  | unlock j x =>
    simp only [LockQueue.dequeue, hc, Option.some.injEq] at ha
    subst ha
    exact hw.consumer_goto (by simp) (by rw [hc]; rfl) none

end Steps

/-- A signalled wake-up finds its condition met when it gets the mutex. -/
theorem Waits.due {s s' : State α} {a : Action} (hw : Waits capacity s) (hi : Inv capacity n item s)
    (ha : step capacity n item s a = some s') : Due capacity s a := by
  cases a with
  | spurious r => trivial
  | run r =>
    cases r with
    | producer =>
      intro hwoken hfull
      cases hp : s.prod <;> rw [hp] at hwoken <;> cases hwoken
      have hm := hi.cons_mutex (hw.room _ hp hfull).holds
      simp only [LockQueue.step, LockQueue.enqueue, hp, hm, reduceCtorEq] at ha
    | consumer =>
      intro hwoken hempty
      cases hc : s.cons <;> rw [hc] at hwoken <;> cases hwoken
      have hm := hi.prod_mutex (hw.item _ hc hempty).holds
      simp only [LockQueue.step, LockQueue.dequeue, hc, hm, reduceCtorEq] at ha

theorem Waits.initial (capacity : ℕ) (items : ℕ → α) : Waits capacity (initial items) :=
  ⟨nofun, nofun, nofun, nofun, nofun, nofun⟩

/-- In a run whose wake-ups are all signalled no wait returns too early. -/
theorem waits_of_signalled {items : ℕ → α} {h : List (Event α)} {s : State α}
    (hr : Run (program capacity n item) Signalled (initial items) h s) :
    Waits capacity s ∧ Run (program capacity n item) (Due capacity) (initial items) h s := by
  induction hr with
  | refl => exact ⟨.initial capacity items, .refl⟩
  | @tail h u v a _ hsig ha ih =>
    obtain ⟨hw, hr⟩ := ih
    have hi := (inv_of_run hr).1
    refine ⟨?_, hr.tail (hw.due hi ha) ha⟩
    match a, hsig with
    | .run .producer, _ => exact hw.enqueue hi ha
    | .run .consumer, _ => exact hw.dequeue hi ha

/-- No run whose wake-ups are all signalled has a wait that returns too early. -/
theorem due_of_signalled {items : ℕ → α} {h : List (Event α)} {s : State α}
    (hr : Run (program capacity n item) Signalled (initial items) h s) :
    Run (program capacity n item) (Due capacity) (initial items) h s := (waits_of_signalled hr).2

/-! ### First in, first out -/

/-- The bounded queue with nothing lost: the counters stay within one capacity,
every unread item is in its cell, the `k`-th item out is the `k`-th item in. -/
def Fifo (capacity : ℕ) (item : ℕ → α) (h : List (Event α)) (s : State α) : Prop :=
  (s.q.head_ ≤ s.q.tail_ ∧ s.q.tail_ ≤ s.q.head_ + capacity) ∧
    Window capacity item s.q.items s.q.head_ s.q.tail_ ∧
    ∀ k x, (dequeued h)[k]? = some x → (enqueued h)[k]? = some x ∧ x = item k

/-- Any run in which no wait returns too early, signalled or not. -/
theorem lock_queue_fifo_of_due {items : ℕ → α} {h : List (Event α)} {s : State α}
    (hr : Run (program capacity n item) (Due capacity) (initial items) h s) :
    Fifo capacity item h s := by
  obtain ⟨hi, hf⟩ := inv_of_run hr
  exact ⟨⟨hi.le, hi.room⟩, hi.window, fun k x => hf.dequeued_get⟩

def runs (r : Role) (k : ℕ) : List Action := List.replicate k (.run r)

/-- A full ring of one cell, the producer blocked, the consumer about to take the item. -/
theorem lock_queue_fifo_of_due_handover : ∃ h s,
    Run (program 1 2 id) (Due 1) (initial fun _ => 7) h s ∧ s.q.tail_ = 2 ∧
      dequeued h = [0] ∧ Fifo 1 id h s := by
  obtain ⟨h, s, hr, ht⟩ := exists_run_of_exec (C := Due 1) (P := program 1 2 id)
    (s := initial fun _ => 7) (runs .producer 11 ++ runs .consumer 7 ++ runs .producer 5)
    (fun h s => s.q.tail_ == 2 && dequeued h == [0]) (by decide)
  simp only [Bool.and_eq_true, beq_iff_eq] at ht
  exact ⟨h, s, hr, ht.1, ht.2, lock_queue_fifo_of_due hr⟩

/-- One spurious wake-up: the second item lands on the unread first one, and the
first item out is the second item in. -/
theorem lock_queue_overrun : ∃ h s,
    Run (program 1 2 id) Free (initial fun _ => 7) h s ∧ enqueued h = [0, 1] ∧ dequeued h = [1] ∧
      ¬ Fifo 1 id h s := by
  obtain ⟨h, s, hr, ht⟩ := exists_run_of_exec (C := Free) (P := program 1 2 id) (s := initial fun _ => 7)
    (runs .producer 11 ++ [.spurious .producer] ++ runs .producer 5 ++ runs .consumer 6)
    (fun h _ => enqueued h == [0, 1] && dequeued h == [1]) (by decide)
  simp only [Bool.and_eq_true, beq_iff_eq] at ht
  refine ⟨h, s, hr, ht.1, ht.2, fun hf => ?_⟩
  have h0 := (hf.2.2 0 1 (by rw [ht.2]; rfl)).2
  cases h0

end Multicore.Queues.LockQueue
