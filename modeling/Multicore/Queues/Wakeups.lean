import Multicore.Queues.LockQueue

/-! No wake-up of the locking queue is lost. Both threads wait on one condition variable,
and a signal is sent only when the queue is full or empty and before the counter moves.
While a wait returns only after a signal, the producer waits only as long as the queue is
full and the consumer only as long as it is empty, so that they never both wait, and who
has finished has not left the other behind. -/

namespace Multicore.Queues.LockQueue

open Runs

variable {α : Type*} {capacity n : ℕ} {item : ℕ → α} {s s' : State α}

/-- Whom the mutex names is between `lock` and `unlock`, and not in `wait`. -/
structure Held (s : State α) : Prop where
  producer : s.mutex = some .producer → s.prod.Holds
  consumer : s.mutex = some .consumer → s.cons.Holds

theorem Held.of_free (hm : s.mutex = none) : Held s := by
  refine ⟨fun h => ?_, fun h => ?_⟩
  · rw [hm] at h
    cases h
  · rw [hm] at h
    cases h

theorem Held.enqueue (hs : Held s) (ha : enqueue capacity n item s = some s') : Held s' := by
  cases hp : s.prod with
  | idle i =>
    simp only [LockQueue.enqueue, hp, Option.ite_none_right_eq_some, Option.some.injEq] at ha
    obtain ⟨-, rfl⟩ := ha
    refine ⟨fun hm => ?_, hs.consumer⟩
    have hholds := hs.producer hm
    rw [hp] at hholds
    exact hholds.elim
  | locking i | woken i =>
    cases hm : s.mutex with
    | some r => simp only [LockQueue.enqueue, hp, hm, reduceCtorEq] at ha
    | none =>
      simp only [LockQueue.enqueue, hp, hm, Option.some.injEq] at ha
      subst ha
      exact ⟨fun _ => trivial, fun hm' => by cases hm'⟩
  | test i =>
    simp only [LockQueue.enqueue, hp, Option.some.injEq] at ha
    subst ha
    refine ⟨fun _ => ?_, hs.consumer⟩
    show (if isFull capacity s.q.tail_ s.q.head_ then ProducerPc.wait i else .signal i).Holds
    split <;> trivial
  | wait i | unlock i =>
    simp only [LockQueue.enqueue, hp, Option.some.injEq] at ha
    subst ha
    exact .of_free rfl
  | waiting i => simp only [LockQueue.enqueue, hp, reduceCtorEq] at ha
  | signal i =>
    simp only [LockQueue.enqueue, hp, Option.some.injEq] at ha
    subst ha
    refine ⟨fun _ => trivial, fun hm => ?_⟩
    show (if s.q.tail_ = s.q.head_ then s.cons.wake else s.cons).Holds
    split
    · exact (consumer_wake_holds _).mpr (hs.consumer hm)
    · exact hs.consumer hm
  | store i | incr i =>
    simp only [LockQueue.enqueue, hp, Option.some.injEq] at ha
    subst ha
    exact ⟨fun _ => trivial, hs.consumer⟩

theorem Held.dequeue (hs : Held s) (ha : dequeue capacity n s = some s') : Held s' := by
  cases hc : s.cons with
  | idle j =>
    simp only [LockQueue.dequeue, hc, Option.ite_none_right_eq_some, Option.some.injEq] at ha
    obtain ⟨-, rfl⟩ := ha
    refine ⟨hs.producer, fun hm => ?_⟩
    have hholds := hs.consumer hm
    rw [hc] at hholds
    exact hholds.elim
  | locking j | woken j =>
    cases hm : s.mutex with
    | some r => simp only [LockQueue.dequeue, hc, hm, reduceCtorEq] at ha
    | none =>
      simp only [LockQueue.dequeue, hc, hm, Option.some.injEq] at ha
      subst ha
      exact ⟨fun hm' => (by cases hm'), fun _ => trivial⟩
  | test j =>
    simp only [LockQueue.dequeue, hc, Option.some.injEq] at ha
    subst ha
    refine ⟨hs.producer, fun _ => ?_⟩
    show (if s.q.tail_ = s.q.head_ then ConsumerPc.wait j else .signal j).Holds
    split <;> trivial
  | wait j | unlock j x =>
    simp only [LockQueue.dequeue, hc, Option.some.injEq] at ha
    subst ha
    exact .of_free rfl
  | waiting j => simp only [LockQueue.dequeue, hc, reduceCtorEq] at ha
  | signal j =>
    simp only [LockQueue.dequeue, hc, Option.some.injEq] at ha
    subst ha
    refine ⟨fun hm => ?_, fun _ => trivial⟩
    show (if isFull capacity s.q.tail_ s.q.head_ then s.prod.wake else s.prod).Holds
    split
    · exact (producer_wake_holds _).mpr (hs.producer hm)
    · exact hs.producer hm
  | load j | incr j x =>
    simp only [LockQueue.dequeue, hc, Option.some.injEq] at ha
    subst ha
    exact ⟨hs.producer, fun _ => trivial⟩

theorem Held.initial (items : ℕ → α) : Held (initial items) := by
  constructor <;> intro hm <;> cases hm

theorem held_of_signalled {items : ℕ → α} {h : List (Event α)}
    (hr : Run (program capacity n item) Signalled (initial items) h s) : Held s := by
  refine hr.always (Held.initial items) fun u a v hs hsig ha => ?_
  match a, hsig with
  | .run .producer, _ => exact hs.enqueue ha
  | .run .consumer, _ => exact hs.dequeue ha

/-! ### Who cannot go on -/

/-- A producer that cannot go on is done, waits, or needs the mutex. -/
theorem enqueue_eq_none (ha : enqueue capacity n item s = none) :
    ¬ s.prod.Holds ∧ (s.mutex = none → (∃ i, s.prod = .idle i ∧ n ≤ i) ∨ ∃ i, s.prod = .waiting i) := by
  cases hp : s.prod with
  | idle i =>
    simp only [LockQueue.enqueue, hp, ite_eq_right_iff, reduceCtorEq, imp_false, Nat.not_lt] at ha
    exact ⟨id, fun _ => .inl ⟨i, rfl, ha⟩⟩
  | waiting i => exact ⟨id, fun _ => .inr ⟨i, rfl⟩⟩
  | locking i | woken i =>
    refine ⟨id, fun hm => ?_⟩
    simp only [LockQueue.enqueue, hp, hm, reduceCtorEq] at ha
  | _ => simp only [LockQueue.enqueue, hp, reduceCtorEq] at ha

theorem dequeue_eq_none (ha : dequeue capacity n s = none) :
    ¬ s.cons.Holds ∧ (s.mutex = none → (∃ j, s.cons = .idle j ∧ n ≤ j) ∨ ∃ j, s.cons = .waiting j) := by
  cases hc : s.cons with
  | idle j =>
    simp only [LockQueue.dequeue, hc, ite_eq_right_iff, reduceCtorEq, imp_false, Nat.not_lt] at ha
    exact ⟨id, fun _ => .inl ⟨j, rfl, ha⟩⟩
  | waiting j => exact ⟨id, fun _ => .inr ⟨j, rfl⟩⟩
  | locking j | woken j =>
    refine ⟨id, fun hm => ?_⟩
    simp only [LockQueue.dequeue, hc, hm, reduceCtorEq] at ha
  | _ => simp only [LockQueue.dequeue, hc, reduceCtorEq] at ha

/-- Both threads are done where each of them is done or waits. -/
theorem Waits.done (hw : Waits capacity s) (hi : Inv capacity n item s) (hcap : 1 ≤ capacity)
    (hp : (∃ i, s.prod = .idle i ∧ n ≤ i) ∨ ∃ i, s.prod = .waiting i)
    (hc : (∃ j, s.cons = .idle j ∧ n ≤ j) ∨ ∃ j, s.cons = .waiting j) :
    s.prod = .idle n ∧ s.cons = .idle n := by
  have hprod := hi.prod
  have hcons := hi.cons
  rcases hp with ⟨i, hp, hni⟩ | ⟨i, hp⟩ <;> rcases hc with ⟨j, hc, hnj⟩ | ⟨j, hc⟩
  all_goals rw [hp] at hprod
  all_goals rw [hc] at hcons
  all_goals obtain ⟨ht, hin⟩ := hprod
  all_goals obtain ⟨hh, hjn⟩ := hcons
  · rw [hp, hc, Nat.le_antisymm hin hni, Nat.le_antisymm hjn hnj]
    exact ⟨rfl, rfl⟩
  · -- the consumer waits for an item, but all `n` have gone in and it has not had them all
    have hempty := hw.empty j (.inr hc)
    omega
  · have hfull := hw.full i (.inr hp)
    omega
  · have hempty := hw.empty j (.inr hc)
    have hfull := hw.full i (.inr hp)
    omega

/-- As long as a thread has operations left, one of the two can take a step: they are never
all blocked in `wait` with no signal on its way. -/
theorem lock_queue_no_lost_wakeup (hcap : 1 ≤ capacity) {items : ℕ → α} {h : List (Event α)}
    (hr : Run (program capacity n item) Signalled (initial items) h s)
    (hleft : s.prod ≠ .idle n ∨ s.cons ≠ .idle n) :
    ∃ r s', step capacity n item s (.run r) = some s' := by
  obtain ⟨hw, hdue⟩ := waits_of_signalled hr
  have hi := (inv_of_run hdue).1
  have hs := held_of_signalled hr
  by_contra hstuck
  rw [not_exists] at hstuck
  have hnone : ∀ r, step capacity n item s (.run r) = none := fun r =>
    Option.eq_none_iff_forall_ne_some.mpr fun s' hs' => hstuck r ⟨s', hs'⟩
  obtain ⟨hprod, hp⟩ := enqueue_eq_none (hnone .producer)
  obtain ⟨hcons, hc⟩ := dequeue_eq_none (hnone .consumer)
  have hm : s.mutex = none := by
    match hmutex : s.mutex with
    | none => rfl
    | some .producer => exact absurd (hs.producer hmutex) hprod
    | some .consumer => exact absurd (hs.consumer hmutex) hcons
  obtain ⟨hpn, hcn⟩ := hw.done hi hcap (hp hm) (hc hm)
  exact hleft.elim (absurd hpn) (absurd hcn)

instance : (s : State α) → (a : Action) → Decidable (Signalled s a)
  | _, .run _ => inferInstanceAs (Decidable True)
  | _, .spurious _ => inferInstanceAs (Decidable False)

/-- The producer waits on the full ring of one cell, and the consumer can go on. -/
theorem lock_queue_no_lost_wakeup_full : ∃ h s,
    Run (program 1 2 id) Signalled (initial fun _ => 7) h s ∧ s.prod = .waiting 1 ∧
      ∃ r s', step 1 2 id s (.run r) = some s' := by
  obtain ⟨h, s, hr, ht⟩ := exists_run_of_exec (C := Signalled) (P := program 1 2 id)
    (s := initial fun _ => 7) (runs .producer 11) (fun _ s => s.prod == .waiting 1) (by decide)
  rw [beq_iff_eq] at ht
  refine ⟨h, s, hr, ht, lock_queue_no_lost_wakeup le_rfl hr (.inl ?_)⟩
  rw [ht]
  decide

end Multicore.Queues.LockQueue
