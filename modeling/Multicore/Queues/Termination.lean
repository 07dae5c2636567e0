import Multicore.Queues.LockFreeQueue
import Multicore.Queues.Wakeups
import Multicore.Runs.Progress

/-! The threads of part 3 come to an end. In the lock-free queue the producer is due while it
has an item and room for it, and otherwise the consumer is; a test may fail once more than it
should, on a counter that it has read before the other thread moved it, and no more. Nobody
spins in the locking queue, so that each action uses up a part of what is left to do. -/

namespace Multicore.Queues

open Runs

/-- What the consumer has had when it has had everything. -/
theorem Refines.dequeued_of_all {α : Type*} {capacity n head tail : ℕ} {item : ℕ → α}
    {h : List (Event α)} (hf : Refines capacity item h head tail) (hh : head = n) (ht : tail = n) :
    dequeued h = (List.range n).map item := by
  have hall := hf.fifo.enqueued_eq
  rw [hf.order, hh, ht] at hall
  simpa [contents] using hall.symm

namespace LockFreeQueue

variable {α : Type*} {capacity n : ℕ} {item : ℕ → α} {s s' : State α}

/-- The producer has an item and room for it. -/
def Room (capacity n : ℕ) (q : Queue α) : Prop := q.tail_ < n ∧ q.tail_ < q.head_ + capacity

/-- The steps left in a call that has room. A value of `head_` that is out of date fails the test. -/
def ProducerPc.left (capacity tail_ : ℕ) : ProducerPc → ℕ
  | .idle _ => 9
  | .test _ none none => 7
  | .test _ (some _) none => 6
  | .test _ _ (some r) => if tail_ = r + capacity then 8 else 6
  | .slot _ => 4
  | .store _ _ => 3
  | .incr _ => 2
  | .bump _ _ => 1

/-- The steps left in a call that has an item to take. -/
def ConsumerPc.left (head_ : ℕ) : ConsumerPc α → ℕ
  | .idle _ => 9
  | .test _ none none => 7
  | .test _ none (some _) => 6
  | .test _ (some r) _ => if r = head_ then 8 else 6
  | .slot _ => 4
  | .load _ _ => 3
  | .incr _ _ => 2
  | .bump _ _ _ => 1

theorem ProducerPc.left_bounds (capacity tail_ : ℕ) (pc : ProducerPc) :
    1 ≤ pc.left capacity tail_ ∧ pc.left capacity tail_ ≤ 9 := by
  cases pc with
  | test i tail head =>
    cases tail <;> cases head <;> simp only [ProducerPc.left] <;> first | omega | (split <;> omega)
  | _ => simp only [ProducerPc.left]; omega

theorem ConsumerPc.left_bounds (head_ : ℕ) (pc : ConsumerPc α) :
    1 ≤ pc.left head_ ∧ pc.left head_ ≤ 9 := by
  cases pc with
  | test j tail head =>
    cases tail <;> cases head <;> simp only [ConsumerPc.left] <;> first | omega | (split <;> omega)
  | _ => simp only [ConsumerPc.left]; omega

/-- An access of the producer leaves the consumer where it is; it moves `tail_` only with room,
and with room it comes nearer to that. -/
theorem Inv.enqueue_left {next : Side} (hi : Inv capacity n item s)
    (ha : LockFreeQueue.enqueue capacity n item s next = some s') :
    s'.cons = s.cons ∧ s'.q.head_ = s.q.head_ ∧
      (s'.q.tail_ = s.q.tail_ + 1 ∧ Room capacity n s.q ∨ s'.q.tail_ = s.q.tail_ ∧
        (Room capacity n s.q → s'.prod.left capacity s.q.tail_ < s.prod.left capacity s.q.tail_)) := by
  have hprod := hi.prod
  cases hp : s.prod with
  | idle i =>
    simp only [LockFreeQueue.enqueue, hp, Option.ite_none_right_eq_some, Option.some.injEq] at ha
    obtain ⟨-, rfl⟩ := ha
    exact ⟨rfl, rfl, .inr ⟨rfl, fun _ => by simp [ProducerPc.left]⟩⟩
  | test i tail head =>
    rw [hp] at hprod
    obtain ⟨h1, h2, h3, h4⟩ := hprod
    have hfull : ∀ r, Room capacity n s.q → r = s.q.head_ → isFull capacity s.q.tail_ r = false := by
      rintro r ⟨-, hroom⟩ rfl
      rw [Bool.eq_false_iff, Ne, isFull_iff]
      omega
    cases next with
    | tail_ =>
      cases tail with
      | some r => simp only [LockFreeQueue.enqueue, hp, reduceCtorEq] at ha
      | none =>
        simp only [LockFreeQueue.enqueue, hp, Option.some.injEq] at ha
        subst ha
        refine ⟨rfl, rfl, .inr ⟨rfl, fun hroom => ?_⟩⟩
        cases head with
        | none => simp [fullTest, ProducerPc.left]
        | some r =>
          by_cases hr : s.q.tail_ = r + capacity
          · -- out of date, or the queue is full
            have hf := isFull_iff.mpr hr
            simp only [fullTest, ProducerPc.left, hf, if_true, if_pos hr]
            omega
          · have hf : isFull capacity s.q.tail_ r = false := by rwa [Bool.eq_false_iff, Ne, isFull_iff]
            simp [fullTest, ProducerPc.left, hf, hr]
    | head_ =>
      cases head with
      | some r => simp only [LockFreeQueue.enqueue, hp, reduceCtorEq] at ha
      | none =>
        simp only [LockFreeQueue.enqueue, hp, Option.some.injEq] at ha
        subst ha
        refine ⟨rfl, rfl, .inr ⟨rfl, fun hroom => ?_⟩⟩
        cases tail with
        | none =>
          have hne : ¬ s.q.tail_ = s.q.head_ + capacity := by have := hroom.2; omega
          simp [fullTest, ProducerPc.left, hne]
        | some r =>
          rw [h3 r rfl]
          simp [fullTest, hfull _ hroom rfl, ProducerPc.left]
  | slot i | store i r | incr i =>
    simp only [LockFreeQueue.enqueue, hp, Option.some.injEq] at ha
    subst ha
    exact ⟨rfl, rfl, .inr ⟨rfl, fun _ => by simp [ProducerPc.left]⟩⟩
  | bump i r =>
    rw [hp] at hprod
    obtain ⟨rfl, h2, h3, h4, rfl⟩ := hprod
    simp only [LockFreeQueue.enqueue, hp, Option.some.injEq] at ha
    subst ha
    exact ⟨rfl, rfl, .inl ⟨rfl, h2, h3⟩⟩

/-- An access of the consumer likewise, where it has an item to take. -/
theorem Inv.dequeue_left {next : Side} (hi : Inv capacity n item s)
    (ha : LockFreeQueue.dequeue capacity n s next = some s') :
    s'.prod = s.prod ∧ s'.q.tail_ = s.q.tail_ ∧
      (s'.q.head_ = s.q.head_ + 1 ∧ s.q.head_ < s.q.tail_ ∨ s'.q.head_ = s.q.head_ ∧
        (s.q.head_ < s.q.tail_ → s'.cons.left s.q.head_ < s.cons.left s.q.head_)) := by
  have hcons := hi.cons
  cases hc : s.cons with
  | idle j =>
    simp only [LockFreeQueue.dequeue, hc, Option.ite_none_right_eq_some, Option.some.injEq] at ha
    obtain ⟨-, rfl⟩ := ha
    exact ⟨rfl, rfl, .inr ⟨rfl, fun _ => by simp [ConsumerPc.left]⟩⟩
  | test j tail head =>
    rw [hc] at hcons
    obtain ⟨h1, h2, h3, h4⟩ := hcons
    cases next with
    | tail_ =>
      cases tail with
      | some r => simp only [LockFreeQueue.dequeue, hc, reduceCtorEq] at ha
      | none =>
        simp only [LockFreeQueue.dequeue, hc, Option.some.injEq] at ha
        subst ha
        refine ⟨rfl, rfl, .inr ⟨rfl, fun hlt => ?_⟩⟩
        have hne : ¬ s.q.tail_ = s.q.head_ := hlt.ne'
        cases head with
        | none => simp [emptyTest, ConsumerPc.left, hne]
        | some r =>
          rw [h4 r rfl]
          simp [emptyTest, ConsumerPc.left, hne]
    | head_ =>
      cases head with
      | some r => simp only [LockFreeQueue.dequeue, hc, reduceCtorEq] at ha
      | none =>
        simp only [LockFreeQueue.dequeue, hc, Option.some.injEq] at ha
        subst ha
        refine ⟨rfl, rfl, .inr ⟨rfl, fun _ => ?_⟩⟩
        cases tail with
        | none => simp [emptyTest, ConsumerPc.left]
        | some r => by_cases hr : r = s.q.head_ <;> simp [emptyTest, ConsumerPc.left, hr]
  | slot j | load j r | incr j x =>
    simp only [LockFreeQueue.dequeue, hc, Option.some.injEq] at ha
    subst ha
    exact ⟨rfl, rfl, .inr ⟨rfl, fun _ => by simp [ConsumerPc.left]⟩⟩
  | bump j x r =>
    rw [hc] at hcons
    obtain ⟨rfl, h2, h3, -, rfl⟩ := hcons
    simp only [LockFreeQueue.dequeue, hc, Option.some.injEq] at ha
    subst ha
    exact ⟨rfl, rfl, .inl ⟨rfl, h3⟩⟩

/-! ### Executions -/

def Action.role : Action → LockQueue.Role
  | .producer _ => .producer
  | .consumer _ => .consumer

/-- The producer while it has room, and otherwise the consumer, until it has had all items. -/
def Due (capacity n : ℕ) (s : State α) : LockQueue.Role → Prop
  | .producer => Room capacity n s.q
  | .consumer => ¬ Room capacity n s.q ∧ s.q.head_ < n

/-- Both threads have made their `n` calls. -/
def Done (n : ℕ) (s : State α) : Prop := s.prod = .idle n ∧ s.cons = .idle n

instance : Decidable (Room capacity n s.q) := inferInstanceAs (Decidable (_ ∧ _))

/-- The steps left until both threads are done; each item costs each side at most ten. -/
def left (capacity n : ℕ) (s : State α) : ℕ :=
  10 * (2 * n - s.q.head_ - s.q.tail_) +
    if Room capacity n s.q then s.prod.left capacity s.q.tail_ else s.cons.left s.q.head_

theorem Inv.head_le (hi : Inv capacity n item s) : s.q.head_ ≤ n := by
  have hc := hi.cons
  cases h : s.cons <;> simp only [h, ConsumerAt] at hc <;> omega

theorem Inv.prod_eq_idle (hi : Inv capacity n item s) : s.prod = .idle n ↔ s.q.tail_ = n := by
  have hp := hi.prod
  cases h : s.prod <;> simp only [h, ProducerAt] at hp <;> simp <;> omega

theorem Inv.cons_eq_idle (hi : Inv capacity n item s) : s.cons = .idle n ↔ s.q.head_ = n := by
  have hc := hi.cons
  cases h : s.cons <;> simp only [h, ConsumerAt] at hc <;> simp <;> omega

theorem Inv.done_iff (hi : Inv capacity n item s) : Done n s ↔ s.q.head_ = n ∧ s.q.tail_ = n := by
  rw [Done, hi.prod_eq_idle, hi.cons_eq_idle, and_comm]

/-- An action with the threads not done yet brings them nearer, or it is taken by the one who
is not due. -/
theorem Inv.left_lt {a : Action} (hi : Inv capacity n item s) (hcap : 1 ≤ capacity)
    (ha : step capacity n item s a = some s') :
    left capacity n s' < left capacity n s ∨ left capacity n s' = left capacity n s ∧
      ∀ r, Due capacity n s r → a.role ≠ r ∧ Due capacity n s' r := by
  have hhead := hi.head_le
  have htail := hi.tail_le
  cases a with
  | producer next =>
    obtain ⟨hc, hh, ⟨ht, hroom⟩ | ⟨ht, hlt⟩⟩ := hi.enqueue_left ha
    · have hs := (s.prod.left_bounds capacity s.q.tail_).1
      have hp' := (s'.prod.left_bounds capacity s'.q.tail_).2
      have hc' := (s'.cons.left_bounds s'.q.head_).2
      have hlast : 10 * (2 * n - s'.q.head_ - s'.q.tail_) + 10 = 10 * (2 * n - s.q.head_ - s.q.tail_) := by
        have := hroom.1
        omega
      simp only [left, if_pos hroom]
      split <;> exact .inl (by omega)
    · by_cases hroom : Room capacity n s.q
      · have hroom' : Room capacity n s'.q := by simpa only [Room, ht, hh] using hroom
        simp only [left, if_pos hroom, if_pos hroom', ht, hh]
        exact .inl (Nat.add_lt_add_left (hlt hroom) _)
      · have hroom' : ¬ Room capacity n s'.q := by simpa only [Room, ht, hh] using hroom
        simp only [left, if_neg hroom, if_neg hroom', ht, hh, hc]
        refine .inr ⟨trivial, fun r hr => ?_⟩
        cases r with
        | producer => exact absurd hr hroom
        | consumer => exact ⟨nofun, hroom', by rw [hh]; exact hr.2⟩
  | consumer next =>
    obtain ⟨hp, ht, ⟨hh, hne⟩ | ⟨hh, hlt⟩⟩ := hi.dequeue_left ha
    · have hs : 1 ≤ if Room capacity n s.q then s.prod.left capacity s.q.tail_ else s.cons.left s.q.head_ := by
        split
        · exact (s.prod.left_bounds capacity s.q.tail_).1
        · exact (s.cons.left_bounds s.q.head_).1
      have hs' : (if Room capacity n s'.q then s'.prod.left capacity s'.q.tail_ else s'.cons.left s'.q.head_) ≤ 9 := by
        split
        · exact (s'.prod.left_bounds capacity s'.q.tail_).2
        · exact (s'.cons.left_bounds s'.q.head_).2
      exact .inl (by rw [left, left]; omega)
    · by_cases hroom : Room capacity n s.q
      · have hroom' : Room capacity n s'.q := by simpa only [Room, ht, hh] using hroom
        simp only [left, if_pos hroom, if_pos hroom', ht, hh, hp]
        refine .inr ⟨trivial, fun r hr => ?_⟩
        cases r with
        | producer => exact ⟨nofun, hroom'⟩
        | consumer => exact absurd hroom hr.1
      · have hroom' : ¬ Room capacity n s'.q := by simpa only [Room, ht, hh] using hroom
        have hitem : s.q.head_ < s.q.tail_ := by
          by_contra hnone
          have hall : s.q.head_ = n := by
            have := hi.le
            simp only [Room] at hroom
            omega
          simp [step, LockFreeQueue.dequeue, hi.cons_eq_idle.mpr hall] at ha
        simp only [left, if_neg hroom, if_neg hroom', ht, hh]
        exact .inl (Nat.add_lt_add_left (hlt hitem) _)

/-- While the threads are not done, somebody is due. -/
theorem Inv.exists_due (hi : Inv capacity n item s) (hcap : 1 ≤ capacity) (hnot : ¬ Done n s) :
    ∃ r, Due capacity n s r := by
  by_cases hroom : Room capacity n s.q
  · exact ⟨.producer, hroom⟩
  · refine ⟨.consumer, hroom, ?_⟩
    rw [hi.done_iff] at hnot
    have := hi.head_le
    have := hi.tail_le
    have := hi.le
    simp only [Room] at hroom
    omega

/-- Nothing passes through a queue without cells. -/
theorem Inv.tail_eq_zero {a : Action} (hi : Inv 0 n item s) (h0 : s.q.tail_ = 0)
    (ha : step 0 n item s a = some s') : s'.q.tail_ = 0 := by
  cases a with
  | producer next =>
    obtain ⟨-, -, ⟨-, hroom⟩ | ⟨ht, -⟩⟩ := hi.enqueue_left ha
    · have := hroom.2
      have := hi.le
      omega
    · rw [ht, h0]
  | consumer next => rw [(hi.dequeue_left ha).2.1, h0]

/-- Part 3 with the lock-free queue ends exactly if the queue has a cell, or there is nothing to
put in it: under any schedule that keeps giving steps to a thread that is not done, both
threads make their `n` calls, and the consumer has had all items in their order. In the source `n`
and the capacity are `int`s, and no count goes past `n`. -/
theorem lock_free_queue_ends_iff {items : ℕ → α} {f : ℕ → State α} {act : ℕ → Option Action}
    (he : Execution (program capacity n item) Free f act) (h0 : f 0 = initial items)
    (hprod : ∀ k, (∀ m, k ≤ m → (f m).prod ≠ .idle n) → ∃ m next, k ≤ m ∧ act m = some (.producer next))
    (hcons : ∀ k, (∀ m, k ≤ m → (f m).cons ≠ .idle n) → ∃ m next, k ≤ m ∧ act m = some (.consumer next)) :
    (∃ m, Done n (f m) ∧ ∃ h, Run (program capacity n item) Free (initial items) h (f m) ∧
      dequeued h = (List.range n).map item) ↔ 1 ≤ capacity ∨ n = 0 := by
  have hreach : ∀ k, ∃ h, Run (program capacity n item) Free (initial items) h (f k) :=
    fun k => h0 ▸ he.reached k
  have hinv : ∀ k, Inv capacity n item (f k) := fun k => (inv_of_run (hreach k).choose_spec).1
  constructor
  · rintro ⟨m, hdone, -⟩
    rw [(hinv m).done_iff] at hdone
    by_contra hnot
    obtain ⟨hcap, hn⟩ := not_or.mp hnot
    obtain rfl : capacity = 0 := by omega
    have hzero := he.always
      (I := fun s => (∃ h, Run (program 0 n item) Free (initial items) h s) ∧ s.q.tail_ = 0)
      ⟨hreach 0, by rw [h0]; rfl⟩ (fun x a y ⟨⟨h, hr⟩, ht⟩ _ ha =>
        ⟨⟨_, hr.tail trivial ha⟩, (inv_of_run hr).1.tail_eq_zero ht ha⟩) m
    omega
  · intro hcap
    suffices hdone : ∃ m, Done n (f m) by
      obtain ⟨m, hm⟩ := hdone
      obtain ⟨h, hr⟩ := hreach m
      obtain ⟨hh, ht⟩ := (hinv m).done_iff.mp hm
      exact ⟨m, hm, h, hr, (inv_of_run hr).2.dequeued_of_all hh ht⟩
    by_cases hstart : Done n (f 0)
    · exact ⟨0, hstart⟩
    have hcap : 1 ≤ capacity := by
      refine hcap.resolve_right fun hn => hstart ?_
      rw [h0, hn]
      exact ⟨rfl, rfl⟩
    refine he.leads_due (Q := Done n) (Due capacity n) (fun r a => a.role = r) (left capacity n)
      (J := fun s => (∃ h, Run (program capacity n item) Free (initial items) h s) ∧ ¬ Done n s)
      ⟨hreach 0, hstart⟩ ?_ ?_ (fun k r hdue => ?_)
    · rintro x ⟨⟨h, hr⟩, hx⟩
      exact (inv_of_run hr).1.exists_due hcap hx
    · rintro x a y ⟨⟨h, hr⟩, hx⟩ - ha
      by_cases hy : Done n y
      · exact .inl hy
      · exact .inr ⟨⟨⟨_, hr.tail trivial ha⟩, hy⟩, (inv_of_run hr).1.left_lt hcap ha⟩
    · cases r with
      | producer =>
        obtain ⟨m, next, hm, ha⟩ := hprod k fun m hm hp =>
          absurd ((hinv m).prod_eq_idle.mp hp) (hdue m hm).1.ne
        exact ⟨m, _, hm, ha, rfl⟩
      | consumer =>
        obtain ⟨m, next, hm, ha⟩ := hcons k fun m hm hc =>
          absurd ((hinv m).cons_eq_idle.mp hc) (hdue m hm).2.ne
        exact ⟨m, _, hm, ha, rfl⟩

/-- Two items through a ring of one cell, each side in one go. -/
theorem lock_free_queue_ends_iff_wrap : ∃ (f : ℕ → State ℕ) (act : ℕ → Option Action),
    Execution (program 1 2 fun i => 10 + i) Free f act ∧ f 0 = initial (fun _ => 0) ∧
      ∃ m, Done 2 (f m) ∧ ∃ h, Run (program 1 2 fun i => 10 + i) Free (initial fun _ => 0) h (f m) ∧
        dequeued h = [10, 11] := by
  let enq : List Action := .producer .tail_ :: .producer .head_ :: List.replicate 5 (.producer .tail_)
  let deq : List Action := .consumer .tail_ :: .consumer .head_ :: List.replicate 5 (.consumer .tail_)
  let as : List Action := List.flatten [enq, deq, enq, deq]
  obtain ⟨r, hr, hend⟩ : ∃ r, (program 1 2 fun i => 10 + i).exec Free (initial fun _ => 0) as = some r ∧
      (r.2.prod == .idle 2 && r.2.cons == .idle 2) = true :=
    (Option.any_eq_true _ _).mp (by decide +kernel)
  simp only [Bool.and_eq_true, beq_iff_eq] at hend
  obtain ⟨he, hlast⟩ := execution_of_exec hr
  have hlate : ∀ k, ∃ m, k ≤ m ∧ (program 1 2 fun i => 10 + i).states (initial fun _ => 0) as m = r.2 :=
    fun k => ⟨max k as.length, le_max_left .., hlast _ (le_max_right ..)⟩
  have hiff := lock_free_queue_ends_iff he (states_zero ..)
    (fun k hk => (hlate k).elim fun m hm => absurd (hm.2 ▸ hend.1) (hk m hm.1))
    (fun k hk => (hlate k).elim fun m hm => absurd (hm.2 ▸ hend.2) (hk m hm.1))
  exact ⟨_, _, he, states_zero .., hiff.mpr (.inl le_rfl)⟩

end LockFreeQueue

namespace LockQueue

variable {α : Type*} {capacity n : ℕ} {item : ℕ → α} {s s' : State α}

/-- The actions left to the producer, with those by which it is woken. -/
def ProducerPc.left (n : ℕ) : ProducerPc → ℕ
  | .idle i => 10 * (n - i)
  | .locking i => 10 * (n - i) - 1
  | .test i => 10 * (n - i) - 2
  | .wait i => 10 * (n - i) - 3
  | .waiting i => 10 * (n - i) - 4
  | .woken i => 10 * (n - i) - 5
  | .signal i => 10 * (n - i) - 6
  | .store i => 10 * (n - i) - 7
  | .incr i => 10 * (n - i) - 8
  | .unlock i => 10 * (n - i) - 9

def ConsumerPc.left (n : ℕ) : ConsumerPc α → ℕ
  | .idle j => 10 * (n - j)
  | .locking j => 10 * (n - j) - 1
  | .test j => 10 * (n - j) - 2
  | .wait j => 10 * (n - j) - 3
  | .waiting j => 10 * (n - j) - 4
  | .woken j => 10 * (n - j) - 5
  | .signal j => 10 * (n - j) - 6
  | .load j => 10 * (n - j) - 7
  | .incr j _ => 10 * (n - j) - 8
  | .unlock j _ => 10 * (n - j) - 9

def left (n : ℕ) (s : State α) : ℕ := s.prod.left n + s.cons.left n

theorem ProducerPc.left_wake (n : ℕ) (pc : ProducerPc) : pc.wake.left n ≤ pc.left n := by
  cases pc <;> simp only [ProducerPc.wake, ProducerPc.left] <;> omega

theorem ConsumerPc.left_wake (n : ℕ) (pc : ConsumerPc α) : pc.wake.left n ≤ pc.left n := by
  cases pc <;> simp only [ConsumerPc.wake, ConsumerPc.left] <;> omega

/-- Nobody spins: an action of the producer is never taken again. -/
theorem Inv.enqueue_left (hi : Inv capacity n item s)
    (ha : LockQueue.enqueue capacity n item s = some s') : left n s' < left n s := by
  have hprod := hi.prod
  cases hp : s.prod with
  | idle i =>
    simp only [LockQueue.enqueue, hp, Option.ite_none_right_eq_some, Option.some.injEq] at ha
    obtain ⟨hlt, rfl⟩ := ha
    simp only [left, hp, ProducerPc.left]
    omega
  | locking i | woken i =>
    rw [hp] at hprod
    have hlt := hprod.2
    cases hm : s.mutex with
    | some r => simp only [LockQueue.enqueue, hp, hm, reduceCtorEq] at ha
    | none =>
      simp only [LockQueue.enqueue, hp, hm, Option.some.injEq] at ha
      subst ha
      simp only [left, hp, ProducerPc.left]
      omega
  | test i =>
    rw [hp] at hprod
    have hlt := hprod.2
    simp only [LockQueue.enqueue, hp, Option.some.injEq] at ha
    subst ha
    simp only [left, hp]
    split <;> simp only [ProducerPc.left] <;> omega
  | waiting i => simp only [LockQueue.enqueue, hp, reduceCtorEq] at ha
  | signal i =>
    rw [hp] at hprod
    have hlt := hprod.2.1
    simp only [LockQueue.enqueue, hp, Option.some.injEq] at ha
    subst ha
    have hwake : (if s.q.tail_ = s.q.head_ then s.cons.wake else s.cons).left n ≤ s.cons.left n := by
      split
      · exact s.cons.left_wake n
      · exact le_rfl
    simp only [left, hp, ProducerPc.left]
    omega
  | wait i | unlock i =>
    rw [hp] at hprod
    have hlt := hprod.2
    simp only [LockQueue.enqueue, hp, Option.some.injEq] at ha
    subst ha
    simp only [left, hp, ProducerPc.left]
    omega
  | store i | incr i =>
    rw [hp] at hprod
    have hlt := hprod.2.1
    simp only [LockQueue.enqueue, hp, Option.some.injEq] at ha
    subst ha
    simp only [left, hp, ProducerPc.left]
    omega

theorem Inv.dequeue_left (hi : Inv capacity n item s)
    (ha : LockQueue.dequeue capacity n s = some s') : left n s' < left n s := by
  have hcons := hi.cons
  cases hc : s.cons with
  | idle j =>
    simp only [LockQueue.dequeue, hc, Option.ite_none_right_eq_some, Option.some.injEq] at ha
    obtain ⟨hlt, rfl⟩ := ha
    simp only [left, hc, ConsumerPc.left]
    omega
  | locking j | woken j =>
    rw [hc] at hcons
    have hlt := hcons.2
    cases hm : s.mutex with
    | some r => simp only [LockQueue.dequeue, hc, hm, reduceCtorEq] at ha
    | none =>
      simp only [LockQueue.dequeue, hc, hm, Option.some.injEq] at ha
      subst ha
      simp only [left, hc, ConsumerPc.left]
      omega
  | test j =>
    rw [hc] at hcons
    have hlt := hcons.2
    simp only [LockQueue.dequeue, hc, Option.some.injEq] at ha
    subst ha
    simp only [left, hc]
    split <;> simp only [ConsumerPc.left] <;> omega
  | waiting j => simp only [LockQueue.dequeue, hc, reduceCtorEq] at ha
  | signal j =>
    rw [hc] at hcons
    have hlt := hcons.2.1
    simp only [LockQueue.dequeue, hc, Option.some.injEq] at ha
    subst ha
    have hwake : (if isFull capacity s.q.tail_ s.q.head_ then s.prod.wake else s.prod).left n ≤
        s.prod.left n := by
      split
      · exact s.prod.left_wake n
      · exact le_rfl
    simp only [left, hc, ConsumerPc.left]
    omega
  | wait j | unlock j x =>
    rw [hc] at hcons
    have hlt := hcons.2
    simp only [LockQueue.dequeue, hc, Option.some.injEq] at ha
    subst ha
    simp only [left, hc, ConsumerPc.left]
    omega
  | load j | incr j x =>
    rw [hc] at hcons
    have hlt := hcons.2.1
    simp only [LockQueue.dequeue, hc, Option.some.injEq] at ha
    subst ha
    simp only [left, hc, ConsumerPc.left]
    omega

/-- Part 3 with the locking queue ends under every schedule, fair or not, while wake-ups are
signalled, if the queue has a cell: after at most 20 actions for each item nothing can go on, and
where nothing can go on both threads have made their `n` calls and the consumer has had all items in
their order. Here too `n` and the capacity stand for `int`s. -/
theorem lock_queue_ends (hcap : 1 ≤ capacity) {items : ℕ → α} {as : List Action} {h : List (Event α)}
    (he : (program capacity n item).exec Signalled (initial items) as = some (h, s)) :
    as.length ≤ 20 * n ∧ ((∀ r, step capacity n item s (.run r) = none) →
      s.prod = .idle n ∧ s.cons = .idle n ∧ dequeued h = (List.range n).map item) := by
  constructor
  · have hle := length_le_of_exec (P := program capacity n item) (μ := left n)
      (I := fun s => ∃ h, Run (program capacity n item) Signalled (initial items) h s) ⟨[], .refl⟩ ?_ he
    · have h0 : left n (initial items) = 20 * n := by
        simp only [left, initial, ProducerPc.left, ConsumerPc.left]
        omega
      omega
    · rintro x a y ⟨k, hr⟩ hsig ha
      have hi := (inv_of_run (waits_of_signalled hr).2).1
      refine ⟨⟨_, hr.tail hsig ha⟩, ?_⟩
      match a, hsig with
      | .run .producer, _ => exact hi.enqueue_left ha
      | .run .consumer, _ => exact hi.dequeue_left ha
  · intro hnone
    have hr : Run (program capacity n item) Signalled (initial items) h s := run_of_exec he
    obtain ⟨hw, hdue⟩ := waits_of_signalled hr
    obtain ⟨hi, hf⟩ := inv_of_run hdue
    have hs := held_of_signalled hr
    obtain ⟨hprod, hp⟩ := enqueue_eq_none (hnone .producer)
    obtain ⟨hcons, hc⟩ := dequeue_eq_none (hnone .consumer)
    have hm : s.mutex = none := by
      match hmutex : s.mutex with
      | none => rfl
      | some .producer => exact absurd (hs.producer hmutex) hprod
      | some .consumer => exact absurd (hs.consumer hmutex) hcons
    obtain ⟨hpn, hcn⟩ := hw.done hi hcap (hp hm) (hc hm)
    have htail := hi.prod
    have hhead := hi.cons
    rw [hpn] at htail
    rw [hcn] at hhead
    exact ⟨hpn, hcn, hf.dequeued_of_all hhead.1 htail.1⟩

/-- Two items through a ring of one cell; the producer is woken once. -/
theorem lock_queue_ends_wait : ∃ (h : List (Event ℕ)) (s : State ℕ),
    (program 1 2 id).exec Signalled (initial fun _ => 7)
      (runs .producer 11 ++ runs .consumer 7 ++ runs .producer 5 ++ runs .consumer 7) = some (h, s) ∧
      30 ≤ 20 * 2 ∧ dequeued h = [0, 1] := by
  obtain ⟨⟨h, s⟩, hr, hstuck⟩ : ∃ r, (program 1 2 id).exec Signalled (initial fun _ => 7)
      (runs .producer 11 ++ runs .consumer 7 ++ runs .producer 5 ++ runs .consumer 7) = some r ∧
      ((step 1 2 id r.2 (.run .producer)).isNone && (step 1 2 id r.2 (.run .consumer)).isNone) = true :=
    (Option.any_eq_true _ _).mp (by decide +kernel)
  rw [Bool.and_eq_true, Option.isNone_iff_eq_none, Option.isNone_iff_eq_none] at hstuck
  obtain ⟨hle, hend⟩ := lock_queue_ends le_rfl hr
  refine ⟨h, s, hr, hle, (hend fun r => ?_).2.2⟩
  cases r with
  | producer => exact hstuck.1
  | consumer => exact hstuck.2

end LockQueue

end Multicore.Queues
