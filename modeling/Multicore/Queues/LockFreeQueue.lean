import Multicore.Queues.Fifo

/-! The lock-free queue of one producer and one consumer. Each call spins on a
test of the two counters, touches its cell and then bumps its own counter; every
read and write is an action of its own, the two reads of a test in either order.
Each counter has one writer, so the other side's view of it is only ever stale
in the safe direction, and the runs refine the bounded queue. -/

namespace Multicore.Queues.LockFreeQueue

open Runs

variable {α : Type*}

/-- The shared variable that a test reads next. -/
inductive Side
  | tail_ | head_

/-- The producer in its call number `i`; a test keeps what it has read. -/
inductive ProducerPc
  | idle (i : ℕ)
  | test (i : ℕ) (tail head : Option ℕ)
  | slot (i : ℕ)
  | store (i r : ℕ)
  | incr (i : ℕ)
  | bump (i r : ℕ)
  deriving DecidableEq

/-- The consumer in its call number `j`. -/
inductive ConsumerPc (α : Type*)
  | idle (j : ℕ)
  | test (j : ℕ) (tail head : Option ℕ)
  | slot (j : ℕ)
  | load (j r : ℕ)
  | incr (j : ℕ) (x : α)
  | bump (j : ℕ) (x : α) (r : ℕ)
  deriving DecidableEq

structure State (α : Type*) where
  q : Queue α
  prod : ProducerPc
  cons : ConsumerPc α

inductive Action
  | producer (next : Side) | consumer (next : Side)

/-- `while((tail_ - head_) == capacity_)`, decided once both are read. -/
def fullTest (capacity i : ℕ) : Option ℕ → Option ℕ → ProducerPc
  | some tail, some head => if isFull capacity tail head then .test i none none else .slot i
  | tail, head => .test i tail head

/-- `while(tail_ == head_)`, decided once both are read. -/
def emptyTest (j : ℕ) : Option ℕ → Option ℕ → ConsumerPc α
  | some tail, some head => if tail = head then .test j none none else .slot j
  | tail, head => .test j tail head

/-- One access of the producer in `enqueue(item i)`, for `i < n`. -/
def enqueue (capacity n : ℕ) (item : ℕ → α) (s : State α) (next : Side) : Option (State α) :=
  match s.prod with
  | .idle i => if i < n then some { s with prod := .test i none none } else none
  | .test i tail head => match next, tail, head with
    | .tail_, none, head => some { s with prod := fullTest capacity i (some s.q.tail_) head }
    | .head_, tail, none => some { s with prod := fullTest capacity i tail (some s.q.head_) }
    | _, _, _ => none
  -- items[tail_ % capacity_] = item reads the counter and writes the cell
  | .slot i => some { s with prod := .store i s.q.tail_ }
  | .store i r => some { s with
      q := { s.q with items := Function.update s.q.items (r % capacity) (item i) }
      prod := .incr i }
  | .incr i => some { s with prod := .bump i s.q.tail_ }
  | .bump i r => some { s with q := { s.q with tail_ := r + 1 }, prod := .idle (i + 1) }

/-- One access of the consumer in `dequeue()`. -/
def dequeue (capacity n : ℕ) (s : State α) (next : Side) : Option (State α) :=
  match s.cons with
  | .idle j => if j < n then some { s with cons := .test j none none } else none
  | .test j tail head => match next, tail, head with
    | .tail_, none, head => some { s with cons := emptyTest j (some s.q.tail_) head }
    | .head_, tail, none => some { s with cons := emptyTest j tail (some s.q.head_) }
    | _, _, _ => none
  | .slot j => some { s with cons := .load j s.q.head_ }
  | .load j r => some { s with cons := .incr j (s.q.items (r % capacity)) }
  | .incr j x => some { s with cons := .bump j x s.q.head_ }
  | .bump j _ r => some { s with q := { s.q with head_ := r + 1 }, cons := .idle (j + 1) }

def step (capacity n : ℕ) (item : ℕ → α) (s : State α) : Action → Option (State α)
  | .producer next => enqueue capacity n item s next
  | .consumer next => dequeue capacity n s next

/-- A call shows its item with the write that publishes it. -/
def shows (item : ℕ → α) (s : State α) : Action → List (Event α)
  | .producer _ => match s.prod with
    | .bump i _ => [.enqueue (item i)]
    | _ => []
  | .consumer _ => match s.cons with
    | .bump _ x _ => [.dequeue x]
    | _ => []

def program (capacity n : ℕ) (item : ℕ → α) : Program (State α) Action (Event α) where
  step := step capacity n item
  shows := shows item

/-- The array comes uninitialised from `new T[capacity]`. -/
def initial (items : ℕ → α) : State α := ⟨⟨0, 0, items⟩, .idle 0, .idle 0⟩

/-! ### The invariant -/

/-- What the producer knows at its place. -/
def ProducerAt (capacity n : ℕ) (item : ℕ → α) (q : Queue α) : ProducerPc → Prop
  | .idle i => q.tail_ = i ∧ i ≤ n
  | .test i tail head => q.tail_ = i ∧ i < n ∧ (∀ r, tail = some r → r = q.tail_) ∧
      ∀ r, head = some r → r ≤ q.head_ ∧ q.tail_ ≤ r + capacity
  | .slot i => q.tail_ = i ∧ i < n ∧ q.tail_ < q.head_ + capacity
  | .store i r => q.tail_ = i ∧ i < n ∧ q.tail_ < q.head_ + capacity ∧ r = q.tail_
  | .incr i => q.tail_ = i ∧ i < n ∧ q.tail_ < q.head_ + capacity ∧
      q.items (q.tail_ % capacity) = item i
  | .bump i r => q.tail_ = i ∧ i < n ∧ q.tail_ < q.head_ + capacity ∧
      q.items (q.tail_ % capacity) = item i ∧ r = q.tail_

/-- What the consumer knows at its place. -/
def ConsumerAt (n : ℕ) (item : ℕ → α) (q : Queue α) : ConsumerPc α → Prop
  | .idle j => q.head_ = j ∧ j ≤ n
  | .test j tail head => q.head_ = j ∧ j < n ∧ (∀ r, tail = some r → q.head_ ≤ r ∧ r ≤ q.tail_) ∧
      ∀ r, head = some r → r = q.head_
  | .slot j => q.head_ = j ∧ j < n ∧ q.head_ < q.tail_
  | .load j r => q.head_ = j ∧ j < n ∧ q.head_ < q.tail_ ∧ r = q.head_
  | .incr j x => q.head_ = j ∧ j < n ∧ q.head_ < q.tail_ ∧ x = item j
  | .bump j x r => q.head_ = j ∧ j < n ∧ q.head_ < q.tail_ ∧ x = item j ∧ r = q.head_

structure Inv (capacity n : ℕ) (item : ℕ → α) (s : State α) : Prop where
  le : s.q.head_ ≤ s.q.tail_
  room : s.q.tail_ ≤ s.q.head_ + capacity
  window : Window capacity item s.q.items s.q.head_ s.q.tail_
  prod : ProducerAt capacity n item s.q s.prod
  cons : ConsumerAt n item s.q s.cons

variable {capacity n : ℕ} {item : ℕ → α}

/-- The consumer's knowledge is not hurt by a producer that only moves `tail_` up. -/
theorem ConsumerAt.mono {q q' : Queue α} {pc : ConsumerPc α} (hc : ConsumerAt n item q pc)
    (hh : q'.head_ = q.head_) (ht : q.tail_ ≤ q'.tail_) : ConsumerAt n item q' pc := by
  cases pc <;> simp only [ConsumerAt, hh] at hc ⊢ <;> grind

/-- The producer's knowledge is not hurt by a consumer that only moves `head_` up. -/
theorem ProducerAt.mono {q q' : Queue α} {pc : ProducerPc} (hp : ProducerAt capacity n item q pc)
    (hh : q.head_ ≤ q'.head_) (ht : q'.tail_ = q.tail_) (hi : q'.items = q.items) :
    ProducerAt capacity n item q' pc := by
  cases pc <;> simp only [ProducerAt, ht, hi] at hp ⊢ <;> grind

/-- A full test that fails leaves room, although `head_` may be stale. -/
theorem producerAt_fullTest {q : Queue α} {i : ℕ} {tail head : Option ℕ} (hi : q.tail_ = i)
    (hn : i < n) (ht : ∀ r, tail = some r → r = q.tail_)
    (hh : ∀ r, head = some r → r ≤ q.head_ ∧ q.tail_ ≤ r + capacity) :
    ProducerAt capacity n item q (fullTest capacity i tail head) := by
  rcases tail with _ | tail
  · exact ⟨hi, hn, nofun, hh⟩
  rcases head with _ | head
  · exact ⟨hi, hn, ht, nofun⟩
  have h1 := ht tail rfl
  obtain ⟨h2, h3⟩ := hh head rfl
  simp only [fullTest]
  split
  · exact ⟨hi, hn, nofun, nofun⟩
  · rename_i hf
    rw [isFull_iff] at hf
    exact ⟨hi, hn, by omega⟩

/-- An empty test that fails leaves an item, although `tail_` may be stale. -/
theorem consumerAt_emptyTest {q : Queue α} {j : ℕ} {tail head : Option ℕ} (hj : q.head_ = j)
    (hn : j < n) (ht : ∀ r, tail = some r → q.head_ ≤ r ∧ r ≤ q.tail_)
    (hh : ∀ r, head = some r → r = q.head_) : ConsumerAt n item q (emptyTest j tail head) := by
  rcases tail with _ | tail
  · exact ⟨hj, hn, nofun, hh⟩
  rcases head with _ | head
  · exact ⟨hj, hn, ht, nofun⟩
  obtain ⟨h1, h2⟩ := ht tail rfl
  have h3 := hh head rfl
  simp only [emptyTest]
  split
  · exact ⟨hj, hn, nofun, nofun⟩
  · exact ⟨hj, hn, by omega⟩

/-- One access of the producer, with what it shows. -/
theorem Inv.enqueue {s s' : State α} {h : List (Event α)} {next : Side}
    (hi : Inv capacity n item s) (hf : Refines capacity item h s.q.head_ s.q.tail_)
    (ha : enqueue capacity n item s next = some s') :
    Inv capacity n item s' ∧
      Refines capacity item (h ++ shows item s (.producer next)) s'.q.head_ s'.q.tail_ := by
  obtain ⟨hle, hroom, hwin, hprod, hcons⟩ := hi
  cases hp : s.prod with
  | idle i =>
    rw [hp] at hprod
    simp only [LockFreeQueue.enqueue, hp, Option.ite_none_right_eq_some, Option.some.injEq] at ha
    obtain ⟨hlt, rfl⟩ := ha
    exact ⟨⟨hle, hroom, hwin, ⟨hprod.1, hlt, nofun, nofun⟩, hcons⟩, by simpa [shows, hp] using hf⟩
  | test i tail head =>
    rw [hp] at hprod
    obtain ⟨h1, h2, h3, h4⟩ := hprod
    have hsh : shows item s (.producer next) = [] := by simp only [shows, hp]
    rw [hsh, List.append_nil]
    cases next with
    | tail_ =>
      cases tail with
      | some r => simp only [LockFreeQueue.enqueue, hp, reduceCtorEq] at ha
      | none =>
        simp only [LockFreeQueue.enqueue, hp, Option.some.injEq] at ha
        subst ha
        exact ⟨⟨hle, hroom, hwin, producerAt_fullTest h1 h2 (by simp) h4, hcons⟩, hf⟩
    | head_ =>
      cases head with
      | some r => simp only [LockFreeQueue.enqueue, hp, reduceCtorEq] at ha
      | none =>
        simp only [LockFreeQueue.enqueue, hp, Option.some.injEq] at ha
        subst ha
        exact ⟨⟨hle, hroom, hwin, producerAt_fullTest h1 h2 h3 (by simpa using hroom), hcons⟩, hf⟩
  | slot i =>
    rw [hp] at hprod
    obtain ⟨h1, h2, h3⟩ := hprod
    simp only [LockFreeQueue.enqueue, hp, Option.some.injEq] at ha
    subst ha
    exact ⟨⟨hle, hroom, hwin, ⟨h1, h2, h3, rfl⟩, hcons⟩, by simpa [shows, hp] using hf⟩
  | store i r =>
    rw [hp] at hprod
    obtain ⟨h1, h2, h3, rfl⟩ := hprod
    simp only [LockFreeQueue.enqueue, hp, Option.some.injEq] at ha
    subst ha
    exact ⟨⟨hle, hroom, hwin.write h3 _, ⟨h1, h2, h3, Function.update_self ..⟩,
      hcons.mono rfl le_rfl⟩, by simpa [shows, hp] using hf⟩
  | incr i =>
    rw [hp] at hprod
    obtain ⟨h1, h2, h3, h4⟩ := hprod
    simp only [LockFreeQueue.enqueue, hp, Option.some.injEq] at ha
    subst ha
    exact ⟨⟨hle, hroom, hwin, ⟨h1, h2, h3, h4, rfl⟩, hcons⟩, by simpa [shows, hp] using hf⟩
  | bump i r =>
    rw [hp] at hprod
    obtain ⟨rfl, h2, h3, h4, rfl⟩ := hprod
    simp only [LockFreeQueue.enqueue, hp, Option.some.injEq] at ha
    subst ha
    refine ⟨⟨by simp only; omega, by simp only; omega, hwin.extend h4, ⟨rfl, by omega⟩,
      hcons.mono rfl (Nat.le_succ _)⟩, ?_⟩
    simpa only [shows, hp] using hf.enqueue hle h3

/-- One access of the consumer, with what it shows. -/
theorem Inv.dequeue {s s' : State α} {h : List (Event α)} {next : Side}
    (hi : Inv capacity n item s) (hf : Refines capacity item h s.q.head_ s.q.tail_)
    (ha : dequeue capacity n s next = some s') :
    Inv capacity n item s' ∧
      Refines capacity item (h ++ shows item s (.consumer next)) s'.q.head_ s'.q.tail_ := by
  obtain ⟨hle, hroom, hwin, hprod, hcons⟩ := hi
  cases hc : s.cons with
  | idle j =>
    rw [hc] at hcons
    simp only [LockFreeQueue.dequeue, hc, Option.ite_none_right_eq_some, Option.some.injEq] at ha
    obtain ⟨hlt, rfl⟩ := ha
    exact ⟨⟨hle, hroom, hwin, hprod, ⟨hcons.1, hlt, nofun, nofun⟩⟩, by simpa [shows, hc] using hf⟩
  | test j tail head =>
    rw [hc] at hcons
    obtain ⟨h1, h2, h3, h4⟩ := hcons
    have hsh : shows item s (.consumer next) = [] := by simp only [shows, hc]
    rw [hsh, List.append_nil]
    cases next with
    | tail_ =>
      cases tail with
      | some r => simp only [LockFreeQueue.dequeue, hc, reduceCtorEq] at ha
      | none =>
        simp only [LockFreeQueue.dequeue, hc, Option.some.injEq] at ha
        subst ha
        exact ⟨⟨hle, hroom, hwin, hprod, consumerAt_emptyTest h1 h2 (by simpa using hle) h4⟩, hf⟩
    | head_ =>
      cases head with
      | some r => simp only [LockFreeQueue.dequeue, hc, reduceCtorEq] at ha
      | none =>
        simp only [LockFreeQueue.dequeue, hc, Option.some.injEq] at ha
        subst ha
        exact ⟨⟨hle, hroom, hwin, hprod, consumerAt_emptyTest h1 h2 h3 (by simp)⟩, hf⟩
  | slot j =>
    rw [hc] at hcons
    obtain ⟨h1, h2, h3⟩ := hcons
    simp only [LockFreeQueue.dequeue, hc, Option.some.injEq] at ha
    subst ha
    exact ⟨⟨hle, hroom, hwin, hprod, ⟨h1, h2, h3, rfl⟩⟩, by simpa [shows, hc] using hf⟩
  | load j r =>
    rw [hc] at hcons
    obtain ⟨rfl, h2, h3, rfl⟩ := hcons
    simp only [LockFreeQueue.dequeue, hc, Option.some.injEq] at ha
    subst ha
    exact ⟨⟨hle, hroom, hwin, hprod, ⟨rfl, h2, h3, hwin _ le_rfl h3⟩⟩, by simpa [shows, hc] using hf⟩
  | incr j x =>
    rw [hc] at hcons
    obtain ⟨h1, h2, h3, h4⟩ := hcons
    simp only [LockFreeQueue.dequeue, hc, Option.some.injEq] at ha
    subst ha
    exact ⟨⟨hle, hroom, hwin, hprod, ⟨h1, h2, h3, h4, rfl⟩⟩, by simpa [shows, hc] using hf⟩
  | bump j x r =>
    rw [hc] at hcons
    obtain ⟨rfl, h2, h3, rfl, rfl⟩ := hcons
    simp only [LockFreeQueue.dequeue, hc, Option.some.injEq] at ha
    subst ha
    refine ⟨⟨by simp only; omega, by simp only; omega, hwin.advance,
      hprod.mono (Nat.le_succ _) rfl rfl, ⟨rfl, by omega⟩⟩, ?_⟩
    simpa only [shows, hc] using hf.dequeue h3

theorem Inv.initial (capacity n : ℕ) (item items : ℕ → α) :
    Inv capacity n item (initial items) :=
  ⟨le_rfl, Nat.zero_le _, window_empty _ _ _ _, ⟨rfl, Nat.zero_le _⟩, ⟨rfl, Nat.zero_le _⟩⟩

theorem inv_of_run {items : ℕ → α} {h : List (Event α)} {s : State α}
    (hr : Run (program capacity n item) Free (initial items) h s) :
    Inv capacity n item s ∧ Refines capacity item h s.q.head_ s.q.tail_ := by
  refine hr.invariant
    (I := fun h s => Inv capacity n item s ∧ Refines capacity item h s.q.head_ s.q.tail_)
    ⟨Inv.initial capacity n item items, Refines.nil capacity item⟩ (fun h s a s' hi _ ha => ?_)
  cases a with
  | producer next => exact hi.1.enqueue hi.2 ha
  | consumer next => exact hi.1.dequeue hi.2 ha

theorem Inv.tail_le {s : State α} (hi : Inv capacity n item s) : s.q.tail_ ≤ n := by
  have hp := hi.prod
  cases h : s.prod <;> simp only [h, ProducerAt] at hp <;> omega

/-- The lock-free queue refines the bounded queue: the counters stay within one
capacity and within `int`, the cell about to be written holds no unread item, and
what comes out is what went in, in order. -/
theorem lock_free_queue_fifo {capacity n : ℕ} (hn : n < 2 ^ 31) (item items : ℕ → α)
    {h : List (Event α)} {s : State α}
    (hr : Run (program capacity n item) Free (initial items) h s) :
    (s.q.head_ ≤ s.q.tail_ ∧ s.q.tail_ ≤ s.q.head_ + capacity ∧ s.q.tail_ < 2 ^ 31) ∧
      (∀ i r, s.prod = .store i r → ∀ k, s.q.head_ ≤ k → k < s.q.tail_ →
        k % capacity ≠ r % capacity) ∧
      BoundedFifo capacity h (contents item s.q.head_ s.q.tail_) ∧
      ∀ k x, (dequeued h)[k]? = some x → (enqueued h)[k]? = some x ∧ x = item k := by
  obtain ⟨hi, hf⟩ := inv_of_run hr
  have htail := hi.tail_le
  refine ⟨⟨hi.le, hi.room, by omega⟩, fun i r hp k hk hkt => ?_, hf.fifo, fun k x => hf.dequeued_get⟩
  have hprod := hi.prod
  rw [hp] at hprod
  obtain ⟨-, -, hlt, rfl⟩ := hprod
  exact cell_ne hkt (by omega)

/-- Two items through a ring of one cell. -/
theorem lock_free_queue_fifo_wrap : ∃ h s,
    Run (program 1 2 (fun i => 10 + i)) Free (initial fun _ => 0) h s ∧ s.q.tail_ = 2 ∧
      s.q.head_ = 1 ∧ dequeued h = [10] ∧ ∀ k x, (dequeued h)[k]? = some x → x = 10 + k := by
  obtain ⟨h, s, hr, ht⟩ := exists_run_of_exec (C := Free) (P := program 1 2 fun i => 10 + i)
    (s := initial fun _ => 0)
    (List.flatten [List.replicate 2 (.producer .tail_), [.producer .head_], List.replicate 4 (.producer .tail_),
      [.consumer .tail_, .consumer .tail_, .consumer .head_], List.replicate 4 (.consumer .tail_),
      [.producer .tail_, .producer .head_, .producer .tail_], List.replicate 4 (.producer .tail_)])
    (fun h s => s.q.tail_ == 2 && s.q.head_ == 1 && dequeued h == [10]) (by decide +kernel)
  simp only [Bool.and_eq_true, beq_iff_eq] at ht
  exact ⟨h, s, hr, ht.1.1, ht.1.2, ht.2,
    fun k x hk => ((lock_free_queue_fifo (by decide) _ _ hr).2.2.2 k x hk).2⟩

end Multicore.Queues.LockFreeQueue
