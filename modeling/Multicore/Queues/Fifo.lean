import Multicore.Runs.Cyclic
import Multicore.Runs.Program
import Mathlib.Data.List.Basic

/-! Bounded queues in the abstract and the ring buffer under them. The abstract
queue is a list that takes an item while it has room and gives up its front; its
histories are the first-in first-out ones. A ring of `capacity` cells holds the
window of items between two counters, and writing at the far counter keeps the
window as long as it is not full. -/

namespace Multicore.Queues

open Runs

variable {α : Type*}

/-- An item passed to a completed `enqueue`, or returned by a `dequeue`. -/
inductive Event (α : Type*)
  | enqueue (x : α) | dequeue (x : α)

def enqueued (h : List (Event α)) : List α :=
  h.filterMap fun | .enqueue x => some x | _ => none

def dequeued (h : List (Event α)) : List α :=
  h.filterMap fun | .dequeue x => some x | _ => none

@[simp] theorem enqueued_append (h k : List (Event α)) :
    enqueued (h ++ k) = enqueued h ++ enqueued k := List.filterMap_append

@[simp] theorem dequeued_append (h k : List (Event α)) :
    dequeued (h ++ k) = dequeued h ++ dequeued k := List.filterMap_append

@[simp] theorem enqueued_enqueue (x : α) : enqueued [.enqueue x] = [x] := rfl

@[simp] theorem enqueued_dequeue (x : α) : enqueued [.dequeue x] = [] := rfl

@[simp] theorem dequeued_enqueue (x : α) : dequeued [.enqueue x] = [] := rfl

@[simp] theorem dequeued_dequeue (x : α) : dequeued [.dequeue x] = [x] := rfl

/-- A bounded queue can show `h` and then hold `l`. -/
inductive BoundedFifo (capacity : ℕ) : List (Event α) → List α → Prop
  | nil : BoundedFifo capacity [] []
  | enqueue {h : List (Event α)} {l : List α} (x : α) : BoundedFifo capacity h l →
      l.length < capacity → BoundedFifo capacity (h ++ [.enqueue x]) (l ++ [x])
  | dequeue {h : List (Event α)} {l : List α} {x : α} : BoundedFifo capacity h (x :: l) →
      BoundedFifo capacity (h ++ [.dequeue x]) l

namespace BoundedFifo

variable {capacity : ℕ} {h : List (Event α)} {l : List α}

/-- What went in is what came out followed by what is held. -/
theorem enqueued_eq (hf : BoundedFifo capacity h l) : enqueued h = dequeued h ++ l := by
  induction hf with
  | nil => rfl
  | enqueue x _ _ ih => simp [ih]
  | dequeue _ ih => simp [ih]

end BoundedFifo

/-! ### The ring -/

/-- The cells of the ring hold the items numbered from `head` to `tail`. -/
def Window (capacity : ℕ) (item : ℕ → α) (cells : ℕ → α) (head tail : ℕ) : Prop :=
  ∀ k, head ≤ k → k < tail → cells (k % capacity) = item k

section Window
variable {capacity head tail : ℕ} {item cells : ℕ → α}

theorem window_empty (capacity : ℕ) (item cells : ℕ → α) (head : ℕ) :
    Window capacity item cells head head := fun _ h1 h2 => absurd h2 (by omega)

/-- A write at the far counter of a window with room disturbs no item. -/
theorem Window.write (hw : Window capacity item cells head tail) (hroom : tail < head + capacity)
    (x : α) : Window capacity item (Function.update cells (tail % capacity) x) head tail := by
  intro k h1 h2
  rw [Function.update_of_ne (cell_ne h2 (by omega))]
  exact hw k h1 h2

theorem Window.extend (hw : Window capacity item cells head tail)
    (hx : cells (tail % capacity) = item tail) : Window capacity item cells head (tail + 1) := by
  intro k h1 h2
  rcases Nat.lt_succ_iff_lt_or_eq.mp h2 with h | rfl
  · exact hw k h1 h
  · exact hx

theorem Window.advance (hw : Window capacity item cells head tail) :
    Window capacity item cells (head + 1) tail := fun k h1 h2 => hw k (by omega) h2

end Window

/-- The items of a window, front first. -/
def contents (item : ℕ → α) (head tail : ℕ) : List α :=
  (List.range' head (tail - head)).map item

@[simp] theorem length_contents (item : ℕ → α) (head tail : ℕ) :
    (contents item head tail).length = tail - head := by simp [contents]

theorem contents_extend (item : ℕ → α) {head tail : ℕ} (h : head ≤ tail) :
    contents item head (tail + 1) = contents item head tail ++ [item tail] := by
  obtain ⟨d, rfl⟩ := Nat.exists_eq_add_of_le h
  have h1 : head + d + 1 - head = d + 1 := by omega
  have h2 : head + d - head = d := by omega
  simp only [contents, h1, h2, List.range'_1_concat, List.map_append, List.map_cons, List.map_nil]

theorem contents_advance (item : ℕ → α) {head tail : ℕ} (h : head < tail) :
    contents item head tail = item head :: contents item (head + 1) tail := by
  obtain ⟨d, rfl⟩ := Nat.exists_eq_add_of_lt h
  have h1 : head + d + 1 - head = d + 1 := by omega
  have h2 : head + d + 1 - (head + 1) = d := by omega
  simp only [contents, h1, h2, List.range'_succ, List.map_cons]

/-- The history `h` is one of the bounded queue that holds the window from `head` to
`tail`, and the items went in in their order. -/
structure Refines (capacity : ℕ) (item : ℕ → α) (h : List (Event α)) (head tail : ℕ) : Prop where
  fifo : BoundedFifo capacity h (contents item head tail)
  order : enqueued h = (List.range tail).map item

section Refines
variable {capacity head tail : ℕ} {item : ℕ → α} {h : List (Event α)}

theorem Refines.nil (capacity : ℕ) (item : ℕ → α) : Refines capacity item [] 0 0 := ⟨.nil, rfl⟩

theorem Refines.enqueue (hr : Refines capacity item h head tail) (hle : head ≤ tail)
    (hroom : tail < head + capacity) :
    Refines capacity item (h ++ [.enqueue (item tail)]) head (tail + 1) := by
  refine ⟨?_, ?_⟩
  · rw [contents_extend item hle]
    exact hr.fifo.enqueue _ (by rw [length_contents]; omega)
  · rw [enqueued_append, hr.order, List.range_succ, List.map_append]
    rfl

theorem Refines.dequeue (hr : Refines capacity item h head tail) (hlt : head < tail) :
    Refines capacity item (h ++ [.dequeue (item head)]) (head + 1) tail := by
  refine ⟨?_, by simp [hr.order]⟩
  have hf := hr.fifo
  rw [contents_advance item hlt] at hf
  exact hf.dequeue

/-- The `k`-th item out is the `k`-th item in. -/
theorem Refines.dequeued_get (hr : Refines capacity item h head tail) {k : ℕ} {x : α}
    (hk : (dequeued h)[k]? = some x) : (enqueued h)[k]? = some x ∧ x = item k := by
  have hx : (enqueued h)[k]? = some x := by
    obtain ⟨hlt, -⟩ := List.getElem?_eq_some_iff.mp hk
    rw [hr.fifo.enqueued_eq, List.getElem?_append_left hlt, hk]
  refine ⟨hx, ?_⟩
  rw [hr.order, List.getElem?_map, Option.map_eq_some_iff] at hx
  obtain ⟨j, hj, rfl⟩ := hx
  obtain ⟨hlt, rfl⟩ := List.getElem?_eq_some_iff.mp hj
  rw [List.getElem_range]

end Refines

/-- The base class `Queue<T>`: the two counters and the array. -/
structure Queue (α : Type*) where
  head_ : ℕ
  tail_ : ℕ
  items : ℕ → α

/-- `(tail_ - head_) == capacity_` on the `int` counters. -/
def isFull (capacity tail_ head_ : ℕ) : Bool := (tail_ : ℤ) - head_ == capacity

theorem isFull_iff {capacity tail head : ℕ} :
    isFull capacity tail head = true ↔ tail = head + capacity := by
  rw [isFull, beq_iff_eq]
  omega

end Multicore.Queues
