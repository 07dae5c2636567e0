import Mathlib.Data.List.Basic
import Mathlib.Tactic.Common

/-! The `circular_buffer` of boost. It has a fixed capacity; when it is full, a new
element at one end overwrites the element at the other. -/

namespace Multicore.Reclaim

/-- The elements from front to back. -/
structure CircularBuffer (α : Type*) (capacity : ℕ) where
  elems : List α
  size_le : elems.length ≤ capacity
  deriving DecidableEq

namespace CircularBuffer

variable {α : Type*} {capacity : ℕ}

/-- A new buffer. -/
def nil : CircularBuffer α capacity := ⟨[], Nat.zero_le _⟩

def size (b : CircularBuffer α capacity) : ℕ := b.elems.length

def empty (b : CircularBuffer α capacity) : Bool := b.size == 0

def full (b : CircularBuffer α capacity) : Bool := b.size == capacity

/-- The first element; `front` and `pop_front` of an empty buffer are undefined. -/
def front (b : CircularBuffer α capacity) : Option α := b.elems.head?

def popFront (b : CircularBuffer α capacity) : CircularBuffer α capacity :=
  ⟨b.elems.tail, by have := b.size_le; rw [List.length_tail]; omega⟩

theorem size_lt {b : CircularBuffer α capacity} (h : b.full = false) : b.elems.length < capacity :=
  Nat.lt_of_le_of_ne b.size_le (beq_eq_false_iff_ne.mp h)

def pushBack (b : CircularBuffer α capacity) (item : α) : CircularBuffer α capacity :=
  if h : b.full = false then ⟨b.elems ++ [item], by rw [List.length_append]; exact size_lt h⟩
  else ⟨(b.elems ++ [item]).tail, by simpa using b.size_le⟩

def pushFront (b : CircularBuffer α capacity) (item : α) : CircularBuffer α capacity :=
  if h : b.full = false then ⟨item :: b.elems, size_lt h⟩
  else ⟨(item :: b.elems).dropLast, by simpa using b.size_le⟩

/-- From `b` to `b'` nothing happens, the first element leaves, or `push` adds one for which
there is room. -/
def Fits (push : CircularBuffer α capacity → α → CircularBuffer α capacity)
    (b b' : CircularBuffer α capacity) : Prop :=
  b' = b ∨ b' = b.popFront ∨ ∃ n, b.full = false ∧ b' = push b n

section Lemmas
variable {b : CircularBuffer α capacity} {n : α}

theorem empty_iff : b.empty = true ↔ b.elems = [] :=
  beq_iff_eq.trans List.length_eq_zero_iff

theorem front_eq_none (h : b.front = none) : b.elems = [] := List.head?_eq_none_iff.mp h

theorem elems_eq_cons (h : b.front = some n) : b.elems = n :: b.popFront.elems :=
  (List.cons_head?_tail h).symm

theorem pushBack_elems (h : b.full = false) : (b.pushBack n).elems = b.elems ++ [n] := by
  rw [pushBack, dif_pos h]

theorem pushFront_elems (h : b.full = false) : (b.pushFront n).elems = n :: b.elems := by
  rw [pushFront, dif_pos h]

end Lemmas

end CircularBuffer

end Multicore.Reclaim
