import Multicore.Reclaim.CircularBuffer
import Multicore.Runs.Program
import Mathlib.Data.List.Range

/-! The ring under a `circular_buffer`. The elements lie in one block of memory between `m_buff`
and `m_end`, from `m_first` on and around its end. Pointers are offsets from `m_buff`. The build is
the one with assertions, in which a place that holds no element is filled with `UNINITIALIZED`. Run
for run the ring answers what the list of its elements answers, whatever it is filled with, and it
writes nowhere outside its block. -/

namespace Multicore.Reclaim

open Runs

namespace Ring

/-! ### Pointers -/

def increment (capacity p : ℕ) : ℕ := if p + 1 = capacity then 0 else p + 1

def decrement (capacity p : ℕ) : ℕ := (if p = 0 then capacity else p) - 1

/-- `p + (n < (m_end - p) ? n : n - capacity())`. -/
def add (capacity p n : ℕ) : ℕ := if n < capacity - p then p + n else p + n - capacity

section Pointers
variable {c p m n : ℕ}

theorem increment_lt (hp : p < c) : increment c p < c := by
  unfold increment
  split <;> omega

theorem decrement_lt (hp : p < c) : decrement c p < c := by
  unfold decrement
  split <;> omega

theorem increment_decrement (hp : p < c) : increment c (decrement c p) = p := by
  unfold increment decrement
  split <;> split <;> omega

theorem add_lt (hp : p < c) (hn : n ≤ c) : add c p n < c := by
  unfold add
  split <;> omega

theorem add_zero (hp : p < c) : add c p 0 = p := by
  unfold add
  split <;> omega

theorem add_capacity (hp : p < c) : add c p c = p := by
  unfold add
  split <;> omega

theorem add_ne (hm : m < n) (hn : n < c) (hp : p < c) : add c p m ≠ add c p n := by
  unfold add
  split <;> split <;> omega

/-- A full turn after the place. -/
theorem add_increment_pred (hp : p < c) : add c (increment c p) (c - 1) = p := by
  unfold increment add
  split <;> split <;> omega

theorem increment_add (hp : p < c) (hn : n < c) : increment c (add c p n) = add c p (n + 1) := by
  unfold increment add
  split <;> split <;> split <;> omega

theorem add_increment (hp : p < c) (hn : n < c) : add c (increment c p) n = add c p (n + 1) := by
  unfold increment add
  split <;> split <;> split <;> omega

/-- The place before the first is the one before the end of a full turn. -/
theorem decrement_eq_add (hp : p < c) : decrement c p = add c p (c - 1) := by
  unfold decrement add
  split <;> split <;> omega

end Pointers

/-! ### Cells -/

section Cells
variable {α : Type*} {buff : ℕ → α} {c p n k : ℕ} {item : α}

/-- The contents of `n` cells from `p` on. -/
def cells (capacity : ℕ) (buff : ℕ → α) (p n : ℕ) : List α :=
  (List.range n).map fun i => buff (add capacity p i)

@[simp] theorem cells_length (c : ℕ) (buff : ℕ → α) (p n : ℕ) : (cells c buff p n).length = n := by
  rw [cells, List.length_map, List.length_range]

theorem cells_snoc (c : ℕ) (buff : ℕ → α) (p n : ℕ) :
    cells c buff p (n + 1) = cells c buff p n ++ [buff (add c p n)] := by
  rw [cells, List.range_succ, List.map_append]
  rfl

theorem cells_cons (hp : p < c) (hn : n < c) :
    cells c buff p (n + 1) = buff p :: cells c buff (increment c p) n := by
  rw [cells, List.range_succ_eq_map, List.map_cons, List.map_map, add_zero hp, cells]
  congr 1
  refine List.map_congr_left fun i hi => ?_
  have hi := List.mem_range.mp hi
  rw [add_increment hp (hi.trans hn)]
  rfl

/-- A write to a cell that is not among them. -/
theorem cells_write (buff : ℕ → α) (item : α) (hp : p < c) (hn : n ≤ k) (hk : k < c) :
    cells c (Function.update buff (add c p k) item) p n = cells c buff p n :=
  List.map_congr_left fun _ hi =>
    Function.update_of_ne (add_ne ((List.mem_range.mp hi).trans_le hn) hk hp) ..

end Cells

end Ring

/-- The members of a `circular_buffer`, with `m_end` the offset `capacity`. -/
structure Ring (α : Type*) (capacity : ℕ) where
  mBuff : ℕ → α
  mFirst : ℕ
  mLast : ℕ
  mSize : ℕ
  size_le : mSize ≤ capacity
  first_lt : 0 < capacity → mFirst < capacity
  last_eq : 0 < capacity → mLast = Ring.add capacity mFirst mSize

namespace Ring

variable {α : Type*} {capacity : ℕ}

/-- The block is filled; the memory after it may hold anything. -/
def allocate (uninitialized : α) (capacity : ℕ) (memory : ℕ → α) : ℕ → α :=
  fun p => if p < capacity then uninitialized else memory p

/-- A new buffer with room for `capacity` elements. -/
def new (uninitialized : α) (memory : ℕ → α) : Ring α capacity :=
  ⟨allocate uninitialized capacity memory, 0, 0, 0, Nat.zero_le _, id, fun h => (add_zero h).symm⟩

def size (r : Ring α capacity) : ℕ := r.mSize

def empty (r : Ring α capacity) : Bool := r.size == 0

def full (r : Ring α capacity) : Bool := capacity == r.size

/-- `*m_first`; the assertion is that the buffer is not empty. -/
def front (r : Ring α capacity) : Option α := if r.empty then none else some (r.mBuff r.mFirst)

/-- `operator []`; the assertion is that the index is below the size. -/
def at? (r : Ring α capacity) (index : ℕ) : Option α :=
  if index < r.size then some (r.mBuff (add capacity r.mFirst index)) else none

section Room
variable {r : Ring α capacity}

theorem full_iff : r.full = true ↔ r.mSize = capacity := beq_iff_eq.trans eq_comm

theorem empty_iff : r.empty = true ↔ r.mSize = 0 := beq_iff_eq

theorem size_lt (h : ¬ r.full = true) : r.mSize < capacity :=
  Nat.lt_of_le_of_ne r.size_le (mt full_iff.mpr h)

theorem capacity_pos (h : ¬ r.empty = true) : 0 < capacity :=
  (Nat.pos_of_ne_zero (mt empty_iff.mpr h)).trans_le r.size_le

theorem last_eq_first (hfull : r.full = true) (hempty : ¬ r.empty = true) : r.mLast = r.mFirst := by
  have hpos := capacity_pos hempty
  rw [r.last_eq hpos, full_iff.mp hfull, add_capacity (r.first_lt hpos)]

theorem last_lt (hpos : 0 < capacity) : r.mLast < capacity := by
  rw [r.last_eq hpos]
  exact add_lt (r.first_lt hpos) r.size_le

end Room

def pushBack (r : Ring α capacity) (item : α) : Ring α capacity :=
  if hfull : r.full then
    if hempty : r.empty then r
    else
      { mBuff := Function.update r.mBuff r.mLast item
        mFirst := increment capacity r.mLast
        mLast := increment capacity r.mLast
        mSize := r.mSize
        size_le := r.size_le
        first_lt := fun hpos => increment_lt (last_lt hpos)
        last_eq := fun hpos => by rw [full_iff.mp hfull, add_capacity (increment_lt (last_lt hpos))] }
  else
    { mBuff := Function.update r.mBuff r.mLast item
      mFirst := r.mFirst
      mLast := increment capacity r.mLast
      mSize := r.mSize + 1
      size_le := size_lt hfull
      first_lt := r.first_lt
      last_eq := fun hpos => by rw [r.last_eq hpos, increment_add (r.first_lt hpos) (size_lt hfull)] }

def pushFront (r : Ring α capacity) (item : α) : Ring α capacity :=
  if hfull : r.full then
    if hempty : r.empty then r
    else
      { mBuff := Function.update r.mBuff (decrement capacity r.mFirst) item
        mFirst := decrement capacity r.mFirst
        mLast := decrement capacity r.mFirst
        mSize := r.mSize
        size_le := r.size_le
        first_lt := fun hpos => decrement_lt (r.first_lt hpos)
        last_eq := fun hpos => by rw [full_iff.mp hfull, add_capacity (decrement_lt (r.first_lt hpos))] }
  else
    { mBuff := Function.update r.mBuff (decrement capacity r.mFirst) item
      mFirst := decrement capacity r.mFirst
      mLast := r.mLast
      mSize := r.mSize + 1
      size_le := size_lt hfull
      first_lt := fun hpos => decrement_lt (r.first_lt hpos)
      last_eq := fun hpos => by
        rw [r.last_eq hpos, ← add_increment (decrement_lt (r.first_lt hpos)) (size_lt hfull),
          increment_decrement (r.first_lt hpos)] }

/-- To destroy a pointer is to do nothing to it; its place is filled. -/
def destroyItem (uninitialized : α) (buff : ℕ → α) (p : ℕ) : ℕ → α := Function.update buff p uninitialized

def popFront (uninitialized : α) (r : Ring α capacity) (hempty : ¬ r.empty) : Ring α capacity where
  mBuff := destroyItem uninitialized r.mBuff r.mFirst
  mFirst := increment capacity r.mFirst
  mLast := r.mLast
  mSize := r.mSize - 1
  size_le := (Nat.sub_le ..).trans r.size_le
  first_lt hpos := increment_lt (r.first_lt hpos)
  last_eq hpos := by
    have hsize : r.mSize - 1 + 1 = r.mSize := Nat.succ_pred (mt empty_iff.mpr hempty)
    rw [add_increment (r.first_lt hpos) (by have := r.size_le; omega), hsize, r.last_eq hpos]

/-! ### The elements -/

def elems (r : Ring α capacity) : List α := cells capacity r.mBuff r.mFirst r.mSize

def toBuffer (r : Ring α capacity) : CircularBuffer α capacity :=
  ⟨r.elems, (cells_length ..).trans_le r.size_le⟩

section Elements
variable {r u : Ring α capacity} {item uninitialized : α}

theorem elems_length (r : Ring α capacity) : r.elems.length = r.size := cells_length ..

theorem at?_eq (r : Ring α capacity) (i : ℕ) : r.at? i = r.elems[i]? := by
  unfold at?
  split
  · rw [List.getElem?_eq_getElem (by rwa [elems_length])]
    simp only [elems, cells, List.getElem_map, List.getElem_range]
  · rw [List.getElem?_eq_none (by rw [elems_length]; omega)]

theorem front_eq (r : Ring α capacity) : r.front = r.elems.head? := by
  rw [List.head?_eq_getElem?, ← at?_eq, front, at?, size]
  by_cases h : r.empty = true
  · rw [if_pos h, if_neg (by rw [empty_iff.mp h]; exact Nat.lt_irrefl 0)]
  · have hne := mt empty_iff.mpr h
    rw [if_neg h, if_pos (Nat.pos_of_ne_zero hne), add_zero (r.first_lt (capacity_pos h))]

theorem elems_popFront (hempty : ¬ r.empty) : (r.popFront uninitialized hempty).elems = r.elems.tail := by
  obtain ⟨k, hk⟩ := Nat.exists_eq_succ_of_ne_zero (mt empty_iff.mpr hempty)
  have hkc : k < capacity := Nat.lt_of_lt_of_le (hk ▸ Nat.lt_succ_self k) r.size_le
  have hfirst := r.first_lt (capacity_pos hempty)
  -- the place that is filled is the last one from the next element on, and `k` elements are left
  have hwrite := cells_write r.mBuff uninitialized (increment_lt hfirst) (Nat.le_pred_of_lt hkc)
    (Nat.sub_lt (capacity_pos hempty) Nat.one_pos)
  rw [Nat.pred_eq_sub_one, add_increment_pred hfirst] at hwrite
  have hcells : (r.popFront uninitialized hempty).elems =
      cells capacity (Function.update r.mBuff r.mFirst uninitialized) (increment capacity r.mFirst) k := by
    show cells capacity _ _ (r.mSize - 1) = _
    rw [hk]
    rfl
  rw [hcells, hwrite, elems, hk, cells_cons hfirst hkc, List.tail_cons]

theorem elems_pushBack (hfull : ¬ r.full) : (r.pushBack item).elems = r.elems ++ [item] := by
  have hpos : 0 < capacity := (Nat.zero_le _).trans_lt (size_lt hfull)
  have hcells : (r.pushBack item).elems =
      cells capacity (Function.update r.mBuff r.mLast item) r.mFirst (r.mSize + 1) := by
    rw [pushBack, dif_neg hfull]
    rfl
  rw [hcells, r.last_eq hpos, cells_snoc, cells_write _ _ (r.first_lt hpos) le_rfl (size_lt hfull),
    Function.update_self]
  rfl

/-- When the buffer is full a new element takes the place of the one at the other end. -/
theorem elems_pushBack_full (hfull : r.full) : (r.pushBack item).elems = (r.elems ++ [item]).tail := by
  by_cases hempty : r.empty = true
  · have hnil : r.elems = [] := by rw [elems, empty_iff.mp hempty]; rfl
    rw [pushBack, dif_pos hfull, dif_pos hempty, hnil]
    rfl
  have hfirst := r.first_lt (capacity_pos hempty)
  have hlast := last_eq_first hfull hempty
  obtain ⟨k, hk⟩ := Nat.exists_eq_succ_of_ne_zero (mt empty_iff.mpr hempty)
  have hkc : k + 1 = capacity := hk.symm.trans (full_iff.mp hfull)
  have hk_lt : k < capacity := hkc ▸ Nat.lt_succ_self k
  have hcells : (r.pushBack item).elems =
      cells capacity (Function.update r.mBuff r.mLast item) (increment capacity r.mLast) r.mSize := by
    rw [pushBack, dif_pos hfull, dif_neg hempty]
    rfl
  have hplace : add capacity (increment capacity r.mFirst) k = r.mFirst := by
    rw [add_increment hfirst hk_lt, hkc, add_capacity hfirst]
  have hwrite := cells_write r.mBuff item (increment_lt hfirst) (Nat.le_refl k) hk_lt
  rw [hplace] at hwrite
  rw [hcells, hlast, hk, cells_snoc, hwrite, hplace, Function.update_self, elems, hk,
    cells_cons hfirst hk_lt]
  rfl

/-- The cells after a push to the front, full or not. -/
theorem cells_pushFront {n : ℕ} (hfirst : r.mFirst < capacity) (hn : n < capacity) :
    cells capacity (Function.update r.mBuff (decrement capacity r.mFirst) item)
      (decrement capacity r.mFirst) (n + 1) = item :: cells capacity r.mBuff r.mFirst n := by
  rw [cells_cons (decrement_lt hfirst) hn, Function.update_self, increment_decrement hfirst,
    decrement_eq_add hfirst, cells_write _ _ hfirst (by omega) (by omega)]

theorem elems_pushFront (hfull : ¬ r.full) : (r.pushFront item).elems = item :: r.elems := by
  have hcells : (r.pushFront item).elems =
      cells capacity (Function.update r.mBuff (decrement capacity r.mFirst) item)
        (decrement capacity r.mFirst) (r.mSize + 1) := by
    rw [pushFront, dif_neg hfull]
    rfl
  rw [hcells, cells_pushFront (r.first_lt ((Nat.zero_le _).trans_lt (size_lt hfull))) (size_lt hfull)]
  rfl

theorem elems_pushFront_full (hfull : r.full) :
    (r.pushFront item).elems = (item :: r.elems).dropLast := by
  by_cases hempty : r.empty = true
  · have hnil : r.elems = [] := by rw [elems, empty_iff.mp hempty]; rfl
    rw [pushFront, dif_pos hfull, dif_pos hempty, hnil]
    rfl
  have hfirst := r.first_lt (capacity_pos hempty)
  obtain ⟨k, hk⟩ := Nat.exists_eq_succ_of_ne_zero (mt empty_iff.mpr hempty)
  have hk_lt : k < capacity := by rw [← full_iff.mp hfull, hk]; exact Nat.lt_succ_self k
  have hcells : (r.pushFront item).elems =
      cells capacity (Function.update r.mBuff (decrement capacity r.mFirst) item)
        (decrement capacity r.mFirst) r.mSize := by
    rw [pushFront, dif_pos hfull, dif_neg hempty]
    rfl
  rw [hcells, hk, cells_pushFront hfirst hk_lt, elems, hk, cells_snoc, ← List.cons_append,
    List.dropLast_concat]

/-- A push writes inside the block. -/
theorem pushBack_frame (r : Ring α capacity) (item : α) {p : ℕ} (hp : capacity ≤ p) :
    (r.pushBack item).mBuff p = r.mBuff p := by
  have hwrite : 0 < capacity → Function.update r.mBuff r.mLast item p = r.mBuff p := fun hpos =>
    Function.update_of_ne ((last_lt hpos).trans_le hp).ne' ..
  unfold pushBack
  split
  · split
    · rfl
    · exact hwrite (capacity_pos ‹_›)
  · exact hwrite ((Nat.zero_le _).trans_lt (size_lt ‹_›))

theorem popFront_frame (hempty : ¬ r.empty) {p : ℕ} (hp : capacity ≤ p) :
    (r.popFront uninitialized hempty).mBuff p = r.mBuff p :=
  Function.update_of_ne ((r.first_lt (capacity_pos hempty)).trans_le hp).ne' ..

theorem pushFront_frame (r : Ring α capacity) (item : α) {p : ℕ} (hp : capacity ≤ p) :
    (r.pushFront item).mBuff p = r.mBuff p := by
  have hwrite : 0 < capacity →
      Function.update r.mBuff (decrement capacity r.mFirst) item p = r.mBuff p := fun hpos =>
    Function.update_of_ne ((decrement_lt (r.first_lt hpos)).trans_le hp).ne' ..
  unfold pushFront
  split
  · split
    · rfl
    · exact hwrite (capacity_pos ‹_›)
  · exact hwrite ((Nat.zero_le _).trans_lt (size_lt ‹_›))

end Elements

/-! ### The list of the elements -/

section Buffer
variable {r : Ring α capacity} {uninitialized item : α}

theorem toBuffer_eq {b : CircularBuffer α capacity} (h : r.elems = b.elems) : r.toBuffer = b := by
  cases b
  cases h
  rfl

theorem toBuffer_size (r : Ring α capacity) : r.toBuffer.size = r.size := elems_length r

theorem toBuffer_full (r : Ring α capacity) : r.toBuffer.full = r.full := by
  rw [CircularBuffer.full, toBuffer_size, full, Bool.beq_comm]

theorem toBuffer_empty (r : Ring α capacity) : r.toBuffer.empty = r.empty := by
  rw [CircularBuffer.empty, toBuffer_size, empty]

theorem toBuffer_new (uninitialized : α) (memory : ℕ → α) :
    (new uninitialized memory : Ring α capacity).toBuffer = .nil := rfl

theorem toBuffer_pushBack (r : Ring α capacity) (item : α) :
    (r.pushBack item).toBuffer = r.toBuffer.pushBack item := by
  refine toBuffer_eq ?_
  unfold CircularBuffer.pushBack
  split
  · rename_i hfull
    exact elems_pushBack (by rw [← toBuffer_full, hfull]; exact Bool.false_ne_true)
  · rename_i hfull
    exact elems_pushBack_full (by rwa [Bool.not_eq_false, toBuffer_full] at hfull)

theorem toBuffer_pushFront (r : Ring α capacity) (item : α) :
    (r.pushFront item).toBuffer = r.toBuffer.pushFront item := by
  refine toBuffer_eq ?_
  unfold CircularBuffer.pushFront
  split
  · rename_i hfull
    exact elems_pushFront (by rw [← toBuffer_full, hfull]; exact Bool.false_ne_true)
  · rename_i hfull
    exact elems_pushFront_full (by rwa [Bool.not_eq_false, toBuffer_full] at hfull)

theorem toBuffer_popFront (hempty : ¬ r.empty) :
    (r.popFront uninitialized hempty).toBuffer = r.toBuffer.popFront :=
  toBuffer_eq (elems_popFront hempty)

end Buffer

/-! ### Runs of calls -/

/-- The calls that the garbage collector makes, and those of `operator []`. -/
inductive Call (α : Type*)
  | pushBack (item : α) | pushFront (item : α) | popFront | front | index (i : ℕ) | size | empty | full

inductive Answer (α : Type*)
  | void | item (a : α) | number (n : ℕ) | flag (b : Bool)

/-- The next buffer and the answer; a call whose assertion fails has none. -/
def call (uninitialized : α) (r : Ring α capacity) : Call α → Option (Ring α capacity × Answer α)
  | .pushBack item => some (r.pushBack item, .void)
  | .pushFront item => some (r.pushFront item, .void)
  | .popFront => if hempty : r.empty then none else some (r.popFront uninitialized hempty, .void)
  | .front => r.front.map fun a => (r, .item a)
  | .index i => (r.at? i).map fun a => (r, .item a)
  | .size => some (r, .number r.size)
  | .empty => some (r, .flag r.empty)
  | .full => some (r, .flag r.full)

/-- The same calls for the list of the elements. -/
def listCall (b : CircularBuffer α capacity) : Call α → Option (CircularBuffer α capacity × Answer α)
  | .pushBack item => some (b.pushBack item, .void)
  | .pushFront item => some (b.pushFront item, .void)
  | .popFront => if b.empty then none else some (b.popFront, .void)
  | .front => b.front.map fun a => (b, .item a)
  | .index i => (b.elems[i]?).map fun a => (b, .item a)
  | .size => some (b, .number b.size)
  | .empty => some (b, .flag b.empty)
  | .full => some (b, .flag b.full)

/-- A run shows the calls with their answers. -/
def calls {B : Type*} (call : B → Call α → Option (B × Answer α)) : Program B (Call α) (Call α × Answer α) where
  step b c := (call b c).map Prod.fst
  shows b c := ((call b c).map fun r => (c, r.2)).toList

theorem call_toBuffer (uninitialized : α) (r : Ring α capacity) (c : Call α) :
    listCall r.toBuffer c = (r.call uninitialized c).map fun x => (x.1.toBuffer, x.2) := by
  cases c with
  | pushBack item => simp only [listCall, call, Option.map_some, toBuffer_pushBack]
  | pushFront item => simp only [listCall, call, Option.map_some, toBuffer_pushFront]
  | popFront =>
    simp only [listCall, call, toBuffer_empty]
    by_cases hempty : r.empty = true
    · rw [if_pos hempty, dif_pos hempty, Option.map_none]
    · rw [if_neg hempty, dif_neg hempty, Option.map_some, toBuffer_popFront]
  | front =>
    have hfront : r.toBuffer.front = r.front := (front_eq r).symm
    simp only [listCall, call, hfront, Option.map_map]
    rfl
  | index i =>
    have hindex : r.toBuffer.elems[i]? = r.at? i := (at?_eq r i).symm
    simp only [listCall, call, hindex, Option.map_map]
    rfl
  | size => simp only [listCall, call, Option.map_some, toBuffer_size]
  | empty => simp only [listCall, call, Option.map_some, toBuffer_empty]
  | full => simp only [listCall, call, Option.map_some, toBuffer_full]

theorem call_frame {uninitialized : α} {r u : Ring α capacity} {c : Call α} {a : Answer α}
    (hu : r.call uninitialized c = some (u, a)) {p : ℕ} (hp : capacity ≤ p) : u.mBuff p = r.mBuff p := by
  cases c with
  | pushBack item =>
    cases hu
    exact pushBack_frame r item hp
  | pushFront item =>
    cases hu
    exact pushFront_frame r item hp
  | popFront =>
    simp only [call, Option.dite_none_left_eq_some, Option.some.injEq, Prod.mk.injEq] at hu
    obtain ⟨hempty, rfl, -⟩ := hu
    exact popFront_frame hempty hp
  | front | index i =>
    simp only [call, Option.map_eq_some_iff, Prod.mk.injEq] at hu
    obtain ⟨b, -, rfl, -⟩ := hu
    rfl
  | size | empty | full =>
    cases hu
    rfl

theorem allocate_frame (uninitialized : α) (memory : ℕ → α) {p : ℕ} (hp : capacity ≤ p) :
    allocate uninitialized capacity memory p = memory p := if_neg (Nat.not_lt_of_le hp)

/-- The ring and the list of its elements have the same runs, answer for answer, whatever places
without an element are filled with; and the ring writes nowhere outside its block. -/
theorem circular_buffer_runs (uninitialized : α) (memory : ℕ → α) (h : List (Call α × Answer α)) :
    (∀ u, Run (calls (call uninitialized)) Free (new uninitialized memory : Ring α capacity) h u →
      Run (calls listCall) Free CircularBuffer.nil h u.toBuffer ∧
        ∀ p, capacity ≤ p → u.mBuff p = memory p) ∧
    (∀ b, Run (calls listCall) Free (CircularBuffer.nil : CircularBuffer α capacity) h b →
      ∃ u, Run (calls (call uninitialized)) Free (new uninitialized memory : Ring α capacity) h u ∧
        u.toBuffer = b) := by
  have hshows : ∀ (r : Ring α capacity) c,
      (calls listCall).shows r.toBuffer c = (calls (call uninitialized)).shows r c := fun r c => by
    simp only [calls, call_toBuffer uninitialized, Option.map_map]
    rfl
  refine ⟨fun u hr => ⟨?_, ?_⟩, fun b hr => ?_⟩
  · refine hr.map (Q := calls listCall) (E := Free) toBuffer fun x c y _ hy => ?_
    obtain ⟨⟨y, a⟩, hcall, rfl⟩ := Option.map_eq_some_iff.mp hy
    rw [← hshows]
    refine Run.single trivial ?_
    simp only [calls, call_toBuffer uninitialized, hcall, Option.map_some]
  · refine hr.always (I := fun u => ∀ p, capacity ≤ p → u.mBuff p = memory p)
      (fun _ hp => allocate_frame uninitialized memory hp) ?_
    intro x c y hx _ hy p hp
    obtain ⟨⟨y, a⟩, hcall, rfl⟩ := Option.map_eq_some_iff.mp hy
    rw [call_frame hcall hp, hx p hp]
  · refine hr.simulate (Q := calls (call uninitialized)) (E := Free) (fun b u => u.toBuffer = b)
      (toBuffer_new uninitialized memory) ?_
    rintro x c y u rfl - hy
    rw [hshows]
    simp only [calls, call_toBuffer uninitialized, Option.map_map, Option.map_eq_some_iff] at hy
    obtain ⟨⟨v, a⟩, hcall, rfl⟩ := hy
    exact ⟨v, Run.single trivial (by simp only [calls, hcall, Option.map_some]), rfl⟩

end Ring

end Multicore.Reclaim
