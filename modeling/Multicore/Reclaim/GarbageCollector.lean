import Multicore.Reclaim.CircularBuffer
import Multicore.Runs.Custody
import Mathlib.Logic.Function.Basic

/-! The garbage collector of project 3. Every worker registers a `GCNode` whose clock
is among the `clocks` of the collector. `clean` takes a new clock for the worker, looks
for the least of all clocks, and deletes the node at once if its own is the least;
otherwise the node gets the clock and waits in the dirty list. `cleanup` moves the nodes
with older clocks to the clean list, from which `alloc` takes nodes before it makes new
ones. The list of clocks is read under a reader lock and changed under the writer lock,
but the clocks themselves are written without it, and the loop of `getminclock` reads
each of them a second time after the comparison. -/

namespace Multicore.Reclaim

open Runs

/-- `1024*1024` -/
def listSize : ℕ := 1024 * 1024

/-- The caller of `getminclock` and `cleanup`. -/
inductive Caller (N : Type*)
  | clean (n : N) | dereg
  deriving DecidableEq

def Caller.node {N : Type*} : Caller N → Option N
  | .clean n => some n
  | .dereg => none

/-- Where a worker stands in `reg`, between its operations, after `alloc`, in `clean`,
`getminclock` and `cleanup`, or in `dereg` and the destructor of its `GCNode`. -/
inductive Pc (T N : Type*)
  | regClock | regStore (c : ℕ) | regPush | working | allocated (n : N)
  | cleanClock (n : N) | cleanStore (n : N) (c : ℕ)
  | rdlock (k : Caller N) | test (k : Caller N) (its : List T) (min : ℕ)
  | take (k : Caller N) (it : T) (its : List T) (min : ℕ) | unlock (k : Caller N) (min : ℕ)
  | compare (n : N) (min : ℕ) | stamp (n : N) (min : ℕ) | size (n : N) (min : ℕ)
  | cleanup (k : Caller N) (min : ℕ) | cleanupClock (k : Caller N) | cleanupStore (k : Caller N) (c : ℕ)
  | full (n : N) | deregTest | deregRemove | destroy | gone
  deriving DecidableEq

structure GCNode (N : Type*) where
  clock : ℕ
  allocs : ℕ
  dirtyList : CircularBuffer N listSize
  cleanList : CircularBuffer N listSize

/-- A new `GCNode`, whose clock is not set. -/
def GCNode.new {N : Type*} (clock : ℕ) : GCNode N := ⟨clock, 0, .nil, .nil⟩

/-- The collector, the threads that have its reader lock, the `GCNode` of each worker, the
clock field of each node, and the threads. -/
structure GarbageCollector (T N : Type*) where
  clock : ℕ
  clocks : List T
  readers : List T
  totalAllocs : ℕ
  gcn : T → GCNode N
  nodeClock : N → ℕ
  pc : T → Pc T N

namespace GarbageCollector

variable {T N : Type*}

/-- The static collector, with any values in the memory that is not set. -/
def initial (gcnClock : T → ℕ) (nodeClock : N → ℕ) : GarbageCollector T N :=
  ⟨1, [], [], 0, fun t => .new (gcnClock t), nodeClock, fun _ => .regClock⟩

section Steps
variable [DecidableEq T] [DecidableEq N]

def goto (g : GarbageCollector T N) (t : T) (p : Pc T N) : GarbageCollector T N :=
  { g with pc := Function.update g.pc t p }

def put (g : GarbageCollector T N) (t : T) (x : GCNode N) (p : Pc T N) : GarbageCollector T N :=
  { g with gcn := Function.update g.gcn t x, pc := Function.update g.pc t p }

section Updates
variable {g : GarbageCollector T N} {t v : T} {x : GCNode N} {p : Pc T N}

omit [DecidableEq N]

@[simp] theorem goto_pc : (g.goto t p).pc t = p := Function.update_self ..
@[simp] theorem goto_pc_of_ne (hv : v ≠ t) : (g.goto t p).pc v = g.pc v := Function.update_of_ne hv ..
@[simp] theorem goto_gcn : (g.goto t p).gcn = g.gcn := rfl
@[simp] theorem goto_clock : (g.goto t p).clock = g.clock := rfl
@[simp] theorem goto_clocks : (g.goto t p).clocks = g.clocks := rfl
@[simp] theorem goto_totalAllocs : (g.goto t p).totalAllocs = g.totalAllocs := rfl
@[simp] theorem goto_nodeClock : (g.goto t p).nodeClock = g.nodeClock := rfl
theorem goto_self (hp : g.pc t = p) : g.goto t p = g := by rw [goto, ← hp, Function.update_eq_self]
@[simp] theorem put_pc : (g.put t x p).pc t = p := Function.update_self ..
@[simp] theorem put_pc_of_ne (hv : v ≠ t) : (g.put t x p).pc v = g.pc v := Function.update_of_ne hv ..
@[simp] theorem put_gcn : (g.put t x p).gcn t = x := Function.update_self ..
@[simp] theorem put_gcn_of_ne (hv : v ≠ t) : (g.put t x p).gcn v = g.gcn v := Function.update_of_ne hv ..
@[simp] theorem put_clock : (g.put t x p).clock = g.clock := rfl
@[simp] theorem put_clocks : (g.put t x p).clocks = g.clocks := rfl
@[simp] theorem put_totalAllocs : (g.put t x p).totalAllocs = g.totalAllocs := rfl
@[simp] theorem put_nodeClock : (g.put t x p).nodeClock = g.nodeClock := rfl

end Updates

/-- The fetch-and-add of `getclock`, which gives `g.clock`. -/
def getclock (g : GarbageCollector T N) : GarbageCollector T N :=
  { g with clock := (g.clock + 1) % UInt64.size }

omit [DecidableEq T] [DecidableEq N] in
theorem getclock_clock {g : GarbageCollector T N} (h : g.clock + 1 < UInt64.size) :
    g.getclock.clock = g.clock + 1 := Nat.mod_eq_of_lt h

/-- One step of `t`, with the nodes that it deletes. -/
def exec (g : GarbageCollector T N) (t : T) : Option (GarbageCollector T N × List N) :=
  match g.pc t with
  | .regClock => some (g.getclock.goto t (.regStore g.clock), [])
  | .regStore c => some (g.put t { g.gcn t with clock := c } .regPush, [])
  | .regPush =>
    if g.readers = [] then some ({ g with clocks := g.clocks ++ [t] }.goto t .working, []) else none
  | .cleanClock n => some (g.getclock.goto t (.cleanStore n g.clock), [])
  | .cleanStore n c => some (g.put t { g.gcn t with clock := c } (.rdlock (.clean n)), [])
  | .rdlock k => some ({ g with readers := t :: g.readers }.goto t (.test k g.clocks 0xffffffffffffffff), [])
  | .test k [] min => some (g.goto t (.unlock k min), [])
  | .test k (it :: its) min =>
    if (g.gcn it).clock < min then some (g.goto t (.take k it its min), [])
    else some (g.goto t (.test k its min), [])
  | .take k it its _ => some (g.goto t (.test k its (g.gcn it).clock), [])
  | .unlock (.clean n) min => some ({ g with readers := g.readers.erase t }.goto t (.compare n min), [])
  | .unlock .dereg min =>
    some ({ g with readers := g.readers.erase t }.goto t (.cleanup .dereg min), [])
  | .compare n min =>
    if (g.gcn t).clock = min then some (g.goto t .working, [n]) else some (g.goto t (.stamp n min), [])
  | .stamp n min => some ({ g with nodeClock := Function.update g.nodeClock n (g.gcn t).clock }.goto t
      (.size n min), [])
  | .size n min =>
    if (g.gcn t).dirtyList.size > 10 then some (g.goto t (.cleanup (.clean n) min), [])
    else some (g.goto t (.full n), [])
  | .cleanup k min =>
    match (g.gcn t).dirtyList.front with
    | none => some (g.goto t (.cleanupClock k), [])
    | some m =>
      if g.nodeClock m < min then
        if (g.gcn t).cleanList.full then
          some (g.put t { g.gcn t with dirtyList := (g.gcn t).dirtyList.popFront } (.cleanup k min), [m])
        else
          some (g.put t { g.gcn t with
            dirtyList := (g.gcn t).dirtyList.popFront
            cleanList := (g.gcn t).cleanList.pushFront m } (.cleanup k min), [])
      else some (g.goto t (.cleanupClock k), [])
  | .cleanupClock k => some (g.getclock.goto t (.cleanupStore k g.clock), [])
  | .cleanupStore (.clean n) c => some (g.put t { g.gcn t with clock := c } (.full n), [])
  | .cleanupStore .dereg c => some (g.put t { g.gcn t with clock := c } .deregTest, [])
  -- `DIRTY LIST FULL` ends the process
  | .full n =>
    if (g.gcn t).dirtyList.full then none
    else some (g.put t { g.gcn t with dirtyList := (g.gcn t).dirtyList.pushBack n } .working, [])
  | .deregTest =>
    if (g.gcn t).dirtyList.empty then some (g.goto t .deregRemove, [])
    else some (g.goto t (.rdlock .dereg), [])
  | .deregRemove =>
    if g.readers = [] then
      some ({ g with
        clocks := g.clocks.filter (· ≠ t)
        totalAllocs := (g.totalAllocs + (g.gcn t).allocs) % UInt64.size }.goto t .destroy, [])
    else none
  | .destroy =>
    match (g.gcn t).cleanList.front with
    | none => some (g.goto t .gone, [])
    | some m => some (g.put t { g.gcn t with cleanList := (g.gcn t).cleanList.popFront } .destroy, [m])
  | .working | .allocated _ | .gone => none

/-- `alloc`, where `fresh` is what `new` gives if the clean list is empty. -/
def alloc (g : GarbageCollector T N) (t : T) (fresh : N) : GarbageCollector T N × N :=
  match (g.gcn t).cleanList.front with
  | some n =>
    (g.put t { g.gcn t with cleanList := (g.gcn t).cleanList.popFront } (.allocated n), n)
  | none =>
    (g.put t { g.gcn t with allocs := ((g.gcn t).allocs + 1) % UInt64.size } (.allocated fresh), fresh)

section Alloc
variable {g : GarbageCollector T N} {t v : T} {fresh : N}

omit [DecidableEq N]

@[simp] theorem alloc_pc : (g.alloc t fresh).1.pc t = .allocated (g.alloc t fresh).2 := by
  unfold alloc
  split <;> simp

@[simp] theorem alloc_pc_of_ne (hv : v ≠ t) : (g.alloc t fresh).1.pc v = g.pc v := by
  unfold alloc
  split <;> simp [hv]

@[simp] theorem alloc_gcn_of_ne (hv : v ≠ t) : (g.alloc t fresh).1.gcn v = g.gcn v := by
  unfold alloc
  split <;> simp [hv]

@[simp] theorem alloc_dirtyList : ((g.alloc t fresh).1.gcn v).dirtyList = (g.gcn v).dirtyList := by
  by_cases hv : v = t
  · subst hv
    unfold alloc
    split <;> simp
  · rw [alloc_gcn_of_ne hv]

@[simp] theorem alloc_gcnClock : ((g.alloc t fresh).1.gcn v).clock = (g.gcn v).clock := by
  by_cases hv : v = t
  · subst hv
    unfold alloc
    split <;> simp
  · rw [alloc_gcn_of_ne hv]

@[simp] theorem alloc_clock : (g.alloc t fresh).1.clock = g.clock := by unfold alloc; split <;> rfl
@[simp] theorem alloc_clocks : (g.alloc t fresh).1.clocks = g.clocks := by unfold alloc; split <;> rfl
@[simp] theorem alloc_readers : (g.alloc t fresh).1.readers = g.readers := by unfold alloc; split <;> rfl
@[simp] theorem alloc_nodeClock : (g.alloc t fresh).1.nodeClock = g.nodeClock := by unfold alloc; split <;> rfl
@[simp] theorem alloc_totalAllocs : (g.alloc t fresh).1.totalAllocs = g.totalAllocs := by
  unfold alloc; split <;> rfl

end Alloc

end Steps

/-! ### Where the nodes are -/

end GarbageCollector

/-- The node that a worker has in hand. -/
def Pc.hand {T N : Type*} : Pc T N → Option N
  | .allocated n | .cleanClock n | .cleanStore n _ | .compare n _ | .stamp n _ | .size n _ | .full n =>
    some n
  | .rdlock k | .test k _ _ | .take k _ _ _ | .unlock k _ | .cleanup k _ | .cleanupClock k
  | .cleanupStore k _ => k.node
  | _ => none

/-- The hand of a worker and the two lists of its `GCNode`. -/
inductive Spot (T : Type*)
  | hand (t : T) | dirty (t : T) | clean (t : T)
  deriving DecidableEq

namespace GarbageCollector

variable {T N : Type*}

def holds (g : GarbageCollector T N) : Spot T → List N
  | .hand t => (g.pc t).hand.toList
  | .dirty t => (g.gcn t).dirtyList.elems
  | .clean t => (g.gcn t).cleanList.elems

variable {g u : GarbageCollector T N} {t v : T} {d : List N} {n fresh : N} {p : Pc T N}

theorem hand_eq (h : (g.pc t).hand = some n) : g.holds (.hand t) = [n] := by rw [holds, h]; rfl

theorem hand_nil (h : (g.pc t).hand = none) : g.holds (.hand t) = [] := by rw [holds, h]; rfl

variable [DecidableEq T]

/-- A place that keeps what it has, in a step of `t`. -/
theorem holds_eq (hv : ∀ v, v ≠ t → u.pc v = g.pc v ∧ u.gcn v = g.gcn v) (i : Spot T)
    (hh : i = .hand t → (u.pc t).hand = (g.pc t).hand)
    (hd : i = .dirty t → (u.gcn t).dirtyList = (g.gcn t).dirtyList)
    (hc : i = .clean t → (u.gcn t).cleanList = (g.gcn t).cleanList) : u.holds i = g.holds i := by
  cases i with
  | hand v =>
    by_cases hvt : v = t
    · subst hvt
      exact congrArg Option.toList (hh rfl)
    · simp only [holds, (hv v hvt).1]
  | dirty v =>
    by_cases hvt : v = t
    · subst hvt
      exact congrArg CircularBuffer.elems (hd rfl)
    · simp only [holds, (hv v hvt).2]
  | clean v =>
    by_cases hvt : v = t
    · subst hvt
      exact congrArg CircularBuffer.elems (hc rfl)
    · simp only [holds, (hv v hvt).2]

theorem holds_stay (hv : ∀ v, v ≠ t → u.pc v = g.pc v ∧ u.gcn v = g.gcn v)
    (hh : (u.pc t).hand = (g.pc t).hand) (hd : (u.gcn t).dirtyList = (g.gcn t).dirtyList)
    (hc : (u.gcn t).cleanList = (g.gcn t).cleanList) : Moves g.holds u.holds [] :=
  .stay (funext fun i => holds_eq hv i (fun _ => hh) (fun _ => hd) fun _ => hc)

theorem holds_goto (i : Spot T) (hi : i ≠ .hand t) : (g.goto t p).holds i = g.holds i :=
  holds_eq (u := g.goto t p) (fun _ hv => ⟨Function.update_of_ne hv .., rfl⟩) i (absurd · hi)
    (fun _ => rfl) fun _ => rfl

theorem hand_goto : (g.goto t p).holds (.hand t) = p.hand.toList := by
  simp only [holds, goto, Function.update_self]

/-- A node of the clean list is handed out again. -/
theorem alloc_moves (hp : (g.pc t).hand = none) (hn : (g.gcn t).cleanList.front = some n) :
    Moves g.holds (g.alloc t fresh).1.holds [] := by
  have hv : ∀ v, v ≠ t → (g.alloc t fresh).1.pc v = g.pc v ∧ (g.alloc t fresh).1.gcn v = g.gcn v := by
    intro v hv
    simp [alloc, hn, put, hv]
  refine .move (i := Spot.clean t) (j := Spot.hand t) (n := n) (by simp) ?_ ?_ ?_
  · simpa [holds, alloc, hn, put] using .of_eq (CircularBuffer.elems_eq_cons hn)
  · rw [hand_nil hp]
    simp [holds, alloc, hn, put, Pc.hand]
  · intro i hi hj
    exact holds_eq hv i (absurd · hj) (by simp [alloc, hn, put]) (absurd · hi)

/-- A new node comes into the hands of its worker. -/
theorem alloc_fresh (fresh : N) (hn : (g.gcn t).cleanList.front = none) :
    (g.alloc t fresh).1.holds (.hand t) = [fresh] ∧
      ∀ i, i ≠ .hand t → (g.alloc t fresh).1.holds i = g.holds i := by
  have hv : ∀ v, v ≠ t → (g.alloc t fresh).1.pc v = g.pc v ∧ (g.alloc t fresh).1.gcn v = g.gcn v := by
    intro v hv
    simp [alloc, hn, put, hv]
  refine ⟨by simp [holds, alloc, hn, put, Pc.hand], fun i hi => ?_⟩
  exact holds_eq hv i (absurd · hi) (by simp [alloc, hn, put]) (by simp [alloc, hn, put])

variable [DecidableEq N]

/-- A step of `t` is about `t` alone. -/
theorem exec_of_ne (hu : g.exec t = some (u, d)) (hv : v ≠ t) : u.pc v = g.pc v ∧ u.gcn v = g.gcn v := by
  unfold exec at hu
  repeat' split at hu
  all_goals cases hu
  all_goals first
    | exact ⟨Function.update_of_ne hv .., rfl⟩
    | exact ⟨Function.update_of_ne hv .., Function.update_of_ne hv ..⟩

/-- A step leaves all nodes where they are, moves one of them, or deletes one of its worker's. -/
theorem exec_moves (hu : g.exec t = some (u, d)) : Moves g.holds u.holds d := by
  have hv : ∀ v, v ≠ t → u.pc v = g.pc v ∧ u.gcn v = g.gcn v := fun v => exec_of_ne hu
  cases hp : g.pc t with
  | working | allocated n | gone => simp [exec, hp] at hu
  | regClock | cleanClock n | rdlock k | take k it its min | stamp n min | cleanupClock k =>
    simp only [exec, hp, Option.some.injEq, Prod.mk.injEq] at hu
    obtain ⟨rfl, rfl⟩ := hu
    refine holds_stay hv ?_ rfl rfl
    simp [goto, getclock, Pc.hand, hp]
  | regStore c | cleanStore n c =>
    simp only [exec, hp, Option.some.injEq, Prod.mk.injEq] at hu
    obtain ⟨rfl, rfl⟩ := hu
    refine holds_stay hv ?_ ?_ ?_ <;> simp [put, Pc.hand, Caller.node, hp]
  | regPush | deregRemove =>
    simp only [exec, hp] at hu
    split at hu <;> cases hu
    refine holds_stay hv ?_ rfl rfl
    simp [goto, Pc.hand, hp]
  | test k its min =>
    cases its with
    | nil =>
      simp only [exec, hp, Option.some.injEq, Prod.mk.injEq] at hu
      obtain ⟨rfl, rfl⟩ := hu
      refine holds_stay hv ?_ rfl rfl
      simp [goto, Pc.hand, hp]
    | cons it its =>
      simp only [exec, hp] at hu
      split at hu <;> cases hu
      all_goals refine holds_stay hv ?_ rfl rfl
      all_goals simp [goto, Pc.hand, hp]
  | unlock k min =>
    cases k <;> simp only [exec, hp, Option.some.injEq, Prod.mk.injEq] at hu <;> obtain ⟨rfl, rfl⟩ := hu
    all_goals refine holds_stay hv ?_ rfl rfl
    all_goals simp [goto, Pc.hand, Caller.node, hp]
  | cleanupStore k c =>
    cases k <;> simp only [exec, hp, Option.some.injEq, Prod.mk.injEq] at hu <;> obtain ⟨rfl, rfl⟩ := hu
    all_goals refine holds_stay hv ?_ ?_ ?_ <;> simp [put, Pc.hand, Caller.node, hp]
  | size n min | deregTest =>
    simp only [exec, hp] at hu
    split at hu <;> cases hu
    all_goals refine holds_stay hv ?_ rfl rfl
    all_goals simp [goto, Pc.hand, Caller.node, hp]
  | compare n min =>
    simp only [exec, hp] at hu
    split at hu <;> cases hu
    · refine .leave (i := Spot.hand t) ?_ fun i hi => holds_eq hv i (absurd · hi) (fun _ => rfl) fun _ => rfl
      rw [hand_eq (by rw [hp]; rfl), hand_nil (by simp [goto, Pc.hand])]
    · refine holds_stay hv ?_ rfl rfl
      simp [goto, Pc.hand, hp]
  | full n =>
    simp only [exec, hp] at hu
    split at hu <;> cases hu
    rename_i hfull
    refine .move (i := Spot.hand t) (j := Spot.dirty t) (n := n) (by simp) ?_ ?_ ?_
    · rw [hand_eq (by rw [hp]; rfl), hand_nil (by simp [put, Pc.hand])]
    · simp only [holds, put, Function.update_self]
      rw [CircularBuffer.pushBack_elems (by simpa using hfull)]
      exact List.perm_append_singleton ..
    · exact fun i hi hj => holds_eq hv i (absurd · hi) (absurd · hj) (by simp [put])
  | cleanup k min =>
    simp only [exec, hp] at hu
    split at hu
    · cases hu
      refine holds_stay hv ?_ rfl rfl
      simp [goto, Pc.hand, hp]
    · rename_i m hm
      have hfront : (g.holds (.dirty t)).Perm (m :: (g.gcn t).dirtyList.popFront.elems) :=
        .of_eq (CircularBuffer.elems_eq_cons hm)
      split at hu
      · split at hu <;> cases hu <;> rename_i hfull
        · refine .leave (i := Spot.dirty t) (by simpa [holds, put] using hfront) ?_
          exact fun i hi => holds_eq hv i (by simp [put, Pc.hand, hp]) (absurd · hi) (by simp [put])
        · refine .move (i := Spot.dirty t) (j := Spot.clean t) (n := m) (by simp) ?_ ?_ ?_
          · simpa [holds, put] using hfront
          · simp only [holds, put, Function.update_self]
            rw [CircularBuffer.pushFront_elems (by simpa using hfull)]
          · exact fun i hi hj => holds_eq hv i (by simp [put, Pc.hand, hp]) (absurd · hi) (absurd · hj)
      · cases hu
        refine holds_stay hv ?_ rfl rfl
        simp [goto, Pc.hand, hp]
  | destroy =>
    simp only [exec, hp] at hu
    split at hu <;> cases hu
    · refine holds_stay hv ?_ rfl rfl
      simp [goto, Pc.hand, hp]
    · rename_i m hm
      have hfront : (g.holds (.clean t)).Perm (m :: (g.gcn t).cleanList.popFront.elems) :=
        .of_eq (CircularBuffer.elems_eq_cons hm)
      refine .leave (i := Spot.clean t) (by simpa [holds, put] using hfront) ?_
      exact fun i hi => holds_eq hv i (by simp [put, Pc.hand, hp]) (by simp [put]) (absurd · hi)

end GarbageCollector

end Multicore.Reclaim
