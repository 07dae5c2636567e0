import Multicore.Reclaim.Recycling
import Multicore.Reclaim.Accounting
import Multicore.Stacks.Balance

/-! `testtwo` with the garbage collector over a `LockFreeStack`, from the registration of its
workers to the loop in which `main` deletes what they have left. A worker counts its pushes and
pops and adds both counts to the totals before it deregisters. Nodes come from `new`, which may give
an address again that was deleted, or from the clean list of the worker. -/

namespace Multicore.Reclaim.TestTwo

open Runs Stacks

/-- A worker waits for the start, has set `globalstack` and must make a round, is in its loop, or
has added its pushes or both counts to the totals. -/
inductive Stage
  | waiting | begun | rounds | pushAdded | popAdded
  deriving DecidableEq

/-- The local variables of a worker. -/
structure Worker where
  pushcount : ℕ
  popcount : ℕ
  i : ℕ
  stage : Stage
  deriving DecidableEq

/-- The stack, the collector and the nodes that are allocated, with `none` for `main`; the workers,
whether `globalstack` is set, the totals, and whether `main` has found the stack empty. -/
structure State (T N : Type*) where
  base : GracePeriod.State (Option T) N
  worker : T → Worker
  globalstack : Bool
  totalpushcount : ℕ
  totalpopcount : ℕ
  mypopcount : ℕ
  finished : Bool

/-- A worker works, sets `globalstack`, or adds one of its counts to a total; `main` calls `pop`, takes
a step inside, or returns from there and deletes what it has got. -/
inductive Action (T N : Type*)
  | work (a : GracePeriod.Action T N) | start (t : T) | addPush (t : T) | addPop (t : T)
  | mainPop | mainExec | mainRet

/-- A call or return of the stack, a node from `new`, or a node that is deleted. -/
inductive Event (T N : Type*)
  | stack (e : Runs.Event (Option T) (Op N) (Res N)) | new (n : N) | delete (n : N)
  deriving DecidableEq

variable {T N : Type*} [DecidableEq T] [DecidableEq N]

/-- The action of a worker among those of all threads. -/
def lift : GracePeriod.Action T N → GracePeriod.Action (Option T) N
  | .gc t => .gc (some t)
  | .alloc t fresh => .alloc (some t) fresh
  | .push t => .push (some t)
  | .pop t => .pop (some t)
  | .exec t => .exec (some t)
  | .ret t => .ret (some t)
  | .dereg t => .dereg (some t)

/-- A round may begin while `i` is an `int`; `i++` past `INT_MAX` is undefined. -/
def Worker.Ready (w : Worker) : Prop := (w.stage = .begun ∨ w.stage = .rounds) ∧ w.i < 2 ^ 31

instance (w : Worker) : Decidable w.Ready := inferInstanceAs (Decidable (_ ∧ _))

/-- What a round counts when its operation returns. A pop of the empty stack takes `i` back first. -/
def Worker.count (w : Worker) : Option (Res N) → Worker
  | some .pushed => { w with pushcount := (w.pushcount + 1) % UInt64.size, i := w.i + 1 }
  | some (.popped (some _)) => { w with popcount := (w.popcount + 1) % UInt64.size, i := w.i + 1 }
  | some (.popped none) | none => w

def State.setWorker (s : State T N) (t : T) (w : Worker) : State T N :=
  { s with worker := Function.update s.worker t w }

/-- What the loop of the worker requires of an action. -/
def State.Allows (s : State T N) : GracePeriod.Action T N → Prop
  | .alloc t _ | .pop t => (s.worker t).Ready
  | .dereg t => (s.worker t).stage = .popAdded
  | .gc _ | .push _ | .exec _ | .ret _ => True

instance (s : State T N) : ∀ a, Decidable (s.Allows a)
  | .alloc t _ | .pop t => inferInstanceAs (Decidable (s.worker t).Ready)
  | .dereg t => inferInstanceAs (Decidable ((s.worker t).stage = .popAdded))
  | .gc _ | .push _ | .exec _ | .ret _ => .isTrue trivial

/-- The workers after an action. -/
def State.after (s : State T N) : GracePeriod.Action T N → T → Worker
  | .alloc t _ | .pop t => Function.update s.worker t { s.worker t with stage := .rounds }
  | .ret t => Function.update s.worker t ((s.worker t).count (s.base.stack.pc (some t)).result)
  | .gc _ | .push _ | .exec _ | .dereg _ => s.worker

/-- `main` deletes the node that it has got, or its loop ends. -/
def State.drained (s : State T N) (k : LockFreeStack.State (Option T) N) : Option N → State T N
  | some n => { s with
      base := { s.base with stack := k, live := s.base.live.filter (· ≠ n) }
      mypopcount := (s.mypopcount + 1) % UInt64.size }
  | none => { s with base := { s.base with stack := k }, finished := true }

def step [Fintype T] (s : State T N) : Action T N → Option (State T N)
  | .work a =>
    if s.Allows a then
      (GracePeriod.step s.base (lift a)).map fun b => { s with base := b, worker := s.after a }
    else none
  | .start t =>
    if (s.worker t).stage = .waiting ∧ s.base.gc.pc (some t) = .working then
      some { s.setWorker t { s.worker t with stage := .begun } with globalstack := true }
    else none
  | .addPush t =>
    if (s.worker t).stage = .rounds ∧ s.base.gc.pc (some t) = .working ∧
        s.base.stack.pc (some t) = .idle then
      some { s.setWorker t { s.worker t with stage := .pushAdded } with
        totalpushcount := (s.totalpushcount + (s.worker t).pushcount) % UInt64.size }
    else none
  | .addPop t =>
    if (s.worker t).stage = .pushAdded then
      some { s.setWorker t { s.worker t with stage := .popAdded } with
        totalpopcount := (s.totalpopcount + (s.worker t).popcount) % UInt64.size }
    else none
  -- all workers have been joined
  | .mainPop =>
    if (∀ t, s.base.gc.pc (some t) = .gone) ∧ s.globalstack = true ∧ s.finished = false then
      (LockFreeStack.step s.base.stack (.call none .pop)).map fun k =>
        { s with base := { s.base with stack := k } }
    else none
  | .mainExec => (LockFreeStack.step s.base.stack (.exec none)).map fun k =>
      { s with base := { s.base with stack := k } }
  | .mainRet =>
    match (s.base.stack.pc none).result with
    | some (.popped n) => (LockFreeStack.step s.base.stack (.ret none)).map fun k => s.drained k n
    | _ => none

def shows (s : State T N) : Action T N → List (Event T N)
  | .work (.alloc t fresh) =>
    match (s.base.gc.gcn (some t)).cleanList.front with
    | some _ => []
    | none => [.new fresh]
  | .work (.gc t) => ((s.base.gc.exec (some t)).map fun r => r.2.map Event.delete).getD []
  | .work a => (GracePeriod.calls s.base (lift a)).map .stack
  | .mainPop => [.stack (.call none .pop)]
  | .mainRet => (LockFreeStack.shows s.base.stack (.ret none)).map .stack ++
      match (s.base.stack.pc none).result with
      | some (.popped (some n)) => [.delete n]
      | _ => []
  | .start _ | .addPush _ | .addPop _ | .mainExec => []

def testTwo (T N : Type*) [Fintype T] [DecidableEq T] [DecidableEq N] :
    Program (State T N) (Action T N) (Event T N) := ⟨step, shows⟩

def initial (next : N → Option N) (gcnClock : Option T → ℕ) (nodeClock : N → ℕ) : State T N :=
  ⟨GracePeriod.initial next gcnClock nodeClock, fun _ => ⟨0, 0, 0, .waiting⟩, false, 0, 0, 0, false⟩

/-- The workers meet what their grace periods rest on. -/
def Steady : Guard (State T N) (Action T N)
  | s, .work a => GracePeriod.Steady s.base (lift a)
  | _, _ => True

instance (s : State T N) : ∀ a, Decidable (Steady s a)
  | .work a => inferInstanceAs (Decidable (GracePeriod.Steady s.base (lift a)))
  | .start _ | .addPush _ | .addPop _ | .mainPop | .mainExec | .mainRet => .isTrue trivial

/-! ### What a history says -/

/-- The history of the stack. -/
def calls (h : List (Event T N)) : List (Runs.Event (Option T) (Op N) (Res N)) :=
  h.filterMap fun | .stack e => some e | _ => none

/-- The nodes that `new` gave. -/
def news (h : List (Event T N)) : List N := h.filterMap fun | .new n => some n | _ => none

/-- The nodes that were deleted. -/
def deletes (h : List (Event T N)) : List N := h.filterMap fun | .delete n => some n | _ => none

/-- A push returns. -/
def isPush : Event T N → Bool
  | .stack (.ret _ .pushed) => true
  | _ => false

/-- A pop of a worker returns with a node. -/
def isPop : Event T N → Bool
  | .stack (.ret (some _) (.popped (some _))) => true
  | _ => false

/-- A pop of `main` returns with a node. -/
def isLeftover : Event T N → Bool
  | .stack (.ret none (.popped (some _))) => true
  | _ => false

section History
variable {h k : List (Event T N)}

omit [DecidableEq T] [DecidableEq N]

@[simp] theorem calls_append : calls (h ++ k) = calls h ++ calls k := List.filterMap_append
@[simp] theorem news_append : news (h ++ k) = news h ++ news k := List.filterMap_append
@[simp] theorem deletes_append : deletes (h ++ k) = deletes h ++ deletes k := List.filterMap_append

@[simp] theorem calls_stack (e : List (Runs.Event (Option T) (Op N) (Res N))) :
    calls (e.map Event.stack) = e := by simp [calls, List.filterMap_map]
@[simp] theorem news_stack (e : List (Runs.Event (Option T) (Op N) (Res N))) :
    news (e.map Event.stack) = [] := by simp [news, List.filterMap_map]
@[simp] theorem deletes_stack (e : List (Runs.Event (Option T) (Op N) (Res N))) :
    deletes (e.map Event.stack) = [] := by simp [deletes, List.filterMap_map]
@[simp] theorem calls_delete (d : List N) : calls (d.map (Event.delete (T := T))) = [] := by
  simp [calls, List.filterMap_map]
@[simp] theorem news_delete (d : List N) : news (d.map (Event.delete (T := T))) = [] := by
  simp [news, List.filterMap_map]
@[simp] theorem deletes_delete (d : List N) : deletes (d.map (Event.delete (T := T))) = d := by
  simp [deletes, List.filterMap_map]

theorem countP_calls (h : List (Event T N)) : (calls h).countP pushReturned = h.countP isPush := by
  rw [calls, List.countP_filterMap]
  refine List.countP_congr fun e _ => ?_
  rcases e with (- | ⟨t, - | r⟩) | - | - <;> simp [isPush, pushReturned]

/-- A node that came out went to a worker or to `main`. -/
theorem popped_calls (h : List (Event T N)) :
    (popped (calls h)).length = h.countP isPop + h.countP isLeftover := by
  induction h with
  | nil => rfl
  | cons e h ih =>
    rw [show calls (e :: h) = calls [e] ++ calls h from calls_append (h := [e]), popped_append,
      List.length_append, ih, List.countP_cons, List.countP_cons]
    rcases e with (- | ⟨- | t, - | (- | n)⟩) | - | - <;> simp [calls, popped, isPop, isLeftover] <;> omega

end History

/-! ### What an action of a worker does -/

/-- The worker is in `dereg`. -/
def Leaving : Pc (Option T) N → Prop
  | .rdlock k | .test k _ _ | .take k _ _ _ | .unlock k _ | .cleanup k _ | .cleanupClock k
  | .cleanupStore k _ => k = .dereg
  | .deregTest | .deregRemove | .destroy | .gone => True
  | _ => False

section Work
variable {b r : GracePeriod.State (Option T) N} {a : GracePeriod.Action T N} {t : T}
  {g u : GarbageCollector (Option T) N} {d : List N}

theorem exec_leaving {v : Option T} (hu : g.exec v = some (u, d)) : Leaving (u.pc v) ↔ Leaving (g.pc v) := by
  unfold GarbageCollector.exec at hu
  split at hu
  all_goals rename_i hp
  all_goals rw [hp]
  all_goals repeat' split at hu
  all_goals cases hu
  all_goals simp [Leaving]

def thread : GracePeriod.Action T N → T
  | .gc t | .alloc t _ | .push t | .pop t | .exec t | .ret t | .dereg t => t

theorem work_cases (hu : GracePeriod.step b (lift a) = some r) : match a with
    | .gc t => ∃ g d, b.gc.exec (some t) = some (g, d) ∧
        r = { b with gc := g, live := b.live.filter (· ∉ d) }
    | .alloc t fresh => b.gc.pc (some t) = .working ∧ r.stack = b.clear (b.gc.alloc (some t) fresh).2 ∧
        r.gc = (b.gc.alloc (some t) fresh).1 ∧
        ((∃ n, (b.gc.gcn (some t)).cleanList.front = some n ∧ r.live = b.live) ∨
          (b.gc.gcn (some t)).cleanList.front = none ∧ fresh ∉ b.live ∧ r.live = fresh :: b.live)
    | .push t => ∃ n k, b.gc.pc (some t) = .allocated n ∧
        LockFreeStack.step b.stack (.call (some t) (.push n)) = some k ∧
        r = { b with stack := k, gc := b.gc.goto (some t) .working }
    | .pop t => ∃ k, b.gc.pc (some t) = .working ∧
        LockFreeStack.step b.stack (.call (some t) .pop) = some k ∧ r = { b with stack := k }
    | .exec t => ∃ k, LockFreeStack.step b.stack (.exec (some t)) = some k ∧ r = { b with stack := k }
    | .ret t => ∃ k, LockFreeStack.step b.stack (.ret (some t)) = some k ∧
        r = { b with stack := k, gc := GracePeriod.afterPop b.gc (some t) (b.stack.pc (some t)).result }
    | .dereg t => b.gc.pc (some t) = .working ∧ b.stack.pc (some t) = .idle ∧
        r = { b with gc := b.gc.goto (some t) .deregTest } := by
  cases a with
  | alloc t fresh => exact GracePeriod.alloc_cases hu
  | gc t =>
    simp only [lift, GracePeriod.step, Option.map_eq_some_iff] at hu
    obtain ⟨⟨g, d⟩, hg, rfl⟩ := hu
    exact ⟨g, d, hg, rfl⟩
  | push t =>
    simp only [lift, GracePeriod.step] at hu
    split at hu
    · rename_i n hp
      obtain ⟨k, hk, rfl⟩ := Option.map_eq_some_iff.mp hu
      exact ⟨n, k, hp, hk, rfl⟩
    · cases hu
  | pop t =>
    simp only [lift, GracePeriod.step, Option.ite_none_right_eq_some, Option.map_eq_some_iff] at hu
    obtain ⟨hp, k, hk, rfl⟩ := hu
    exact ⟨k, hp, hk, rfl⟩
  | exec t | ret t =>
    simp only [lift, GracePeriod.step, Option.map_eq_some_iff] at hu
    obtain ⟨k, hk, rfl⟩ := hu
    exact ⟨k, hk, rfl⟩
  | dereg t =>
    simp only [lift, GracePeriod.step, Option.ite_none_right_eq_some, Option.some.injEq] at hu
    obtain ⟨hp, rfl⟩ := hu
    exact ⟨hp.1, hp.2, rfl⟩

omit [DecidableEq N] in
theorem afterPop_cases (g : GarbageCollector T N) (t : T) (r : Option (Res N)) :
    (∃ n, r = some (.popped (some n)) ∧ GracePeriod.afterPop g t r = g.goto t (.cleanClock n)) ∨
      GracePeriod.afterPop g t r = g := by
  unfold GracePeriod.afterPop
  split
  · exact .inl ⟨_, rfl, rfl⟩
  · exact .inr rfl

/-- The other threads stay where they are. -/
theorem work_frame {v : Option T} (hu : GracePeriod.step b (lift a) = some r) (hv : v ≠ some (thread a)) :
    r.stack.pc v = b.stack.pc v ∧ r.gc.pc v = b.gc.pc v ∧ r.gc.gcn v = b.gc.gcn v := by
  have hw := work_cases hu
  cases a with
  | gc t =>
    obtain ⟨g, d, hg, rfl⟩ := hw
    exact ⟨rfl, GarbageCollector.exec_of_ne hg hv⟩
  | alloc t fresh =>
    obtain ⟨-, hstack, hgc, -⟩ := hw
    rw [hstack, hgc]
    exact ⟨rfl, GarbageCollector.alloc_pc_of_ne hv, GarbageCollector.alloc_gcn_of_ne hv⟩
  | push t =>
    obtain ⟨n, k, -, hk, rfl⟩ := hw
    exact ⟨LockFreeStack.step_pc_of_ne hk hv, GarbageCollector.goto_pc_of_ne hv, rfl⟩
  | pop t =>
    obtain ⟨k, -, hk, rfl⟩ := hw
    exact ⟨LockFreeStack.step_pc_of_ne hk hv, rfl, rfl⟩
  | exec t =>
    obtain ⟨k, hk, rfl⟩ := hw
    exact ⟨LockFreeStack.step_pc_of_ne hk hv, rfl, rfl⟩
  | ret t =>
    obtain ⟨k, hk, rfl⟩ := hw
    refine ⟨LockFreeStack.step_pc_of_ne hk hv, ?_⟩
    rcases afterPop_cases b.gc (some t) (b.stack.pc (some t)).result with ⟨n, -, he⟩ | he
    · show (GracePeriod.afterPop ..).pc v = _ ∧ (GracePeriod.afterPop ..).gcn v = _
      rw [he]
      exact ⟨GarbageCollector.goto_pc_of_ne hv, rfl⟩
    · show (GracePeriod.afterPop ..).pc v = _ ∧ (GracePeriod.afterPop ..).gcn v = _
      rw [he]
      exact ⟨rfl, rfl⟩
  | dereg t =>
    obtain ⟨-, -, rfl⟩ := hw
    exact ⟨rfl, GarbageCollector.goto_pc_of_ne hv, rfl⟩

theorem work_emptied (he : ∀ v, Accounting.Emptied b.gc v) (hu : GracePeriod.step b (lift a) = some r) :
    ∀ v, Accounting.Emptied r.gc v := by
  have hw := work_cases hu
  cases a with
  | gc t =>
    obtain ⟨g, d, hg, rfl⟩ := hw
    exact Accounting.Emptied.exec he hg
  | alloc t fresh =>
    obtain ⟨-, -, hgc, -⟩ := hw
    rw [hgc]
    exact Accounting.Emptied.alloc he fresh
  | push t =>
    obtain ⟨n, k, -, -, rfl⟩ := hw
    exact Accounting.Emptied.goto he (by simp [Accounting.Emptied])
  | pop t =>
    obtain ⟨k, -, -, rfl⟩ := hw
    exact he
  | exec t =>
    obtain ⟨k, -, rfl⟩ := hw
    exact he
  | ret t =>
    obtain ⟨k, -, rfl⟩ := hw
    rcases afterPop_cases b.gc (some t) (b.stack.pc (some t)).result with ⟨n, -, hafter⟩ | hafter
    · show ∀ v, Accounting.Emptied (GracePeriod.afterPop ..) v
      rw [hafter]
      exact Accounting.Emptied.goto he (by simp [Accounting.Emptied])
    · show ∀ v, Accounting.Emptied (GracePeriod.afterPop ..) v
      rwa [hafter]
  | dereg t =>
    obtain ⟨-, -, rfl⟩ := hw
    exact Accounting.Emptied.goto he (by simp [Accounting.Emptied])

end Work

/-! ### Where the workers are -/

/-- The stage of a worker that is busy with the stack, or in `dereg`. -/
structure Worker.Suits (w : Worker) (b : GracePeriod.State (Option T) N) (t : T) : Prop where
  busy : b.stack.pc (some t) ≠ .idle ∨ Accounting.waiting (b.gc.pc (some t)) ≠ 0 → w.stage = .rounds
  leaving : Leaving (b.gc.pc (some t)) → w.stage = .popAdded

section Suits
variable {s : State T N} {r : GracePeriod.State (Option T) N} {a : GracePeriod.Action T N} {t : T}

omit [DecidableEq T] [DecidableEq N] in
@[simp] theorem Worker.count_stage (w : Worker) (o : Option (Res N)) : (w.count o).stage = w.stage := by
  unfold Worker.count
  split <;> rfl

theorem ne_idle_of_ret {k : LockFreeStack.State (Option T) N} {v : Option T}
    (hk : LockFreeStack.step s.base.stack (.ret v) = some k) : s.base.stack.pc v ≠ .idle := by
  intro h
  simp [LockFreeStack.step, LockFreeStack.Pc.result, h] at hk

omit [DecidableEq N] in
theorem after_of_ne {v : T} (hv : v ≠ thread a) : s.after a v = s.worker v := by
  cases a <;> first | rfl | exact Function.update_of_ne hv ..

theorem work_suits (hs : ∀ t, (s.worker t).Suits s.base t) (ha : s.Allows a)
    (hu : GracePeriod.step s.base (lift a) = some r) (t : T) : (s.after a t).Suits r t := by
  by_cases ht : t = thread a
  · subst ht
    have hw := work_cases hu
    cases a with
    | gc t =>
      obtain ⟨g, d, hg, rfl⟩ := hw
      refine ⟨fun hb => (hs t).busy (hb.imp_right fun h => ?_), fun hl => (hs t).leaving ((exec_leaving hg).mp hl)⟩
      exact absurd (Accounting.exec_total hg).2.1 h
    | alloc t fresh =>
      obtain ⟨-, -, hgc, -⟩ := hw
      refine ⟨fun _ => by simp [State.after, thread], fun hl => ?_⟩
      rw [show r.gc.pc (some (thread (.alloc t fresh))) = _ from congrArg (GarbageCollector.pc · _) hgc] at hl
      exact absurd hl (by simp [thread, Leaving])
    | push t =>
      obtain ⟨n, k, hp, -, rfl⟩ := hw
      refine ⟨fun _ => (hs t).busy (.inr ?_), fun hl => absurd hl ?_⟩
      · rw [hp]
        exact one_ne_zero
      · simp [thread, Leaving]
    | pop t =>
      obtain ⟨k, hp, -, rfl⟩ := hw
      refine ⟨fun _ => by simp [State.after, thread], fun hl => ?_⟩
      simp only [thread, hp] at hl
      cases hl
    | exec t =>
      obtain ⟨k, hk, rfl⟩ := hw
      refine ⟨fun _ => (hs t).busy (.inl fun h => ?_), (hs t).leaving⟩
      simp [LockFreeStack.step, LockFreeStack.exec, h] at hk
    | ret t =>
      obtain ⟨k, hk, rfl⟩ := hw
      have hstage : (s.worker t).stage = .rounds := (hs t).busy (.inl (ne_idle_of_ret hk))
      have hafter : (s.after (.ret t) t).stage = .rounds := by simpa [State.after] using hstage
      refine ⟨fun _ => hafter, fun hl => ?_⟩
      rcases afterPop_cases s.base.gc (some t) (s.base.stack.pc (some t)).result with ⟨n, -, he⟩ | he
      · have hpc := (congrArg (GarbageCollector.pc · (some t)) he).trans GarbageCollector.goto_pc
        exact absurd (hpc ▸ hl) (by simp [Leaving])
      · have hpc := congrArg (GarbageCollector.pc · (some t)) he
        cases hstage.symm.trans ((hs t).leaving (hpc ▸ hl))
    | dereg t =>
      obtain ⟨-, hidle, rfl⟩ := hw
      refine ⟨fun hb => ?_, fun _ => ha⟩
      rcases hb with hb | hb
      · exact absurd hidle hb
      · simp [thread, Accounting.waiting] at hb
  · rw [after_of_ne ht]
    obtain ⟨hstack, hgc, -⟩ := work_frame hu fun h => ht (Option.some.inj h)
    exact ⟨fun hb => (hs t).busy (by rwa [hstack, hgc] at hb), fun hl => (hs t).leaving (by rwa [hgc] at hl)⟩

end Suits

end Multicore.Reclaim.TestTwo
