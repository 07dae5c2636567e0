import Multicore.Reclaim.TestTwo
import Mathlib.Data.Fintype.Option

/-! The totals of `testtwo`. A worker counts its pushes, its pops and the nodes that it makes, and
adds each count to a total when it is done; what the threads have not added yet is due. -/

namespace Multicore.Reclaim.TestTwo

open Runs Stacks

variable {T N : Type*} [DecidableEq T] [DecidableEq N]

/-- The pushes of a worker that are not in the total. -/
def Worker.pushDue (w : Worker) : ℕ :=
  match w.stage with
  | .pushAdded | .popAdded => 0
  | _ => w.pushcount

def Worker.popDue (w : Worker) : ℕ :=
  match w.stage with
  | .popAdded => 0
  | _ => w.popcount

/-- The nodes of a worker that are not in `total_allocs`. -/
def allocDue (g : GarbageCollector (Option T) N) (v : Option T) : ℕ :=
  if Accounting.added (g.pc v) then 0 else (g.gcn v).allocs

/-- Each total agrees with what has happened, once the workers have added what they count. -/
structure Counts [Fintype T] (h : List (Event T N)) (s : State T N) : Prop where
  pushes : Settles UInt64.size s.totalpushcount (fun t => (s.worker t).pushDue) (h.countP isPush)
  pops : Settles UInt64.size s.totalpopcount (fun t => (s.worker t).popDue) (h.countP isPop)
  leftovers : s.mypopcount = h.countP isLeftover % UInt64.size
  allocs : Settles UInt64.size s.base.gc.totalAllocs (allocDue s.base.gc) (news h).length

section Counts
variable {s : State T N} {r : GracePeriod.State (Option T) N} {a : GracePeriod.Action T N} {t : T}
  {h : List (Event T N)} {n : ℕ}

theorem shows_ret {x : Res N} (hr : (s.base.stack.pc (some t)).result = some x) :
    shows s (.work (.ret t)) = [.stack (.ret (some t) x)] := by
  simp [shows, GracePeriod.calls, lift, LockFreeStack.shows, hr]

/-- Only a return shows a return. -/
theorem shows_quiet (ha : ∀ t, a ≠ .ret t) : ∀ e ∈ shows s (.work a), ∀ v x, e ≠ .stack (.ret v x) := by
  rintro e he v x rfl
  cases a with
  | gc t =>
    cases hg : s.base.gc.exec (some t) <;> simp [shows, hg] at he
  | alloc t fresh =>
    cases hf : (s.base.gc.gcn (some t)).cleanList.front <;> simp [shows, hf] at he
  | push t =>
    simp only [shows, GracePeriod.calls, lift] at he
    split at he <;> simp at he
  | pop t | exec t | dereg t => simp [shows, GracePeriod.calls, lift] at he
  | ret t => exact ha t rfl

/-- A total of what the operations return stays right while the workers work. -/
theorem work_settles [Fintype T] (due : Worker → ℕ) {counts : Event T N → Bool} {total : ℕ}
    (hs : Settles UInt64.size total (fun t => due (s.worker t)) n)
    (hsuits : ∀ t, (s.worker t).Suits s.base t) (ha : s.Allows a)
    (hu : GracePeriod.step s.base (lift a) = some r)
    (hcount : ∀ w t x, w.stage = .rounds → due (w.count (some x)) ≡
      due w + [Event.stack (.ret (some t) x)].countP counts [MOD UInt64.size])
    (hstage : ∀ w, w.stage = .begun ∨ w.stage = .rounds → due { w with stage := .rounds } = due w)
    (hquiet : ∀ e, counts e = true → ∃ v x, e = .stack (.ret v x)) :
    Settles UInt64.size total (fun t => due (s.after a t)) (n + (shows s (.work a)).countP counts) := by
  by_cases hret : ∃ t, a = .ret t
  · obtain ⟨t, rfl⟩ := hret
    obtain ⟨k, hk, rfl⟩ := work_cases hu
    obtain ⟨x, hx, -⟩ := LockFreeStack.core_ret hk
    have hrounds : (s.worker t).stage = .rounds := (hsuits t).busy (.inl (ne_idle_of_ret hk))
    refine hs.earn t ?_ fun v hv => by rw [after_of_ne (a := .ret t) hv]
    rw [shows_ret hx]
    simpa only [State.after, Function.update_self, hx] using hcount (s.worker t) t x hrounds
  · have hzero : (shows s (.work a)).countP counts = 0 := by
      refine List.countP_eq_zero.mpr fun e he hc => ?_
      obtain ⟨v, x, rfl⟩ := hquiet e hc
      exact shows_quiet (fun t h => hret ⟨t, h⟩) _ he v x rfl
    rw [hzero, Nat.add_zero]
    refine hs.keep fun t => ?_
    cases a with
    | alloc v _ | pop v =>
      by_cases ht : t = v
      · subst ht
        simpa only [State.after, Function.update_self] using hstage _ ha.1
      · simp only [State.after, Function.update_of_ne ht]
    | ret v => exact absurd ⟨v, rfl⟩ hret
    | gc v | push v | exec v | dereg v => rfl

theorem Counts.work_pushes [Fintype T] (hc : Counts h s) (hsuits : ∀ t, (s.worker t).Suits s.base t)
    (ha : s.Allows a) (hu : GracePeriod.step s.base (lift a) = some r) :
    Settles UInt64.size s.totalpushcount (fun t => (s.after a t).pushDue)
      ((h ++ shows s (.work a)).countP isPush) := by
  rw [List.countP_append]
  refine work_settles Worker.pushDue hc.pushes hsuits ha hu ?_ ?_ ?_
  · rintro w t (- | (- | n)) hw <;>
      simp [Worker.pushDue, Worker.count, hw, isPush, Nat.ModEq]
  · rintro w (hw | hw) <;> simp [Worker.pushDue, hw]
  · intro e he
    unfold isPush at he
    split at he
    · exact ⟨_, _, rfl⟩
    · cases he

theorem Counts.work_pops [Fintype T] (hc : Counts h s) (hsuits : ∀ t, (s.worker t).Suits s.base t)
    (ha : s.Allows a) (hu : GracePeriod.step s.base (lift a) = some r) :
    Settles UInt64.size s.totalpopcount (fun t => (s.after a t).popDue)
      ((h ++ shows s (.work a)).countP isPop) := by
  rw [List.countP_append]
  refine work_settles Worker.popDue hc.pops hsuits ha hu ?_ ?_ ?_
  · rintro w t (- | (- | n)) hw <;>
      simp [Worker.popDue, Worker.count, hw, isPop, Nat.ModEq]
  · rintro w (hw | hw) <;> simp [Worker.popDue, hw]
  · intro e he
    unfold isPop at he
    split at he
    · exact ⟨_, _, rfl⟩
    · cases he

omit [DecidableEq T] [DecidableEq N] in
theorem leaving_of_added {p : Pc (Option T) N} (hp : Accounting.added p = true) : Leaving p := by
  cases p <;> first | exact trivial | cases hp

omit [DecidableEq N] in
theorem allocDue_goto {g : GarbageCollector (Option T) N} {v : Option T} {p : Pc (Option T) N}
    (hp : Accounting.added p = Accounting.added (g.pc v)) (w : Option T) :
    allocDue (g.goto v p) w = allocDue g w := by
  by_cases hw : w = v
  · subst hw
    simp only [allocDue, GarbageCollector.goto_pc, GarbageCollector.goto_gcn, hp]
  · simp only [allocDue, GarbageCollector.goto_pc_of_ne hw, GarbageCollector.goto_gcn]

/-- `total_allocs` gets the count of a worker when it deregisters. -/
theorem exec_settles [Fintype T] {g u : GarbageCollector (Option T) N} {v : Option T} {d : List N}
    (hs : Settles UInt64.size g.totalAllocs (allocDue g) n) (hg : g.exec v = some (u, d)) :
    Settles UInt64.size u.totalAllocs (allocDue u) n := by
  have hallocs := Accounting.exec_allocs hg
  have hother : ∀ w, w ≠ v → allocDue u w = allocDue g w := fun w hw => by
    simp only [allocDue, (GarbageCollector.exec_of_ne hg hw).1, hallocs w]
  obtain ⟨-, -, ⟨htotal, hadd⟩ | ⟨hadd, hadd', htotal⟩⟩ := Accounting.exec_total hg
  · rw [htotal]
    refine hs.keep fun w => ?_
    by_cases hw : w = v
    · subst hw
      simp only [allocDue, hadd, hallocs w]
    · exact hother w hw
  · have hdue : (g.gcn v).allocs = allocDue g v := by simp only [allocDue, hadd, Bool.false_eq_true, if_false]
    rw [htotal, hdue]
    exact hs.pay v (by simp only [allocDue, hadd', if_true]) hother

omit [DecidableEq N] in
theorem alloc_settles [Fintype T] {g : GarbageCollector (Option T) N} {v : Option T} (fresh : N)
    (hs : Settles UInt64.size g.totalAllocs (allocDue g) n) (hp : g.pc v = .working) :
    Settles UInt64.size (g.alloc v fresh).1.totalAllocs (allocDue (g.alloc v fresh).1)
      (n + if (g.gcn v).cleanList.front = none then 1 else 0) := by
  have hother : ∀ w, w ≠ v → allocDue (g.alloc v fresh).1 w = allocDue g w := fun w hw => by
    simp only [allocDue, GarbageCollector.alloc_pc_of_ne hw, GarbageCollector.alloc_gcn_of_ne hw]
  have hdue : allocDue g v = (g.gcn v).allocs := by simp [allocDue, hp, Accounting.added]
  have hdue' : allocDue (g.alloc v fresh).1 v = ((g.alloc v fresh).1.gcn v).allocs := by
    simp [allocDue, Accounting.added]
  rw [GarbageCollector.alloc_totalAllocs]
  refine hs.earn v ?_ hother
  rw [hdue, hdue']
  cases hf : (g.gcn v).cleanList.front with
  | some m => simp [GarbageCollector.alloc, hf, Nat.ModEq]
  | none => simp [GarbageCollector.alloc, hf, Nat.ModEq]

theorem Counts.work_allocs [Fintype T] (hc : Counts h s) (hsuits : ∀ t, (s.worker t).Suits s.base t)
    (hu : GracePeriod.step s.base (lift a) = some r) :
    Settles UInt64.size r.gc.totalAllocs (allocDue r.gc) (news (h ++ shows s (.work a))).length := by
  rw [news_append, List.length_append]
  have hw := work_cases hu
  cases a with
  | gc t =>
    obtain ⟨g, d, hg, rfl⟩ := hw
    simpa [shows, hg] using exec_settles hc.allocs hg
  | alloc t fresh =>
    obtain ⟨hp, -, hgc, hfront⟩ := hw
    rw [hgc]
    have hs := alloc_settles fresh hc.allocs hp
    rcases hfront with ⟨m, hf, -⟩ | ⟨hf, -⟩ <;> simpa [shows, hf, news] using hs
  | push t =>
    obtain ⟨m, k, hp, -, rfl⟩ := hw
    simpa [shows] using hc.allocs.keep (allocDue_goto (by rw [hp]; rfl))
  | pop t =>
    obtain ⟨k, -, -, rfl⟩ := hw
    simpa [shows] using hc.allocs
  | exec t =>
    obtain ⟨k, -, rfl⟩ := hw
    simpa [shows] using hc.allocs
  | ret t =>
    obtain ⟨k, hk, rfl⟩ := hw
    have hrounds : (s.worker t).stage = .rounds := (hsuits t).busy (.inl (ne_idle_of_ret hk))
    have hadded : Accounting.added (s.base.gc.pc (some t)) = false := by
      by_contra h
      cases hrounds.symm.trans ((hsuits t).leaving (leaving_of_added (by simpa using h)))
    have hafter : Settles UInt64.size
        (GracePeriod.afterPop s.base.gc (some t) (s.base.stack.pc (some t)).result).totalAllocs
        (allocDue (GracePeriod.afterPop s.base.gc (some t) (s.base.stack.pc (some t)).result))
        (news h).length := by
      rcases afterPop_cases s.base.gc (some t) (s.base.stack.pc (some t)).result with ⟨m, -, he⟩ | he
      · rw [he]
        exact hc.allocs.keep (allocDue_goto hadded.symm)
      · rw [he]
        exact hc.allocs
    simpa [shows] using hafter
  | dereg t =>
    obtain ⟨hp, -, rfl⟩ := hw
    simpa [shows] using hc.allocs.keep (allocDue_goto (by rw [hp]; rfl))

theorem Counts.work [Fintype T] (hc : Counts h s) (hsuits : ∀ t, (s.worker t).Suits s.base t)
    (ha : s.Allows a) (hu : GracePeriod.step s.base (lift a) = some r) :
    Counts (h ++ shows s (.work a)) { s with base := r, worker := s.after a } := by
  refine ⟨hc.work_pushes hsuits ha hu, hc.work_pops hsuits ha hu, ?_, hc.work_allocs hsuits hu⟩
  have hzero : (shows s (.work a)).countP isLeftover = 0 := by
    refine List.countP_eq_zero.mpr fun e he hl => ?_
    by_cases hret : ∃ t, a = .ret t
    · obtain ⟨t, rfl⟩ := hret
      obtain ⟨k, hk, -⟩ := work_cases hu
      obtain ⟨x, hx, -⟩ := LockFreeStack.core_ret hk
      rw [shows_ret hx, List.mem_singleton] at he
      subst he
      cases hl
    · unfold isLeftover at hl
      split at hl
      · exact shows_quiet (fun t h => hret ⟨t, h⟩) _ he _ _ rfl
      · cases hl
  show s.mypopcount = _
  rw [List.countP_append, hzero]
  exact hc.leftovers

end Counts

end Multicore.Reclaim.TestTwo
