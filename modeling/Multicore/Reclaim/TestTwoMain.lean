import Multicore.Reclaim.TestTwoTotals

/-! The runs of `testtwo`. While the workers run, the collector keeps their nodes out of each other's
way; when all of them are gone, `main` is alone with the stack and deletes what is left there. The
stack is linearizable throughout, and every node is in one place until it is deleted. -/

namespace Multicore.Reclaim.TestTwo

open Runs Stacks

variable {T N : Type*} [DecidableEq T] [DecidableEq N]

/-! ### The invariant -/

/-- The workers run, and `main` waits for them. -/
structure Working (s : State T N) (l : List N) : Prop where
  grace : GracePeriod.Inv s.base l
  idle : s.base.stack.pc none = .idle
  finished : s.finished = false

/-- The workers are gone, and `main` empties the stack. -/
structure Draining (s : State T N) (l : List N) : Prop where
  gone : ∀ t, s.base.gc.pc (some t) = .gone
  idle : ∀ t, s.base.stack.pc (some t) = .idle
  empty : s.base.stack.pc none = .popRet none ∨ s.finished = true → l = []
  finished : s.finished = true → s.base.stack.pc none = .idle

structure Inv [Fintype T] (h : List (Event T N)) (s : State T N) (l : List N) : Prop where
  kept : GracePeriod.Kept s.base l
  phase : Working s l ∨ Draining s l
  outside : s.base.gc.pc none = .regClock ∧ ∃ c, s.base.gc.gcn none = .new c
  follow : Run (atomic (Option T) (lifo N)) Free (Atomic.initial (Option T) (lifo N)) (calls h)
    (s.base.stack.core.atomic l)
  nodes : (news h).Perm (deletes h ++ s.base.live)
  emptied : ∀ v, Accounting.Emptied s.base.gc v
  suits : ∀ t, (s.worker t).Suits s.base t
  counts : Counts h s

section Inv
variable [Fintype T] {s u : State T N} {r : GracePeriod.State (Option T) N} {a : GracePeriod.Action T N}
  {t : T} {h : List (Event T N)} {l : List N} {n : N} {k : LockFreeStack.State (Option T) N}

omit [DecidableEq N] in
theorem Inv.initial (next : N → Option N) (gcnClock : Option T → ℕ) (nodeClock : N → ℕ) :
    Inv [] (initial next gcnClock nodeClock : State T N) [] where
  kept := .initial next gcnClock nodeClock
  phase := .inl ⟨.initial next gcnClock nodeClock, rfl, rfl⟩
  outside := ⟨rfl, gcnClock none, rfl⟩
  follow := .refl
  nodes := .refl _
  emptied _ := trivial
  suits _ := ⟨fun h => by simp [TestTwo.initial, GracePeriod.initial, LockFreeStack.initial,
    GarbageCollector.initial, Accounting.waiting] at h, fun h => h.elim⟩
  counts := ⟨.initial (by decide) fun _ => rfl, .initial (by decide) fun _ => rfl, rfl,
    .initial (by decide) fun _ => rfl⟩

omit [Fintype T] in
theorem Draining.stuck (hd : Draining s l) : GracePeriod.step s.base (lift a) = none := by
  by_contra hne
  obtain ⟨r, hu⟩ := Option.ne_none_iff_exists'.mp hne
  have hw := work_cases hu
  cases a with
  | gc t =>
    obtain ⟨g, d, hg, -⟩ := hw
    simp [GarbageCollector.exec, hd.gone t] at hg
  | alloc t fresh => cases (hd.gone t).symm.trans hw.1
  | push t =>
    obtain ⟨n, k, hp, -⟩ := hw
    cases (hd.gone t).symm.trans hp
  | pop t =>
    obtain ⟨k, hp, -⟩ := hw
    cases (hd.gone t).symm.trans hp
  | exec t =>
    obtain ⟨k, hk, -⟩ := hw
    simp [LockFreeStack.step, LockFreeStack.exec, hd.idle t] at hk
  | ret t =>
    obtain ⟨k, hk, -⟩ := hw
    exact ne_idle_of_ret hk (hd.idle t)
  | dereg t => cases (hd.gone t).symm.trans hw.1

omit [Fintype T] in
theorem calls_work (s : State T N) (a : GracePeriod.Action T N) :
    calls (shows s (.work a)) = GracePeriod.calls s.base (lift a) := by
  cases a with
  | gc t => cases hg : s.base.gc.exec (some t) <;> simp [shows, hg, GracePeriod.calls, lift, calls]
  | alloc t fresh =>
    cases hf : (s.base.gc.gcn (some t)).cleanList.front <;> simp [shows, hf, GracePeriod.calls, lift, calls]
  | push t | pop t | exec t | ret t | dereg t => simp [shows]

omit [Fintype T] [DecidableEq T] in
/-- What is deleted was allocated. -/
theorem perm_delete {m live d : List N} (hm : m.Perm live) (hlive : live.Nodup) (hd : d.Nodup)
    (hsub : ∀ n ∈ d, n ∈ live) : m.Perm (d ++ live.filter (· ∉ d)) := by
  refine hm.trans ((List.perm_ext_iff_of_nodup hlive ?_).mpr fun n => ?_)
  · exact List.nodup_append.mpr ⟨hd, hlive.filter _, fun a ha b hb hab => by
      simp only [List.mem_filter, decide_eq_true_eq] at hb
      exact hb.2 (hab ▸ ha)⟩
  · simp only [List.mem_append, List.mem_filter, decide_eq_true_eq]
    exact ⟨fun hn => (em (n ∈ d)).imp_right fun h => ⟨hn, h⟩, fun hn => hn.elim (hsub n) And.left⟩

theorem Inv.work_nodes (hi : Inv h s l) (hu : GracePeriod.step s.base (lift a) = some r) :
    (news (h ++ shows s (.work a))).Perm (deletes (h ++ shows s (.work a)) ++ r.live) := by
  rw [news_append, deletes_append]
  have hw := work_cases hu
  cases a with
  | gc t =>
    obtain ⟨g, d, hg, rfl⟩ := hw
    have hm : Moves (s.base.places l) (GracePeriod.State.places
        { s.base with gc := g, live := s.base.live.filter (· ∉ d) } l) d := GracePeriod.Inv.gc_moves hg
    have hd : d.Nodup := by cases hm <;> simp
    have hsub : ∀ n ∈ d, n ∈ s.base.live := fun n hn => (hi.kept.cover n).mpr (hm.mem_iff.mpr (.inl hn))
    have hnews : news (shows s (.work (.gc t))) = [] := by simp [shows, hg]
    have hdeletes : deletes (shows s (.work (.gc t))) = d := by simp [shows, hg]
    rw [hnews, hdeletes, List.append_nil, List.append_assoc]
    exact hi.nodes.trans ((perm_delete (.refl _) hi.kept.once hd hsub).append_left _)
  | alloc t fresh =>
    obtain ⟨-, -, -, ⟨m, hf, hlive⟩ | ⟨hf, -, hlive⟩⟩ := hw
    · simpa [shows, hf, hlive, news, deletes] using hi.nodes
    · have hnews : news (shows s (.work (.alloc t fresh))) = [fresh] := by simp [shows, hf, news]
      have hdeletes : deletes (shows s (.work (.alloc t fresh))) = [] := by simp [shows, hf, deletes]
      rw [hnews, hdeletes, List.append_nil, hlive]
      exact ((List.perm_append_singleton fresh _).trans (hi.nodes.cons fresh)).trans
        List.perm_middle.symm
  | push t =>
    obtain ⟨m, k, -, -, rfl⟩ := hw
    simpa [shows] using hi.nodes
  | pop t =>
    obtain ⟨k, -, -, rfl⟩ := hw
    simpa [shows] using hi.nodes
  | exec t | ret t =>
    obtain ⟨k, -, rfl⟩ := hw
    simpa [shows] using hi.nodes
  | dereg t =>
    obtain ⟨-, -, rfl⟩ := hw
    simpa [shows] using hi.nodes

/-- The workers keep the invariant while they work. -/
theorem Inv.work (hi : Inv h s l) (ha : s.Allows a) (hc : GracePeriod.Steady s.base (lift a))
    (hu : GracePeriod.step s.base (lift a) = some r) :
    ∃ l', Inv (h ++ shows s (.work a)) { s with base := r, worker := s.after a } l' := by
  rcases hi.phase with hw | hd
  · obtain ⟨l', hi', hk', hfollow⟩ := hi.kept.step hw.grace hc hu
    obtain ⟨hpc, hgc, hgcn⟩ := work_frame (v := none) hu nofun
    refine ⟨l', hk', .inl ⟨hi', hpc.trans hw.idle, hw.finished⟩,
      ⟨hgc.trans hi.outside.1, hi.outside.2.imp fun c hc => hgcn.trans hc⟩, ?_, hi.work_nodes hu,
      work_emptied hi.emptied hu, work_suits hi.suits ha hu, hi.counts.work hi.suits ha hu⟩
    rw [calls_append, calls_work]
    exact hi.follow.trans hfollow
  · cases hd.stuck.symm.trans hu

omit [DecidableEq N] in
/-- A worker goes on to another stage, and perhaps adds to a total. -/
theorem Inv.stage {w : Worker} (hi : Inv h s l) (hbase : u.base = s.base) (hfin : u.finished = s.finished)
    (hworker : u.worker = Function.update s.worker t w) (hw : w.Suits s.base t) (hc : Counts h u) :
    Inv h u l := by
  refine ⟨hbase ▸ hi.kept, ?_, hbase ▸ hi.outside, hbase ▸ hi.follow, hbase ▸ hi.nodes, hbase ▸ hi.emptied,
    fun v => ?_, hc⟩
  · rcases hi.phase with hw | hd
    · exact .inl ⟨hbase ▸ hw.grace, hbase ▸ hw.idle, hfin.trans hw.finished⟩
    · exact .inr ⟨hbase ▸ hd.gone, hbase ▸ hd.idle, hfin ▸ hbase ▸ hd.empty, hfin ▸ hbase ▸ hd.finished⟩
  · rw [hbase, hworker]
    by_cases hv : v = t
    · rw [hv, Function.update_self]
      exact hw
    · rw [Function.update_of_ne hv]
      exact hi.suits v

omit [DecidableEq N] in
theorem Inv.start (hi : Inv h s l) (ht : (s.worker t).stage = .waiting) :
    Inv h { s.setWorker t { s.worker t with stage := .begun } with globalstack := true } l := by
  refine hi.stage (t := t) (w := { s.worker t with stage := .begun }) rfl rfl rfl ⟨fun hb => ?_, fun hl => ?_⟩
    ⟨hi.counts.pushes.keep fun v => ?_, hi.counts.pops.keep fun v => ?_, hi.counts.leftovers, hi.counts.allocs⟩
  · cases ht.symm.trans ((hi.suits t).busy hb)
  · cases ht.symm.trans ((hi.suits t).leaving hl)
  all_goals
    by_cases hv : v = t
    · subst hv
      simp [State.setWorker, Worker.pushDue, Worker.popDue, ht]
    · simp [State.setWorker, hv]

omit [DecidableEq N] in
theorem Inv.addPush (hi : Inv h s l) (ht : (s.worker t).stage = .rounds)
    (hp : s.base.gc.pc (some t) = .working) (hidle : s.base.stack.pc (some t) = .idle) :
    Inv h { s.setWorker t { s.worker t with stage := .pushAdded } with
      totalpushcount := (s.totalpushcount + (s.worker t).pushcount) % UInt64.size } l := by
  have hdue : (s.worker t).pushcount = (s.worker t).pushDue := by simp [Worker.pushDue, ht]
  refine hi.stage (t := t) (w := { s.worker t with stage := .pushAdded }) rfl rfl rfl ⟨fun hb => ?_, fun hl => ?_⟩
    ⟨?_, hi.counts.pops.keep fun v => ?_, hi.counts.leftovers, hi.counts.allocs⟩
  · rw [hp] at hb
    rcases hb with hb | hb
    · exact absurd hidle hb
    · exact absurd rfl hb
  · rw [hp] at hl
    exact hl.elim
  · show Settles _ ((s.totalpushcount + (s.worker t).pushcount) % _) _ _
    rw [hdue]
    refine hi.counts.pushes.pay t ?_ fun v hv => ?_
    · simp [State.setWorker, Worker.pushDue]
    · simp [State.setWorker, hv]
  · by_cases hv : v = t
    · subst hv
      simp [State.setWorker, Worker.popDue, ht]
    · simp [State.setWorker, hv]

omit [DecidableEq N] in
theorem Inv.addPop (hi : Inv h s l) (ht : (s.worker t).stage = .pushAdded) :
    Inv h { s.setWorker t { s.worker t with stage := .popAdded } with
      totalpopcount := (s.totalpopcount + (s.worker t).popcount) % UInt64.size } l := by
  have hdue : (s.worker t).popcount = (s.worker t).popDue := by simp [Worker.popDue, ht]
  refine hi.stage (t := t) (w := { s.worker t with stage := .popAdded }) rfl rfl rfl ⟨fun hb => ?_, fun _ => rfl⟩
    ⟨hi.counts.pushes.keep fun v => ?_, ?_, hi.counts.leftovers, hi.counts.allocs⟩
  · cases ht.symm.trans ((hi.suits t).busy hb)
  · by_cases hv : v = t
    · subst hv
      simp [State.setWorker, Worker.pushDue, ht]
    · simp [State.setWorker, hv]
  · show Settles _ ((s.totalpopcount + (s.worker t).popcount) % _) _ _
    rw [hdue]
    refine hi.counts.pops.pay t ?_ fun v hv => ?_
    · simp [State.setWorker, Worker.popDue]
    · simp [State.setWorker, hv]

end Inv

/-! ### The loop of `main` -/

section Main
variable [Fintype T] {s u : State T N} {h : List (Event T N)} {l : List N} {n : N}
  {k : LockFreeStack.State (Option T) N} {v : View N}

omit [Fintype T] in
/-- `main` calls or returns and has what it had. -/
theorem kept_goto {b : GracePeriod.State (Option T) N} (hk : GracePeriod.Kept b l)
    (hcore : k.core = b.stack.core.goto none v) (hv : v.pushes = none ∧ v.holds = none ∧ v.knows = none)
    (ho : v.owns = (b.stack.core.view none).owns) : GracePeriod.Kept { b with stack := k } l := by
  have hm : Moves (b.places l) (GracePeriod.State.places { b with stack := k } l) [] := by
    show Moves _ (Sum.elim (Stacks.places [] k.core.view l) b.gc.holds) []
    rw [show k.core.view = _ from congrArg Core.view hcore]
    exact (Stacks.stay_moves rfl ho).inl
  refine hk.moves ?_ hm (by simp)
  show Treiber k.core l
  rw [hcore]
  exact hk.chain.free hv.1 hv.2.1 hv.2.2

omit [Fintype T] in
/-- The workers stay where they are when `main` takes a step. -/
theorem main_frame {a : LockFreeStack.Action (Option T) N}
    (hk : LockFreeStack.step s.base.stack a = some k) (ha : a.thread = none) (t : T) :
    k.pc (some t) = s.base.stack.pc (some t) :=
  LockFreeStack.step_pc_of_ne hk (by simp [ha])

theorem Inv.suits_main (hi : Inv h s l) {a : LockFreeStack.Action (Option T) N}
    (hk : LockFreeStack.step s.base.stack a = some k) (ha : a.thread = none) {b : GracePeriod.State (Option T) N}
    (hgc : b.gc = s.base.gc) (hstack : b.stack = k) (t : T) : (s.worker t).Suits b t := by
  have hpc := main_frame hk ha t
  refine ⟨fun hb => (hi.suits t).busy ?_, fun hl => (hi.suits t).leaving (hgc ▸ hl)⟩
  rwa [hgc, hstack, hpc] at hb

omit [DecidableEq N] in
/-- When all workers are gone, none of them is in the stack. -/
theorem Inv.idle (hi : Inv h s l) (hgone : ∀ t, s.base.gc.pc (some t) = .gone) (t : T) :
    s.base.stack.pc (some t) = .idle := by
  rcases hi.phase with hw | hd
  · exact hw.grace.idle _ (by rw [hgone t]; nofun)
  · exact hd.idle t

theorem Inv.mainPop (hi : Inv h s l) (hgone : ∀ t, s.base.gc.pc (some t) = .gone) (hfin : s.finished = false)
    (hk : LockFreeStack.step s.base.stack (.call none .pop) = some k) :
    Inv (h ++ [.stack (.call none .pop)]) { s with base := { s.base with stack := k } } l := by
  obtain ⟨hp, hcore⟩ := LockFreeStack.core_call hk
  have hview : s.base.stack.core.view none = .idle := congrArg LockFreeStack.Pc.view hp
  have hpc : k.pc none = .popTest := by
    simp only [LockFreeStack.step, hp, if_true, Option.some.injEq] at hk
    simp [← hk, LockFreeStack.State.goto, LockFreeStack.Pc.enter]
  refine ⟨kept_goto hi.kept hcore ⟨rfl, rfl, rfl⟩ (by rw [hview]; rfl), .inr ⟨hgone, fun t => ?_, ?_, ?_⟩,
    hi.outside, ?_, ?_, hi.emptied, hi.suits_main hk rfl rfl rfl, ?_⟩
  · exact (main_frame hk rfl t).trans (hi.idle hgone t)
  · rintro (h | h)
    · cases hpc.symm.trans h
    · cases hfin.symm.trans h
  · intro h
    cases hfin.symm.trans h
  · rw [calls_append]
    show Run (atomic (Option T) (lifo N)) Free _ _ (k.core.atomic l)
    rw [hcore]
    exact hi.follow.trans (follow_call hview)
  · simpa [news, deletes] using hi.nodes
  · obtain ⟨hpush, hpop, hleft, halloc⟩ := hi.counts
    exact ⟨by simpa [isPush] using hpush, by simpa [isPop] using hpop, by simpa [isLeftover] using hleft,
      by simpa [news] using halloc⟩

theorem Inv.mainExec (hi : Inv h s l) (hk : LockFreeStack.step s.base.stack (.exec none) = some k) :
    ∃ l', Inv h { s with base := { s.base with stack := k } } l' := by
  have hbusy : s.base.stack.pc none ≠ .idle := by
    intro hp
    simp [LockFreeStack.step, LockFreeStack.exec, hp] at hk
  obtain ⟨l', hkept, hfollow⟩ := hi.kept.exec hk
  rcases hi.phase with hw | hd
  · exact absurd hw.idle hbusy
  have hfin : s.finished ≠ true := fun h => hbusy (hd.finished h)
  refine ⟨l', hkept, .inr ⟨hd.gone, fun t => (main_frame hk rfl t).trans (hd.idle t), ?_, fun h => absurd h hfin⟩,
    hi.outside, ?_, hi.nodes, hi.emptied, hi.suits_main hk rfl rfl rfl,
    ⟨hi.counts.pushes, hi.counts.pops, hi.counts.leftovers, hi.counts.allocs⟩⟩
  · rintro (h | h)
    · -- the stack was empty when `main` looked
      obtain ⟨-, hp, hnone⟩ := LockFreeStack.step_popRet_none hk rfl h
      replace hp : s.base.stack.pc none = .popTest := hp
      simp only [LockFreeStack.step, LockFreeStack.exec, hp, hnone, Option.some.injEq] at hk
      have hhead : k.headNext = none := by rw [← hk]; exact hnone
      have hchain : Chain k.next k.headNext l' := hkept.chain.chain
      exact (hhead ▸ hchain).eq_nil
    · exact absurd h hfin
  · simpa using hi.follow.trans hfollow

/-- The pop of `main` has found the stack empty. -/
theorem Inv.mainRet_none (hi : Inv h s l) (hr : (s.base.stack.pc none).result = some (.popped none))
    (hk : LockFreeStack.step s.base.stack (.ret none) = some k) :
    Inv (h ++ [.stack (.ret none (.popped none))]) (s.drained k none) l := by
  obtain ⟨r, hr', hcore⟩ := LockFreeStack.core_ret hk
  have hp : s.base.stack.pc none = .popRet none := by
    cases hpc : s.base.stack.pc none <;> rw [hpc] at hr <;> cases hr
    rfl
  have hview : s.base.stack.core.view none = .popped none := congrArg LockFreeStack.Pc.view hp
  have hpc : k.pc none = .idle := by
    simp only [LockFreeStack.step, hr, Option.map_some, Option.some.injEq] at hk
    simp [← hk, LockFreeStack.State.goto]
  rcases hi.phase with hw | hd
  · cases hp.symm.trans hw.idle
  refine ⟨kept_goto hi.kept hcore ⟨rfl, rfl, rfl⟩ (by rw [hview]; rfl),
    .inr ⟨hd.gone, fun t => (main_frame hk rfl t).trans (hd.idle t), fun _ => hd.empty (.inl hp), fun _ => hpc⟩,
    hi.outside, ?_, ?_, hi.emptied, hi.suits_main hk rfl rfl rfl, ?_⟩
  · rw [calls_append]
    show Run (atomic (Option T) (lifo N)) Free _ _ (k.core.atomic l)
    rw [hcore]
    exact hi.follow.trans (follow_ret (by rw [hview]; rfl))
  · simpa [news, deletes, State.drained] using hi.nodes
  · obtain ⟨hpush, hpop, hleft, halloc⟩ := hi.counts
    exact ⟨by simpa [isPush, State.drained] using hpush, by simpa [isPop, State.drained] using hpop,
      by simpa [isLeftover, State.drained] using hleft, by simpa [news, State.drained] using halloc⟩

/-- `main` has a node, which nobody else has, and deletes it. -/
theorem Inv.mainRet_some (hi : Inv h s l) (hr : (s.base.stack.pc none).result = some (.popped (some n)))
    (hk : LockFreeStack.step s.base.stack (.ret none) = some k) :
    Inv (h ++ [.stack (.ret none (.popped (some n))), .delete n]) (s.drained k (some n)) l := by
  obtain ⟨r, hr', hcore⟩ := LockFreeStack.core_ret hk
  have hp : s.base.stack.pc none = .popRet (some n) := by
    cases hpc : s.base.stack.pc none <;> rw [hpc] at hr <;> cases hr
    rfl
  have hview : s.base.stack.core.view none = .popped (some n) := congrArg LockFreeStack.Pc.view hp
  have hpc : k.pc none = .idle := by
    simp only [LockFreeStack.step, hr, Option.map_some, Option.some.injEq] at hk
    simp [← hk, LockFreeStack.State.goto]
  rcases hi.phase with hw | hd
  · cases hp.symm.trans hw.idle
  have hfin : s.finished ≠ true := fun h => by cases hp.symm.trans (hd.finished h)
  have hmine : n ∈ s.base.places l (.inl (.pending none)) := GracePeriod.mem_pending.mpr (by rw [hview]; rfl)
  have hlive : n ∈ s.base.live := (hi.kept.cover n).mpr ⟨_, hmine⟩
  have hfilter : s.base.live.filter (· ≠ n) = s.base.live.filter (· ∉ [n]) := by simp
  have hother : ∀ v, v ≠ none → Stacks.places [] (Function.update s.base.stack.core.view none .idle) l
      (.pending v) = Stacks.places [] s.base.stack.core.view l (.pending v) := fun v hv => Stacks.pending_of_ne hv
  have hm : Moves (s.base.places l) ((s.drained k (some n)).base.places l) [n] := by
    show Moves _ (Sum.elim (Stacks.places [] k.core.view l) s.base.gc.holds) [n]
    rw [show k.core.view = _ from congrArg Core.view hcore]
    refine .leave (i := .inl (.pending none)) ?_ ?_
    · show ((s.base.stack.core.view none).owns.toList).Perm
        (n :: Stacks.places [] (Function.update s.base.stack.core.view none .idle) l (.pending none))
      rw [hview, Stacks.pending_self]
      exact .refl _
    · rintro ((_ | v | _) | q) hq
      · rfl
      · exact hother v fun h => hq (h ▸ rfl)
      · rfl
      · rfl
  refine ⟨hi.kept.moves ?_ hm hfilter,
    .inr ⟨hd.gone, fun t => (main_frame hk rfl t).trans (hd.idle t), ?_, fun h => absurd h hfin⟩,
    hi.outside, ?_, ?_, hi.emptied, hi.suits_main hk rfl rfl rfl, ?_⟩
  · show Treiber k.core l
    rw [hcore]
    exact hi.kept.chain.free rfl rfl rfl
  · rintro (h | h)
    · cases hpc.symm.trans h
    · exact absurd h hfin
  · rw [calls_append]
    show Run (atomic (Option T) (lifo N)) Free _ _ (k.core.atomic l)
    rw [hcore]
    exact hi.follow.trans (follow_ret (by rw [hview]; rfl))
  · have hdelete := perm_delete (.refl _) hi.kept.once (List.nodup_singleton n) (by simpa using hlive)
    rw [← hfilter] at hdelete
    have hnodes := hi.nodes.trans (hdelete.append_left (deletes h))
    simpa [news, deletes, State.drained] using hnodes
  · obtain ⟨hpush, hpop, hleft, halloc⟩ := hi.counts
    exact ⟨by simpa [isPush, State.drained, List.countP_cons] using hpush,
      by simpa [isPop, State.drained, List.countP_cons] using hpop,
      by simp [isLeftover, State.drained, List.countP_cons, hleft],
      by simpa [news, State.drained] using halloc⟩

/-- Every action keeps the invariant. -/
theorem Inv.step {a : Action T N} (hi : Inv h s l) (hc : Steady s a) (hu : TestTwo.step s a = some u) :
    ∃ l', Inv (h ++ shows s a) u l' := by
  cases a with
  | work a =>
    simp only [TestTwo.step, Option.ite_none_right_eq_some, Option.map_eq_some_iff] at hu
    obtain ⟨ha, r, hr, rfl⟩ := hu
    exact hi.work ha hc hr
  | start t =>
    simp only [TestTwo.step, Option.ite_none_right_eq_some, Option.some.injEq] at hu
    obtain ⟨ht, rfl⟩ := hu
    exact ⟨l, by simpa [shows] using hi.start ht.1⟩
  | addPush t =>
    simp only [TestTwo.step, Option.ite_none_right_eq_some, Option.some.injEq] at hu
    obtain ⟨ht, rfl⟩ := hu
    exact ⟨l, by simpa [shows] using hi.addPush ht.1 ht.2.1 ht.2.2⟩
  | addPop t =>
    simp only [TestTwo.step, Option.ite_none_right_eq_some, Option.some.injEq] at hu
    obtain ⟨ht, rfl⟩ := hu
    exact ⟨l, by simpa [shows] using hi.addPop ht⟩
  | mainPop =>
    simp only [TestTwo.step, Option.ite_none_right_eq_some, Option.map_eq_some_iff] at hu
    obtain ⟨⟨hgone, -, hfin⟩, k, hk, rfl⟩ := hu
    exact ⟨l, hi.mainPop hgone hfin hk⟩
  | mainExec =>
    simp only [TestTwo.step, Option.map_eq_some_iff] at hu
    obtain ⟨k, hk, rfl⟩ := hu
    simpa [shows] using hi.mainExec hk
  | mainRet =>
    simp only [TestTwo.step] at hu
    split at hu
    · rename_i n hr
      obtain ⟨k, hk, rfl⟩ := Option.map_eq_some_iff.mp hu
      cases n with
      | none => exact ⟨l, by simpa [shows, LockFreeStack.shows, hr] using hi.mainRet_none hr hk⟩
      | some n => exact ⟨l, by simpa [shows, LockFreeStack.shows, hr] using hi.mainRet_some hr hk⟩
    · cases hu

end Main

theorem inv_of_run [Fintype T] {next : N → Option N} {gcnClock : Option T → ℕ} {nodeClock : N → ℕ}
    {h : List (Event T N)} {s : State T N}
    (hr : Run (testTwo T N) Steady (initial next gcnClock nodeClock) h s) : ∃ l, Inv h s l :=
  hr.invariant (I := fun h s => ∃ l, Inv h s l) ⟨[], .initial next gcnClock nodeClock⟩
    fun _ _ _ _ ⟨_, hi⟩ hc hu => hi.step hc hu

omit [DecidableEq N] in
/-- When the workers are gone and the stack is empty, nothing is allocated. -/
theorem Inv.live_nil [Fintype T] {h : List (Event T N)} {s : State T N} (hi : Inv h s [])
    (hd : Draining s []) (hmain : s.base.stack.pc none = .idle) : s.base.live = [] := by
  have hview : ∀ v, s.base.stack.core.view v = .idle := by
    rintro (- | t)
    · exact congrArg LockFreeStack.Pc.view hmain
    · exact congrArg LockFreeStack.Pc.view (hd.idle t)
  have hlists : ∀ v, (s.base.gc.pc v).hand = none ∧ (s.base.gc.gcn v).dirtyList.elems = [] ∧
      (s.base.gc.gcn v).cleanList.elems = [] := by
    rintro (- | t)
    · obtain ⟨hp, c, hc⟩ := hi.outside
      rw [hp, hc]
      exact ⟨rfl, rfl, rfl⟩
    · have he := hi.emptied (some t)
      simp only [Accounting.Emptied, hd.gone t] at he
      exact ⟨by rw [hd.gone t]; rfl, he⟩
  refine List.eq_nil_iff_forall_not_mem.mpr fun n hn => ?_
  obtain ⟨p, hp⟩ := (hi.kept.cover n).mp hn
  rcases p with (_ | v | _) | (v | v | v)
  · exact List.not_mem_nil hp
  · rw [GracePeriod.mem_pending, hview v] at hp
    cases hp
  · exact List.not_mem_nil hp
  · rw [GracePeriod.mem_hand, (hlists v).1] at hp
    cases hp
  · have hmem : n ∈ (s.base.gc.gcn v).dirtyList.elems := hp
    rw [(hlists v).2.1] at hmem
    exact List.not_mem_nil hmem
  · have hmem : n ∈ (s.base.gc.gcn v).cleanList.elems := hp
    rw [(hlists v).2.2] at hmem
    exact List.not_mem_nil hmem

omit [DecidableEq N] in
/-- When `main` is done, every push that returned is matched by a pop, and the totals have them all. -/
theorem Inv.totals [Fintype T] {h : List (Event T N)} {s : State T N} {l : List N} (hi : Inv h s l)
    (hfin : s.finished = true) : s.base.live = [] ∧ h.countP isPush = h.countP isPop + h.countP isLeftover ∧
      s.totalpushcount = h.countP isPush % UInt64.size ∧ s.totalpopcount = h.countP isPop % UInt64.size ∧
      s.mypopcount = h.countP isLeftover % UInt64.size ∧
      s.base.gc.totalAllocs = (news h).length % UInt64.size := by
  rcases hi.phase with hw | hd
  · cases hw.finished.symm.trans hfin
  obtain rfl : l = [] := hd.empty (.inr hfin)
  have hmain := hd.finished hfin
  have hstage : ∀ t, (s.worker t).stage = .popAdded := fun t =>
    (hi.suits t).leaving (by rw [hd.gone t]; exact trivial)
  have hstatus : ∀ v, (s.base.stack.core.atomic []).status v = .idle := by
    rintro (- | t)
    · show ((s.base.stack.pc none).view).status = _
      rw [hmain]
      rfl
    · show ((s.base.stack.pc (some t)).view).status = _
      rw [hd.idle t]
      rfl
  refine ⟨hi.live_nil hd hmain, ?_, hi.counts.pushes.settled fun t => ?_, hi.counts.pops.settled fun t => ?_,
    hi.counts.leftovers, hi.counts.allocs.settled ?_⟩
  · have hb := balance_of_run hi.follow
    rw [Finset.sum_eq_zero fun v _ => by rw [hstatus v]; rfl,
      Finset.sum_eq_zero fun v _ => by rw [hstatus v]; rfl, countP_calls, popped_calls] at hb
    simpa [Core.atomic] using hb
  · simp [Worker.pushDue, hstage t]
  · simp [Worker.popDue, hstage t]
  · rintro (- | t)
    · obtain ⟨hp, c, hc⟩ := hi.outside
      simp [allocDue, hc, GCNode.new]
    · simp [allocDue, hd.gone t, Accounting.added]

/-- `testtwo` with the collector, in steady runs. Its stack is last-in first-out although nodes are
used again, no node is lost or deleted twice, and in the end all are deleted and the totals are right.
A worker begins a round only while its `i` is below `2 ^ 31`. -/
theorem testtwo_over_lock_free_stack [Fintype T] {next : N → Option N} {gcnClock : Option T → ℕ}
    {nodeClock : N → ℕ} {h : List (Event T N)} {s : State T N}
    (hr : Run (testTwo T N) Steady (initial next gcnClock nodeClock) h s) :
    Linearizable (lifo N) (calls h) ∧
    -- every node that is allocated is in one place; the others that were have been deleted
    (∃ l, Chain s.base.stack.next s.base.stack.headNext l ∧ Custody (s.base.places l) ∧
      ∀ n, n ∈ s.base.live ↔ ∃ p, n ∈ s.base.places l p) ∧
    s.base.live.Nodup ∧ (news h).Perm (deletes h ++ s.base.live) ∧
    -- what `main` reports when it is done
    (s.finished = true → s.base.live = [] ∧ h.countP isPush = h.countP isPop + h.countP isLeftover ∧
      s.totalpushcount = h.countP isPush % UInt64.size ∧ s.totalpopcount = h.countP isPop % UInt64.size ∧
      s.mypopcount = h.countP isLeftover % UInt64.size ∧
      s.base.gc.totalAllocs = (news h).length % UInt64.size) := by
  obtain ⟨l, hi⟩ := inv_of_run hr
  exact ⟨linearizable_of_atomic hi.follow, ⟨l, hi.kept.chain.chain, hi.kept.custody, hi.kept.cover⟩,
    hi.kept.once, hi.nodes, hi.totals⟩

/-- A push that meets nobody. -/
def pushing (t : Fin 2) (fresh : ℕ) : List (Action (Fin 2) ℕ) :=
  [.work (.alloc t fresh), .work (.push t)] ++ List.replicate 3 (.work (.exec t)) ++ [.work (.ret t)]

/-- A pop that meets nobody, and the steps in which its node is cleaned. -/
def popping (t : Fin 2) (steps : ℕ) : List (Action (Fin 2) ℕ) :=
  .work (.pop t) :: List.replicate 4 (.work (.exec t)) ++ .work (.ret t) :: List.replicate steps (.work (.gc t))

def leaving (t : Fin 2) (steps : ℕ) : List (Action (Fin 2) ℕ) :=
  [.addPush t, .addPop t, .work (.dereg t)] ++ List.replicate steps (.work (.gc t))

def recycling : List (Action (Fin 2) ℕ) := List.flatten
  -- the first node is deleted at once, since the only clock is the worker's own
  [List.replicate 3 (.work (.gc 0)), [.start 0], pushing 0 0, popping 0 8,
    -- the clock of the other worker is older, so the next nodes become dirty
    List.replicate 3 (.work (.gc 1)), [.start 1],
    (List.range 11).flatMap fun n => pushing 0 n ++ popping 0 13,
    -- it gets a younger one; they become clean, and the one cleaned last is used again
    pushing 1 11, popping 1 12, pushing 0 12, popping 0 27, pushing 0 13,
    leaving 1 26, leaving 0 24,
    .mainPop :: List.replicate 4 .mainExec, [.mainRet, .mainPop, .mainExec, .mainRet]]

/-- Two workers push and pop. An address is given again by `new`, eleven nodes become dirty and then
clean, one of these is pushed again, and `main` deletes it. -/
theorem testtwo_over_lock_free_stack_again : ∃ (h : List (Event (Fin 2) ℕ)) (s : State (Fin 2) ℕ),
    Run (testTwo (Fin 2) ℕ) Steady (initial (fun _ => none) (fun _ => 0) fun _ => 0) h s ∧
      news h = 0 :: List.range 13 ∧ (calls h).count (.call (some 0) (.push 10)) = 2 ∧
      Linearizable (lifo ℕ) (calls h) ∧ h.countP isLeftover = 1 ∧ s.totalpushcount = 15 ∧
      s.totalpopcount = 14 ∧ s.base.live = [] ∧ s.base.gc.totalAllocs = (news h).length % UInt64.size := by
  obtain ⟨h, s, hr, ht⟩ := exists_run_of_exec (P := testTwo (Fin 2) ℕ) (C := Steady)
    (s := initial (fun _ => none) (fun _ => 0) fun _ => 0) recycling
    (fun h s => (news h == 0 :: List.range 13 && (calls h).count (.call (some 0) (.push 10)) == 2) &&
      (h.countP isLeftover == 1 && s.totalpushcount == 15 && s.totalpopcount == 14 && s.finished))
    (by decide +kernel)
  simp only [Bool.and_eq_true, beq_iff_eq] at ht
  obtain ⟨⟨hnews, hagain⟩, ⟨⟨hleft, hpush⟩, hpop⟩, hfin⟩ := ht
  obtain ⟨hlin, -, -, -, hend⟩ := testtwo_over_lock_free_stack hr
  obtain ⟨hlive, -, -, -, -, halloc⟩ := hend hfin
  exact ⟨h, s, hr, hnews, hagain, hlin, hleft, hpush, hpop, hlive, halloc⟩

end Multicore.Reclaim.TestTwo
