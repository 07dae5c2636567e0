import Multicore.Reclaim.Deregister

/-! What `cleanup` releases. Its loop stops at the first node that is too young, so it
releases every node that is old enough only if the clocks in the dirty list are in order.
They are: a worker gets a younger clock in each call of `clean`, the node has this clock when
it comes to the back of the list, and a `cleanup` in between gives the worker a still younger
one. Here any worker may also call `cleanup` itself, with any least clock, and any thread may
call `getclock` at any time. This too rests on clocks that do not wrap, and on nodes that are not
cleaned again while the collector has them; that the lists have room for what is pushed rests on
neither. -/

namespace Multicore.Reclaim

open Runs

/-- What may be done with the collector: a client's call or step, a call of `getclock` by any
thread, a call of `cleanup` by a worker, and the return of a worker from `cleanup`. -/
inductive Use (T N : Type*)
  | call (a : Call T N) | getclock | cleanup (t : T) (min : ℕ) | resume (t : T)

/-- The worker is in `cleanup`. -/
def Pc.InCleanup {T N : Type*} : Pc T N → Prop
  | .cleanup _ _ | .cleanupClock _ | .cleanupStore _ _ => True
  | _ => False

instance {T N : Type*} : ∀ p : Pc T N, Decidable p.InCleanup
  | .cleanup _ _ | .cleanupClock _ | .cleanupStore _ _ => .isTrue trivial
  | .regClock | .regStore _ | .regPush | .working | .allocated _ | .cleanClock _ | .cleanStore _ _
  | .rdlock _ | .test _ _ _ | .take _ _ _ _ | .unlock _ _ | .compare _ _ | .stamp _ _ | .size _ _
  | .full _ | .deregTest | .deregRemove | .destroy | .gone => .isFalse id

namespace GarbageCollector

variable {T N : Type*}

/-- What users owe the collector. -/
def OwnedUse : Guard (GarbageCollector T N) (Use T N) := fun g b =>
  match b with
  | .call a => Owned g a
  | .getclock | .cleanup _ _ | .resume _ => True

def UnwrappedUse : Guard (GarbageCollector T N) (Use T N) := fun g b =>
  match b with
  | .call a => Unwrapped g a
  | .getclock => g.clock + 1 < UInt64.size
  | .cleanup _ _ | .resume _ => True

def OrderlyUse : Guard (GarbageCollector T N) (Use T N) := fun g b => OwnedUse g b ∧ UnwrappedUse g b

theorem unwrappedUse_of_lt {g : GarbageCollector T N} {b : Use T N} (h : g.clock + 1 < UInt64.size) :
    UnwrappedUse g b := by
  cases b with
  | call a => exact unwrapped_of_lt h
  | getclock => exact h
  | cleanup t min | resume t => trivial

instance [Fintype T] [DecidableEq N] : ∀ (g : GarbageCollector T N) b, Decidable (OwnedUse g b)
  | g, .call a => inferInstanceAs (Decidable (Owned g a))
  | _, .getclock | _, .cleanup _ _ | _, .resume _ => .isTrue trivial

section Step
variable [DecidableEq T] [DecidableEq N]

/-- `cleanup` returns to where the loop of `dereg` is tested; a worker that called it itself
goes on from there. -/
def use (g : GarbageCollector T N) : Use T N → Option (GarbageCollector T N)
  | .call a => g.step a
  | .getclock => some g.getclock
  | .cleanup t min => if g.pc t = .working then some (g.goto t (.cleanup .dereg min)) else none
  | .resume t => if g.pc t = .deregTest then some (g.goto t .working) else none

def users (T N : Type*) [DecidableEq T] [DecidableEq N] :
    Program (GarbageCollector T N) (Use T N) Empty := ⟨use, fun _ _ => []⟩

/-- The clients are users. -/
theorem users_of_client {h : List Empty} {g u : GarbageCollector T N} (hr : Run (client T N) Owned g h u) :
    Run (users T N) OwnedUse g h u :=
  hr.map (Q := users T N) (E := OwnedUse) id fun g a _ hc ha =>
    Run.single (P := users T N) (C := OwnedUse) (s := g) (a := .call a) hc ha

end Step

/-! ### The clocks of dirty nodes -/

/-- The clocks in the dirty list increase, none is after the worker's own, and the clock of the
next node is after them all. -/
structure Rising (g : GarbageCollector T N) (t : T) : Prop where
  unset : (g.pc t).Unset → (g.gcn t).dirtyList.elems = []
  sorted : (g.gcn t).dirtyList.elems.Pairwise fun m n => g.nodeClock m < g.nodeClock n
  own : ∀ m ∈ (g.gcn t).dirtyList.elems, g.nodeClock m ≤ (g.gcn t).clock
  behind : ¬ (g.pc t).Unset → (g.gcn t).clock ≤ g.latest t
  past : g.pc t ≠ .regClock → g.latest t < g.clock
  next : ∀ c, g.mark t = some c → c ≤ g.latest t ∧ ∀ m ∈ (g.gcn t).dirtyList.elems, g.nodeClock m < c

theorem Rising.initial (gcnClock : T → ℕ) (nodeClock : N → ℕ) (t : T) :
    Rising (initial gcnClock nodeClock : GarbageCollector T N) t where
  unset _ := rfl
  sorted := List.Pairwise.nil
  own m hm := absurd hm List.not_mem_nil
  behind h := absurd trivial h
  past h := absurd rfl h
  next c hc := by cases hc

section Exec
variable {g u : GarbageCollector T N} {t v : T} {d : List N} {n m : N} {p : Pc T N}

/-- A step of a worker with a clock that adds nothing to its dirty list. -/
theorem Rising.keep (hg : Rising g t) (hset : ¬ (u.pc t).Unset)
    (hdirty : (u.gcn t).dirtyList.elems.Sublist (g.gcn t).dirtyList.elems)
    (hn : ∀ m ∈ (g.gcn t).dirtyList.elems, u.nodeClock m = g.nodeClock m)
    (hown : (g.gcn t).clock ≤ (u.gcn t).clock) (hlatest : (u.gcn t).clock ≤ u.latest t)
    (hpast : u.latest t < u.clock)
    (hnext : ∀ c, u.mark t = some c → c ≤ u.latest t ∧ ∀ m ∈ (g.gcn t).dirtyList.elems, g.nodeClock m < c) :
    Rising u t where
  unset h := absurd h hset
  sorted := (hg.sorted.sublist hdirty).imp_of_mem fun ha hb h => by
    rwa [hn _ (hdirty.subset ha), hn _ (hdirty.subset hb)]
  own m hm := by
    rw [hn m (hdirty.subset hm)]
    exact Nat.le_trans (hg.own m (hdirty.subset hm)) hown
  behind _ := hlatest
  past _ := hpast
  next c hc := ⟨(hnext c hc).1, fun m hm => by
    rw [hn m (hdirty.subset hm)]
    exact (hnext c hc).2 m (hdirty.subset hm)⟩

/-- A step in which the worker gets and stores no clock. -/
theorem Rising.same (hg : Rising g t) (hset : ¬ (g.pc t).Unset) (hset' : ¬ (u.pc t).Unset)
    (hdirty : (u.gcn t).dirtyList.elems.Sublist (g.gcn t).dirtyList.elems)
    (hn : ∀ m ∈ (g.gcn t).dirtyList.elems, u.nodeClock m = g.nodeClock m)
    (hown : (u.gcn t).clock = (g.gcn t).clock) (hlatest : u.latest t = g.latest t) (hle : g.clock ≤ u.clock)
    (hmark : u.mark t = g.mark t ∨ u.mark t = none) : Rising u t := by
  have hclock : g.pc t ≠ .regClock := fun h => hset (h ▸ trivial)
  refine hg.keep hset' hdirty hn (Nat.le_of_eq hown.symm) ?_ ?_ fun c hc => ?_
  · rw [hown, hlatest]
    exact hg.behind hset
  · rw [hlatest]
    exact Nat.lt_of_lt_of_le (hg.past hclock) hle
  · rw [hlatest]
    rcases hmark with hmark | hmark
    · exact hg.next c (hmark ▸ hc)
    · rw [hmark] at hc
      cases hc

/-- What changes nothing of the worker. -/
theorem Rising.frame (hg : Rising g t) (hpc : u.pc t = g.pc t) (hgcn : u.gcn t = g.gcn t)
    (hn : ∀ m ∈ (g.gcn t).dirtyList.elems, u.nodeClock m = g.nodeClock m)
    (hhand : ∀ m, (g.pc t).hand = some m → u.nodeClock m = g.nodeClock m) (hle : g.clock ≤ u.clock) :
    Rising u t := by
  have hlatest : u.latest t = g.latest t := by simp only [latest, hpc, hgcn]
  have hmark : u.mark t = g.mark t := by
    unfold mark
    rw [hpc, hgcn]
    split
    all_goals first
      | rfl
      | rename_i hp
        exact congrArg some (hhand _ (by rw [hp]; rfl))
  refine ⟨?_, ?_, ?_, ?_, ?_, ?_⟩
  · rw [hpc, hgcn]
    exact hg.unset
  · rw [hgcn]
    exact hg.sorted.imp_of_mem fun ha hb h => by rwa [hn _ ha, hn _ hb]
  · rw [hgcn]
    exact fun m hm => hn m hm ▸ hg.own m hm
  · rw [hpc, hgcn, hlatest]
    exact hg.behind
  · rw [hpc, hlatest]
    exact fun h => Nat.lt_of_lt_of_le (hg.past h) hle
  · rw [hmark, hgcn, hlatest]
    exact fun c hc => ⟨(hg.next c hc).1, fun m hm => hn m hm ▸ (hg.next c hc).2 m hm⟩

/-- The worker has just registered, or is about to. -/
theorem Rising.register (hdirty : (u.gcn t).dirtyList.elems = []) (hmark : u.mark t = none)
    (hbehind : ¬ (u.pc t).Unset → (u.gcn t).clock ≤ u.latest t) (hpast : u.latest t < u.clock) :
    Rising u t where
  unset _ := hdirty
  sorted := by
    rw [hdirty]
    exact List.Pairwise.nil
  own m hm := by
    rw [hdirty] at hm
    cases hm
  behind := hbehind
  past _ := hpast
  next c hc := by
    rw [hmark] at hc
    cases hc

variable [DecidableEq T]

/-- A call of `getclock`. -/
theorem Rising.draw (hg : Rising g t) (hset : ¬ (g.pc t).Unset) (hset' : ¬ p.Unset)
    (hst : g.clock + 1 < UInt64.size) (hlatest : (g.getclock.goto t p).latest t = g.clock)
    (hnext : ∀ c, (g.getclock.goto t p).mark t = some c → c = g.clock ∨ g.mark t = some c) :
    Rising (g.getclock.goto t p) t := by
  have hpast : g.latest t < g.clock := hg.past fun h => hset (h ▸ trivial)
  have hown := Nat.lt_of_le_of_lt (hg.behind hset) hpast
  refine hg.keep (by rwa [goto_pc]) (.refl _) (fun _ _ => rfl) (Nat.le_refl _) ?_ ?_ fun c hc => ?_
  · rw [hlatest]
    exact Nat.le_of_lt hown
  · rw [hlatest]
    show g.clock < g.getclock.clock
    rw [getclock_clock hst]
    exact Nat.lt_succ_self _
  · rw [hlatest]
    rcases hnext c hc with rfl | hc
    · exact ⟨Nat.le_refl _, fun m hm => Nat.lt_of_le_of_lt (hg.own m hm) hown⟩
    · exact ⟨Nat.le_trans (hg.next c hc).1 (Nat.le_of_lt hpast), (hg.next c hc).2⟩

/-- The worker stores the clock that it got. -/
theorem Rising.store {c : ℕ} (hg : Rising g t) (hset : ¬ (g.pc t).Unset) (hset' : ¬ p.Unset)
    (hc : g.latest t = c) (hlatest : (g.put t { g.gcn t with clock := c } p).latest t = c)
    (hmark : (g.put t { g.gcn t with clock := c } p).mark t = g.mark t ∨
      (g.put t { g.gcn t with clock := c } p).mark t = none) :
    Rising (g.put t { g.gcn t with clock := c } p) t := by
  have hpast : g.latest t < g.clock := hg.past fun h => hset (h ▸ trivial)
  subst hc
  refine hg.keep (by rwa [put_pc]) (by rw [put_gcn]) (fun _ _ => rfl) ?_ ?_ ?_ fun c hc => ?_
  · rw [put_gcn]
    exact hg.behind hset
  · rw [put_gcn, hlatest]
  · rw [hlatest]
    exact hpast
  · rw [hlatest]
    rcases hmark with hmark | hmark
    · exact hg.next c (hmark ▸ hc)
    · rw [hmark] at hc
      cases hc

/-- The node in hand comes to the back of the dirty list. -/
theorem Rising.push (hg : Rising g t) (hp : g.pc t = .full n) (hfull : (g.gcn t).dirtyList.full = false) :
    Rising (g.put t { g.gcn t with dirtyList := (g.gcn t).dirtyList.pushBack n } .working) t := by
  obtain ⟨hlate, hall⟩ := hg.next (g.nodeClock n) (by simp only [mark, hp])
  have hpast := hg.past (by simp [hp])
  simp only [latest, hp] at hlate hpast
  have helems := CircularBuffer.pushBack_elems (n := n) hfull
  refine ⟨fun h => ?_, ?_, ?_, fun _ => by simp [latest], fun _ => by simpa [latest] using hpast, ?_⟩
  · simp [Pc.Unset] at h
  · simp only [put_gcn, put_nodeClock, helems]
    refine List.pairwise_append.mpr ⟨hg.sorted, List.pairwise_singleton .., fun m hm k hk => ?_⟩
    rw [List.mem_singleton.mp hk]
    exact hall m hm
  · simp only [put_gcn, put_nodeClock, helems, List.mem_append, List.mem_singleton]
    rintro m (hm | rfl)
    · exact hg.own m hm
    · exact hlate
  · intro c hc
    simp [mark] at hc

variable [DecidableEq N]

/-- Another worker takes a step. -/
theorem Rising.other (hg : Rising g t) (hc : Custody g.holds) (hv : v ≠ t) (hst : NoWrap g v)
    (hu : g.exec v = some (u, d)) : Rising u t := by
  obtain ⟨hpc, hgcn⟩ := exec_of_ne hu (Ne.symm hv)
  refine hg.frame hpc hgcn (fun m hm => ?_) (fun m hm => ?_) (exec_clock_le hst hu)
  · exact exec_nodeClock hu fun hhand => (not_mem_of_hand hc hhand t).1 hm
  · exact exec_nodeClock hu fun hhand => (not_mem_of_hand hc hhand t).2 (Ne.symm hv) hm

/-- The worker itself takes a step. -/
theorem Rising.exec (hg : Rising g t) (hc : Custody g.holds) (hst : NoWrap g t)
    (hu : g.exec t = some (u, d)) : Rising u t := by
  have hle := exec_clock_le hst hu
  have hnode : ∀ m ∈ (g.gcn t).dirtyList.elems, u.nodeClock m = g.nodeClock m :=
    fun m hm => exec_nodeClock hu fun hhand => (not_mem_of_hand hc hhand t).1 hm
  cases hp : g.pc t with
  | regClock =>
    simp only [NoWrap, hp] at hst
    simp only [GarbageCollector.exec, hp, Option.some.injEq, Prod.mk.injEq] at hu
    obtain ⟨rfl, -⟩ := hu
    refine .register (hg.unset (hp ▸ trivial)) (by simp [mark]) (fun h => absurd ?_ h) ?_
    · rw [goto_pc]
      trivial
    · simp only [latest, goto_pc, goto_clock, getclock_clock hst]
      exact Nat.lt_succ_self _
  | regStore c =>
    have hpast := hg.past (by simp [hp])
    simp only [latest, hp] at hpast
    simp only [GarbageCollector.exec, hp, Option.some.injEq, Prod.mk.injEq] at hu
    obtain ⟨rfl, -⟩ := hu
    refine .register ?_ (by simp [mark]) (fun _ => Nat.le_of_eq (by simp [latest]))
      (by simpa [latest] using hpast)
    rw [put_gcn]
    exact hg.unset (hp ▸ trivial)
  | cleanClock n =>
    simp only [NoWrap, hp] at hst
    simp only [GarbageCollector.exec, hp, Option.some.injEq, Prod.mk.injEq] at hu
    obtain ⟨rfl, -⟩ := hu
    refine hg.draw (by simp [hp, Pc.Unset]) (by simp [Pc.Unset]) hst (by simp [latest]) fun c hc => .inl ?_
    simpa [mark] using hc.symm
  | cleanupClock k =>
    simp only [NoWrap, hp] at hst
    simp only [GarbageCollector.exec, hp, Option.some.injEq, Prod.mk.injEq] at hu
    obtain ⟨rfl, -⟩ := hu
    refine hg.draw (by simp [hp, Pc.Unset]) (by simp [Pc.Unset]) hst (by simp [latest]) fun c hc => .inr ?_
    rw [← hc]
    cases k <;> simp [mark, hp, getclock]
  | cleanStore n c =>
    simp only [GarbageCollector.exec, hp, Option.some.injEq, Prod.mk.injEq] at hu
    obtain ⟨rfl, -⟩ := hu
    exact hg.store (by simp [hp, Pc.Unset]) (by simp [Pc.Unset]) (by simp only [latest, hp])
      (by simp [latest]) (.inl (by simp [mark, hp]))
  | cleanupStore k c =>
    have hset : ¬ (g.pc t).Unset := by simp [hp, Pc.Unset]
    have hc : g.latest t = c := by simp only [latest, hp]
    cases k with
    | clean n =>
      simp only [GarbageCollector.exec, hp, Option.some.injEq, Prod.mk.injEq] at hu
      obtain ⟨rfl, -⟩ := hu
      exact hg.store hset (by simp [Pc.Unset]) hc (by simp [latest]) (.inl (by simp [mark, hp]))
    | dereg =>
      simp only [GarbageCollector.exec, hp, Option.some.injEq, Prod.mk.injEq] at hu
      obtain ⟨rfl, -⟩ := hu
      exact hg.store hset (by simp [Pc.Unset]) hc (by simp [latest]) (.inr (by simp [mark]))
  | full n =>
    simp only [GarbageCollector.exec, hp] at hu
    split at hu <;> cases hu
    rename_i hfull
    exact hg.push hp (by simpa using hfull)
  | _ =>
    have hquiet : ¬ (g.pc t).Dates := by simp [hp, Pc.Dates]
    obtain ⟨hset', hdirty, hown, hlatest, hmark⟩ := exec_quiet hquiet hu
    exact hg.same (by simp [hp, Pc.Unset]) hset' hdirty hnode hown hlatest hle hmark

omit [DecidableEq N] in
/-- A worker that has no node with a clock goes on to something that has none. -/
theorem Rising.goto (hg : ∀ v, Rising g v) (hset : ¬ (g.pc t).Unset) (hset' : ¬ p.Unset)
    (hlatest : (g.goto t p).latest t = g.latest t) (hmark : (g.goto t p).mark t = none) (v : T) :
    Rising (g.goto t p) v := by
  by_cases hv : v = t
  · subst hv
    exact (hg v).same hset (by rwa [goto_pc]) (.refl _) (fun _ _ => rfl) rfl hlatest (Nat.le_refl _)
      (.inr hmark)
  · exact (hg v).frame (goto_pc_of_ne hv) rfl (fun _ _ => rfl) (fun _ _ => rfl) (Nat.le_refl _)

omit [DecidableEq N] in
theorem Rising.alloc {fresh : N} (hg : ∀ v, Rising g v) (hp : g.pc t = .working) (v : T) :
    Rising (g.alloc t fresh).1 v := by
  have hn : ∀ m, (g.alloc t fresh).1.nodeClock m = g.nodeClock m := fun m => by rw [alloc_nodeClock]
  by_cases hv : v = t
  · subst hv
    refine (hg v).same ?_ ?_ (by rw [alloc_dirtyList]) (fun m _ => hn m) alloc_gcnClock ?_
      (Nat.le_of_eq alloc_clock.symm) (.inr ?_)
    · simp [hp, Pc.Unset]
    · simp [Pc.Unset]
    · simp [latest, hp]
    · simp [mark]
  · exact (hg v).frame (alloc_pc_of_ne hv) (alloc_gcn_of_ne hv) (fun m _ => hn m) (fun m _ => hn m)
      (Nat.le_of_eq alloc_clock.symm)

end Exec

section Use
variable [DecidableEq T] [DecidableEq N] {g u : GarbageCollector T N} {t : T} {b : Use T N} {n : N}

/-- If users do what they owe, no node is in two places. -/
theorem use_custody (hc : Custody g.holds) (ho : OwnedUse g b) (hu : g.use b = some u) : Custody u.holds := by
  cases b with
  | call a => exact step_custody hc ho hu
  | getclock =>
    cases hu
    exact hc
  | cleanup t min | resume t =>
    simp only [use, Option.ite_none_right_eq_some, Option.some.injEq] at hu
    obtain ⟨hp, rfl⟩ := hu
    refine Moves.custody (d := []) (holds_stay (t := t) (fun v hv => ⟨goto_pc_of_ne hv, rfl⟩) ?_ rfl rfl) hc
    rw [goto_pc, hp]
    rfl

theorem step_rising {a : Call T N} (hg : ∀ t, Rising g t) (hc : Custody g.holds) (hw : Unwrapped g a)
    (hu : g.step a = some u) (v : T) : Rising u v := by
  cases a with
  | exec t =>
    obtain ⟨d, hu⟩ := exec_of_step hu
    by_cases hv : t = v
    · subst hv
      exact (hg t).exec hc hw hu
    · exact (hg v).other hc hv hw hu
  | alloc t fresh =>
    simp only [step, Option.ite_none_right_eq_some, Option.some.injEq] at hu
    obtain ⟨hp, rfl⟩ := hu
    exact Rising.alloc hg hp v
  | release t =>
    simp only [step] at hu
    split at hu <;> cases hu
    rename_i n hp
    exact Rising.goto hg (by simp [hp, Pc.Unset]) id (by simp [latest, hp]) (by simp [mark]) v
  | clean t n | dereg t =>
    simp only [step, Option.ite_none_right_eq_some, Option.some.injEq] at hu
    obtain ⟨hp, rfl⟩ := hu
    exact Rising.goto hg (by simp [hp, Pc.Unset]) id (by simp [latest, hp]) (by simp [mark]) v

theorem use_rising (hg : ∀ t, Rising g t) (hc : Custody g.holds) (hw : UnwrappedUse g b)
    (hu : g.use b = some u) (v : T) : Rising u v := by
  cases b with
  | call a => exact step_rising hg hc hw hu v
  | getclock =>
    cases hu
    refine (hg v).frame rfl rfl (fun _ _ => rfl) (fun _ _ => rfl) ?_
    rw [getclock_clock hw]
    exact Nat.le_succ _
  | cleanup t min | resume t =>
    simp only [use, Option.ite_none_right_eq_some, Option.some.injEq] at hu
    obtain ⟨hp, rfl⟩ := hu
    exact Rising.goto hg (by simp [hp, Pc.Unset]) id (by simp [latest, hp]) (by simp [mark]) v

/-- A dirty node keeps its clock. -/
theorem use_nodeClock (hc : Custody g.holds) (hu : g.use b = some u) (hn : n ∈ (g.gcn t).dirtyList.elems) :
    u.nodeClock n = g.nodeClock n := by
  cases b with
  | call a =>
    cases a with
    | exec v =>
      obtain ⟨d, hu⟩ := exec_of_step hu
      exact exec_nodeClock hu fun hhand => (not_mem_of_hand hc hhand t).1 hn
    | alloc v fresh =>
      simp only [use, step, Option.ite_none_right_eq_some, Option.some.injEq] at hu
      obtain ⟨-, rfl⟩ := hu
      rw [alloc_nodeClock]
    | release v | clean v n | dereg v =>
      simp only [use, step] at hu
      split at hu <;> cases hu
      rfl
  | getclock =>
    cases hu
    rfl
  | cleanup v min | resume v =>
    simp only [use, Option.ite_none_right_eq_some, Option.some.injEq] at hu
    obtain ⟨-, rfl⟩ := hu
    rfl

/-- What others do while a worker is in `cleanup`. -/
theorem use_of_inCleanup (hin : (g.pc t).InCleanup) (hb : b ≠ .call (.exec t)) (hu : g.use b = some u) :
    u.pc t = g.pc t ∧ u.gcn t = g.gcn t := by
  cases b with
  | call a =>
    refine step_of_busy ⟨fun hp => ?_, fun n hp => ?_⟩ (fun ha => hb (congrArg _ ha)) hu
    all_goals
      rw [hp] at hin
      exact hin
  | getclock =>
    cases hu
    exact ⟨rfl, rfl⟩
  | cleanup v min | resume v =>
    simp only [use, Option.ite_none_right_eq_some, Option.some.injEq] at hu
    obtain ⟨hp, rfl⟩ := hu
    refine ⟨goto_pc_of_ne fun hv => ?_, rfl⟩
    rw [hv, hp] at hin
    exact hin

end Use

/-! ### The lists -/

/-- From `g` to `u` nothing is pushed to a list of `t` that is full. -/
def Roomy (g u : GarbageCollector T N) (t : T) : Prop :=
  CircularBuffer.Fits .pushBack (g.gcn t).dirtyList (u.gcn t).dirtyList ∧
    CircularBuffer.Fits .pushFront (g.gcn t).cleanList (u.gcn t).cleanList

section Roomy
variable {g u : GarbageCollector T N} {t v : T} {d : List N}

theorem roomy_of_eq (hdirty : (u.gcn t).dirtyList = (g.gcn t).dirtyList)
    (hclean : (u.gcn t).cleanList = (g.gcn t).cleanList) : Roomy g u t := ⟨.inl hdirty, .inl hclean⟩

variable [DecidableEq T]

theorem roomy_put {x : GCNode N} {p : Pc T N}
    (hdirty : CircularBuffer.Fits .pushBack (g.gcn t).dirtyList x.dirtyList)
    (hclean : CircularBuffer.Fits .pushFront (g.gcn t).cleanList x.cleanList) : Roomy g (g.put t x p) t := by
  unfold Roomy
  rw [put_gcn]
  exact ⟨hdirty, hclean⟩

variable [DecidableEq N]

theorem exec_roomy (hu : g.exec v = some (u, d)) (t : T) : Roomy g u t := by
  by_cases hv : t = v
  · subst hv
    unfold exec at hu
    repeat' split at hu
    all_goals cases hu
    all_goals first
      | exact roomy_of_eq rfl rfl
      | exact roomy_put (.inl rfl) (.inl rfl)
      | exact roomy_put (.inr (.inl rfl)) (.inl rfl)
      | exact roomy_put (.inl rfl) (.inr (.inl rfl))
      -- the pushes are tested
      | exact roomy_put (.inr (.inl rfl)) (.inr (.inr ⟨_, Bool.eq_false_iff.mpr ‹_›, rfl⟩))
      | exact roomy_put (.inr (.inr ⟨_, Bool.eq_false_iff.mpr ‹_›, rfl⟩)) (.inl rfl)
  · have hgcn := (exec_of_ne hu hv).2
    exact roomy_of_eq (by rw [hgcn]) (by rw [hgcn])

omit [DecidableEq N] in
theorem alloc_roomy {fresh : N} (t : T) : Roomy g (g.alloc v fresh).1 t := by
  by_cases hv : t = v
  · subst hv
    unfold alloc
    split
    · exact roomy_put (.inl rfl) (.inr (.inl rfl))
    · exact roomy_put (.inl rfl) (.inl rfl)
  · exact roomy_of_eq alloc_dirtyList (by rw [alloc_gcn_of_ne hv])

theorem use_roomy {b : Use T N} (hu : g.use b = some u) (t : T) : Roomy g u t := by
  cases b with
  | call a =>
    cases a with
    | exec v =>
      obtain ⟨d, hu⟩ := exec_of_step hu
      exact exec_roomy hu t
    | alloc v fresh =>
      simp only [use, step, Option.ite_none_right_eq_some, Option.some.injEq] at hu
      obtain ⟨-, rfl⟩ := hu
      exact alloc_roomy t
    | release v | clean v n | dereg v =>
      simp only [use, step] at hu
      split at hu <;> cases hu
      exact roomy_of_eq rfl rfl
  | getclock =>
    cases hu
    exact roomy_of_eq rfl rfl
  | cleanup v min | resume v =>
    simp only [use, Option.ite_none_right_eq_some, Option.some.injEq] at hu
    obtain ⟨-, rfl⟩ := hu
    exact roomy_of_eq rfl rfl

end Roomy

/-! ### The loop of `cleanup` -/

/-- The nodes of a list in order of their clocks, the old ones in front. -/
theorem filter_of_sorted {f : N → ℕ} {min : ℕ} {l r : List N} (hs : (l ++ r).Pairwise fun m n => f m < f n)
    (hl : ∀ n ∈ l, f n < min) (hr : ∀ n, r.head? = some n → min ≤ f n) :
    (l ++ r).filter (f · < min) = l ∧ (l ++ r).filter (min ≤ f ·) = r := by
  have hall : ∀ n ∈ r, min ≤ f n := by
    cases r with
    | nil => exact fun n hn => absurd hn List.not_mem_nil
    | cons m r =>
      have hm := hr m rfl
      have htail := (List.pairwise_cons.mp (List.pairwise_append.mp hs).2.1).1
      intro n hn
      rcases List.mem_cons.mp hn with rfl | hn
      · exact hm
      · exact Nat.le_trans hm (Nat.le_of_lt (htail n hn))
  refine ⟨?_, ?_⟩
  · rw [List.filter_append, List.filter_eq_self.mpr (by simpa using hl),
      List.filter_eq_nil_iff.mpr (by simpa using hall), List.append_nil]
  · rw [List.filter_append, List.filter_eq_nil_iff.mpr (by simpa using hl),
      List.filter_eq_self.mpr (by simpa using hall), List.nil_append]

/-- The dirty nodes with clocks before `min`. -/
def old (g : GarbageCollector T N) (t : T) (min : ℕ) : List N :=
  (g.gcn t).dirtyList.elems.filter (g.nodeClock · < min)

/-- How many nodes the clean list can still take. -/
def room (g : GarbageCollector T N) (t : T) : ℕ := listSize - (g.gcn t).cleanList.size

/-- What `cleanup min` does from `g` to `u`, where it deletes `d`: the younger nodes stay in the
dirty list as they were, and of the old ones the first come to the front of the clean list, one
after another, and those for which it has no room are deleted. Each is there once. -/
structure Released [DecidableEq N] (g u : GarbageCollector T N) (t : T) (min : ℕ) (d : List N) : Prop where
  dirty : (u.gcn t).dirtyList.elems = (g.gcn t).dirtyList.elems.filter (min ≤ g.nodeClock ·)
  clean : (u.gcn t).cleanList.elems = ((g.old t min).take (g.room t)).reverse ++ (g.gcn t).cleanList.elems
  deleted : d = (g.old t min).drop (g.room t)
  once : ∀ n ∈ g.old t min, ((u.gcn t).cleanList.elems ++ d).count n = 1

/-- `cleanup min` began in `g`, has gone through the nodes `l`, and has deleted `d`. -/
structure Sweep (g u : GarbageCollector T N) (t : T) (min : ℕ) (l d : List N) : Prop where
  split : (g.gcn t).dirtyList.elems = l ++ (u.gcn t).dirtyList.elems
  clean : (u.gcn t).cleanList.elems = (l.take (g.room t)).reverse ++ (g.gcn t).cleanList.elems
  deleted : d = l.drop (g.room t)
  old : ∀ n ∈ l, g.nodeClock n < min
  kept : ∀ n ∈ (u.gcn t).dirtyList.elems, u.nodeClock n = g.nodeClock n
  least : ∀ k m, u.pc t = .cleanup k m → m = min
  stop : (∀ k m, u.pc t ≠ .cleanup k m) → ∀ n, (u.gcn t).dirtyList.front = some n → min ≤ g.nodeClock n

section Sweep
variable {g u w : GarbageCollector T N} {t : T} {l d e : List N} {min : ℕ} {n : N}

theorem Sweep.start {k : Caller N} (hp : g.pc t = .cleanup k min) : Sweep g g t min [] [] where
  split := rfl
  clean := by rw [List.take_nil, List.reverse_nil, List.nil_append]
  deleted := List.drop_nil.symm
  old n hn := absurd hn List.not_mem_nil
  kept n _ := rfl
  least k m hm := by
    rw [hp] at hm
    cases hm
    rfl
  stop h := absurd hp (h k min)

theorem Sweep.full_iff (hs : Sweep g u t min l d) : (u.gcn t).cleanList.full = true ↔ g.room t ≤ l.length := by
  have hle := (g.gcn t).cleanList.size_le
  have hlen := congrArg List.length hs.clean
  rw [List.length_append, List.length_reverse, List.length_take] at hlen
  rw [CircularBuffer.full, beq_iff_eq, CircularBuffer.size, hlen, room, CircularBuffer.size]
  omega

/-- The lists stay as they are. -/
theorem Sweep.stay (hs : Sweep g u t min l d) (hdirty : (w.gcn t).dirtyList = (u.gcn t).dirtyList)
    (hclean : (w.gcn t).cleanList = (u.gcn t).cleanList)
    (hn : ∀ n ∈ (u.gcn t).dirtyList.elems, w.nodeClock n = u.nodeClock n)
    (hleast : ∀ k m, w.pc t = .cleanup k m → m = min)
    (hstop : (∀ k m, w.pc t ≠ .cleanup k m) → ∀ n, (u.gcn t).dirtyList.front = some n → min ≤ g.nodeClock n) :
    Sweep g w t min l d where
  split := by rw [hdirty, hs.split]
  clean := by rw [hclean, hs.clean]
  deleted := hs.deleted
  old := hs.old
  kept n hm := by
    rw [hdirty] at hm
    rw [hn n hm, hs.kept n hm]
  least := hleast
  stop h n hm := by
    rw [hdirty] at hm
    exact hstop h n hm

/-- The first node is old; it comes to the clean list, or is deleted if there is no room. -/
theorem Sweep.pop {k : Caller N} (hs : Sweep g u t min l d) (hm : (u.gcn t).dirtyList.front = some n)
    (hold : u.nodeClock n < min) (hdirty : (w.gcn t).dirtyList = (u.gcn t).dirtyList.popFront)
    (hclean : (w.gcn t).cleanList.elems =
      if (u.gcn t).cleanList.full then (u.gcn t).cleanList.elems else n :: (u.gcn t).cleanList.elems)
    (he : e = if (u.gcn t).cleanList.full then [n] else []) (hn : w.nodeClock = u.nodeClock)
    (hp : w.pc t = .cleanup k min) : Sweep g w t min (l ++ [n]) (d ++ e) := by
  have helems := CircularBuffer.elems_eq_cons hm
  have hmem : n ∈ (u.gcn t).dirtyList.elems := helems ▸ List.mem_cons_self
  refine ⟨?_, ?_, ?_, ?_, ?_, ?_, fun h => absurd hp (h k min)⟩
  · rw [hdirty, List.append_assoc, List.singleton_append, ← helems]
    exact hs.split
  · rw [hclean, hs.clean]
    split <;> rename_i hfull <;> rw [hs.full_iff] at hfull
    · rw [List.take_append_of_le_length hfull]
    · rw [List.take_of_length_le (by omega), List.take_of_length_le (by rw [List.length_append]; simp; omega)]
      simp
  · rw [he, hs.deleted]
    split <;> rename_i hfull <;> rw [hs.full_iff] at hfull
    · rw [List.drop_append_of_le_length hfull]
    · rw [List.drop_eq_nil_of_le (by omega), List.drop_eq_nil_of_le (by rw [List.length_append]; simp; omega)]
      rfl
  · intro m hm
    rcases List.mem_append.mp hm with hm | hm
    · exact hs.old m hm
    · rw [List.mem_singleton.mp hm, ← hs.kept n hmem]
      exact hold
  · rw [hdirty, hn]
    exact fun m hm => hs.kept m (helems ▸ List.mem_cons_of_mem n hm)
  · intro k' m hm
    rw [hp] at hm
    cases hm
    rfl

end Sweep

section Run
variable [DecidableEq T] [DecidableEq N] {g u w : GarbageCollector T N} {t : T} {l d e : List N} {min : ℕ}
  {b : Use T N}

/-- The worker takes a step in `cleanup`. -/
theorem Sweep.exec (hs : Sweep g u t min l d) (hc : Custody u.holds) (hin : (u.pc t).InCleanup)
    (hw : u.exec t = some (w, e)) : ∃ l', Sweep g w t min l' (d ++ e) := by
  have hnode : ∀ n ∈ (u.gcn t).dirtyList.elems, w.nodeClock n = u.nodeClock n :=
    fun n hn => exec_nodeClock hw fun hhand => (not_mem_of_hand hc hhand t).1 hn
  cases hp : u.pc t with
  | cleanup k m =>
    obtain rfl := hs.least k m hp
    simp only [GarbageCollector.exec, hp] at hw
    split at hw
    · rename_i hfront
      cases hw
      rw [List.append_nil]
      refine ⟨l, hs.stay rfl rfl hnode (by simp) fun _ n hn => ?_⟩
      rw [hfront] at hn
      cases hn
    · rename_i n hn
      split at hw
      · rename_i hold
        split at hw <;> cases hw <;> rename_i hfull
        · refine ⟨_, hs.pop (k := k) hn hold (by rw [put_gcn]) ?_ (if_pos hfull).symm rfl (by rw [put_pc])⟩
          rw [if_pos hfull, put_gcn]
        · refine ⟨_, hs.pop (k := k) hn hold (by rw [put_gcn]) ?_ (if_neg hfull).symm rfl (by rw [put_pc])⟩
          rw [if_neg hfull, put_gcn, CircularBuffer.pushFront_elems (by simpa using hfull)]
      · rename_i hyoung
        cases hw
        rw [List.append_nil]
        refine ⟨l, hs.stay rfl rfl hnode (by simp) fun _ n' hn' => ?_⟩
        obtain rfl : n = n' := Option.some.inj (hn.symm.trans hn')
        rw [← hs.kept n (CircularBuffer.elems_eq_cons hn ▸ List.mem_cons_self)]
        exact Nat.le_of_not_lt hyoung
  | cleanupClock k =>
    have hstop := hs.stop (by simp [hp])
    simp only [GarbageCollector.exec, hp, Option.some.injEq, Prod.mk.injEq] at hw
    obtain ⟨rfl, rfl⟩ := hw
    rw [List.append_nil]
    exact ⟨l, hs.stay rfl rfl hnode (by simp) fun _ => hstop⟩
  | cleanupStore k c =>
    have hstop := hs.stop (by simp [hp])
    cases k <;> simp only [GarbageCollector.exec, hp, Option.some.injEq, Prod.mk.injEq] at hw <;>
      obtain ⟨rfl, rfl⟩ := hw
    all_goals rw [List.append_nil]
    all_goals exact ⟨l, hs.stay (by rw [put_gcn]) (by rw [put_gcn]) hnode (by simp) fun _ => hstop⟩
  | _ =>
    rw [hp] at hin
    exact hin.elim

/-- The nodes that `t` deletes. -/
def deletes (t : T) (g : GarbageCollector T N) : Use T N → List N
  | .call (.exec v) => if v = t then ((g.exec t).map Prod.snd).getD [] else []
  | _ => []

theorem deletes_of_ne (hb : b ≠ .call (.exec t)) : deletes t g b = [] := by
  unfold deletes
  split
  · rename_i v
    exact if_neg fun hv => hb (by rw [hv])
  · rfl

theorem Sweep.use (hs : Sweep g u t min l d) (hc : Custody u.holds) (hin : (u.pc t).InCleanup)
    (hw : u.use b = some w) : ∃ l', Sweep g w t min l' (d ++ deletes t u b) := by
  by_cases hb : b = .call (.exec t)
  · subst hb
    obtain ⟨e, hw⟩ := exec_of_step hw
    rw [deletes, if_pos rfl, hw]
    exact hs.exec hc hin hw
  · obtain ⟨hpc, hgcn⟩ := use_of_inCleanup hin hb hw
    rw [deletes_of_ne hb, List.append_nil]
    refine ⟨l, hs.stay (by rw [hgcn]) (by rw [hgcn]) (fun n hn => use_nodeClock hc hw hn) ?_ ?_⟩
    · rw [hpc]
      exact hs.least
    · rw [hpc]
      exact hs.stop

omit [DecidableEq T] in
/-- The end of `cleanup`. -/
theorem Sweep.released (hs : Sweep g u t min l d) (hg : Rising g t) (hc : Custody g.holds)
    (hout : ¬ (u.pc t).InCleanup) : Released g u t min d := by
  have hstop := hs.stop fun k m hp => hout (by rw [hp]; trivial)
  obtain ⟨hold, hyoung⟩ := filter_of_sorted (hs.split ▸ hg.sorted) hs.old hstop
  rw [← hs.split] at hold hyoung
  obtain rfl : g.old t min = l := hold
  refine ⟨hyoung.symm, hs.clean, hs.deleted, fun n hn => ?_⟩
  have hperm : ((u.gcn t).cleanList.elems ++ d).Perm (g.old t min ++ (g.gcn t).cleanList.elems) := by
    rw [hs.clean, hs.deleted, List.append_assoc]
    refine (List.reverse_perm _).append_right _ |>.trans ?_
    refine (List.perm_append_comm.append_left _).trans ?_
    rw [← List.append_assoc, List.take_append_drop]
  have hdirty : n ∈ g.holds (.dirty t) := List.mem_of_mem_filter hn
  have hclean : n ∉ (g.gcn t).cleanList.elems := hc.disjoint (i := .dirty t) (j := .clean t) (by simp) hdirty
  rw [hperm.count_eq, List.count_append, List.count_eq_zero_of_not_mem hclean]
  exact List.count_eq_one_of_mem ((hc.once (.dirty t)).filter _) hn

theorem cleanup_isSome (hin : (g.pc t).InCleanup) : (g.exec t).isSome := by
  unfold GarbageCollector.exec
  split
  all_goals rename_i hp
  all_goals rw [hp] at hin
  all_goals try exact hin.elim
  all_goals repeat' split
  all_goals rfl

/-- What is left to do in `cleanup`. -/
def remaining (g : GarbageCollector T N) (t : T) : ℕ :=
  match g.pc t with
  | .cleanup _ _ => (g.gcn t).dirtyList.elems.length + 2
  | .cleanupClock _ => 1
  | _ => 0

theorem remaining_lt (hin : (g.pc t).InCleanup) (hu : g.exec t = some (u, d)) :
    u.remaining t < g.remaining t ∨ ¬ (u.pc t).InCleanup := by
  cases hp : g.pc t with
  | cleanup k min =>
    left
    simp only [GarbageCollector.exec, hp] at hu
    split at hu
    · cases hu
      simp [remaining, hp]
    · rename_i m hm
      have helems := CircularBuffer.elems_eq_cons hm
      repeat' split at hu
      all_goals cases hu
      all_goals simp [remaining, hp, helems]
  | cleanupClock k =>
    left
    simp only [GarbageCollector.exec, hp, Option.some.injEq, Prod.mk.injEq] at hu
    obtain ⟨rfl, -⟩ := hu
    simp [remaining, hp]
  | cleanupStore k c =>
    right
    cases k <;> simp only [GarbageCollector.exec, hp, Option.some.injEq, Prod.mk.injEq] at hu <;>
      obtain ⟨rfl, -⟩ := hu
    all_goals simp [Pc.InCleanup]
  | _ =>
    rw [hp] at hin
    exact hin.elim

/-- `cleanup` ends if its worker goes on taking steps. -/
theorem cleanup_ends {f : ℕ → GarbageCollector T N} {act : ℕ → Option (Use T N)}
    (he : Execution (users T N) Free f act) (hin : ((f 0).pc t).InCleanup)
    (hfair : ∀ n, ((f n).pc t).InCleanup → ∃ m, n ≤ m ∧ act m = some (.call (.exec t))) :
    ∃ n, ¬ ((f n).pc t).InCleanup := by
  refine he.leads (J := fun x => (x.pc t).InCleanup) (Q := fun x => ¬ (x.pc t).InCleanup)
    (· = .call (.exec t)) (fun x => x.remaining t) hin (fun _ _ _ _ _ _ => Decidable.em _) ?_ ?_ ?_
  · rintro x b y hx - hy rfl
    obtain ⟨e, hz⟩ := exec_of_step hy
    exact remaining_lt hx hz
  · rintro x b y hx - hy hb
    obtain ⟨hpc, hgcn⟩ := use_of_inCleanup hx hb hy
    left
    simp only [remaining, hpc, hgcn]
  · exact fun n hn => (hfair n hn).imp fun m hm => ⟨_, hm.1, hm.2, rfl⟩

/-- Users do what they owe, and `t` stays in `cleanup`. -/
def During (t : T) : Guard (GarbageCollector T N) (Use T N) := fun g b => OwnedUse g b ∧ (g.pc t).InCleanup

instance [Fintype T] (t : T) (g : GarbageCollector T N) (b : Use T N) : Decidable (During t g b) :=
  inferInstanceAs (Decidable (OwnedUse g b ∧ (g.pc t).InCleanup))

/-- Whatever users do, no list gets a node for which it has no room, and `cleanup` never waits and
ends if its worker goes on taking steps. If no clock wraps and users do what they owe, then in every
state that they reach the clocks in a dirty list increase, none is after the clock of its worker,
and `cleanup` releases the old nodes. -/
theorem cleanup_releases (gcnClock : T → ℕ) (nodeClock : N → ℕ) (t : T) :
    (∀ h g, Run (users T N) Free (initial gcnClock nodeClock) h g →
      (∀ b u, g.use b = some u → Roomy g u t) ∧
      ((g.pc t).InCleanup → (g.exec t).isSome ∧
        ∀ f act, Execution (users T N) Free f act → f 0 = g →
          (∀ n, ((f n).pc t).InCleanup → ∃ m, n ≤ m ∧ act m = some (.call (.exec t))) →
            ∃ n, ¬ ((f n).pc t).InCleanup)) ∧
    ∀ h g, Run (users T N) OrderlyUse (initial gcnClock nodeClock) h g →
      ((g.gcn t).dirtyList.elems.Pairwise (fun m n => g.nodeClock m < g.nodeClock n) ∧
        ∀ n ∈ (g.gcn t).dirtyList.elems, g.nodeClock n ≤ (g.gcn t).clock) ∧
      ∀ k min, g.pc t = .cleanup k min →
        ∀ d u, Run ((users T N).observe (deletes t)) (During t) g d u → ¬ (u.pc t).InCleanup →
          Released g u t min d := by
  refine ⟨fun _ g _ => ⟨fun b u hu => use_roomy hu t, fun hin => ⟨cleanup_isSome hin, ?_⟩⟩, fun h g hr => ?_⟩
  · rintro f act he rfl hfair
    exact cleanup_ends he hin hfair
  have h0 : Custody (initial gcnClock nodeClock : GarbageCollector T N).holds :=
    (Tidy.initial gcnClock nodeClock).custody
  obtain ⟨hc, hg⟩ := hr.always (I := fun g => Custody g.holds ∧ ∀ t, Rising g t)
    ⟨h0, .initial gcnClock nodeClock⟩
    fun _ _ _ ⟨hc, hg⟩ hb hu => ⟨use_custody hc hb.1 hu, use_rising hg hc hb.2 hu⟩
  refine ⟨⟨(hg t).sorted, (hg t).own⟩, fun k min hp d u hd hout => ?_⟩
  obtain ⟨-, l, hs⟩ := hd.invariant (I := fun d u => Custody u.holds ∧ ∃ l, Sweep g u t min l d)
    ⟨hc, [], .start hp⟩ fun d x b y ⟨hx, l, hs⟩ hb hy => ⟨use_custody hx hb.1 hy, hs.use hx hb.2 hy⟩
  exact hs.released (hg t) hc hout

omit [DecidableEq T] in
/-- An old node is still in the dirty list. -/
theorem not_released {n : N} (hn : n ∈ (u.gcn t).dirtyList.elems) (hold : g.nodeClock n < min) :
    ¬ Released g u t min d := by
  intro hu
  rw [hu.dirty, List.mem_filter, decide_eq_true_iff] at hn
  exact Nat.not_le_of_lt hold hn.2

end Run

/-- Of two dirty nodes `cleanup` releases the one with a clock before 5. -/
theorem cleanup_releases_first : ∃ (h : List Empty) (g : GarbageCollector (Fin 2) ℕ),
    Run (users (Fin 2) ℕ) OrderlyUse (initial (fun _ => 0) fun _ => 0) h g ∧
      (g.gcn 0).dirtyList.elems = [0, 1] ∧ g.nodeClock 0 < g.nodeClock 1 ∧ g.nodeClock 1 ≤ (g.gcn 0).clock ∧
      (∀ b u, g.use b = some u → Roomy g u 0) ∧
      ∃ d u, Run ((users (Fin 2) ℕ).observe (deletes 0)) (During 0) g d u ∧ Released g u 0 5 d ∧
        (u.gcn 0).dirtyList.elems = [1] ∧ (u.gcn 0).cleanList.elems = [0] := by
  obtain ⟨h, g, hr, ht⟩ := exists_run_of_exec (P := users (Fin 2) ℕ)
    (C := fun g b => OwnedUse g b ∧ g.clock + 1 < UInt64.size) (s := initial (fun _ => 0) fun _ => 0)
    (List.flatten [List.replicate 3 (.call (.exec 0)), List.replicate 3 (.call (.exec 1)), [.getclock],
      .call (.clean 0 0) :: List.replicate 13 (.call (.exec 0)),
      .call (.clean 0 1) :: List.replicate 13 (.call (.exec 0)), [.cleanup 0 5]])
    (fun _ g => (g.pc 0 == .cleanup .dereg 5 && (g.gcn 0).dirtyList.elems == [0, 1]) &&
      (((users (Fin 2) ℕ).observe (deletes 0)).exec (During 0) g (List.replicate 4 (.call (.exec 0)))).any
        fun r => r.2.pc 0 == .deregTest && (r.2.gcn 0).dirtyList.elems == [1] &&
          (r.2.gcn 0).cleanList.elems == [0]) (by decide +kernel)
  simp only [Bool.and_eq_true, beq_iff_eq] at ht
  obtain ⟨⟨hp, hdirty⟩, hloop⟩ := ht
  obtain ⟨d, u, hd, hend⟩ := exists_run_of_exec _
    (fun _ (u : GarbageCollector (Fin 2) ℕ) => u.pc 0 == .deregTest && (u.gcn 0).dirtyList.elems == [1] &&
      (u.gcn 0).cleanList.elems == [0]) hloop
  simp only [Bool.and_eq_true, beq_iff_eq] at hend
  have hr' := hr.mono (D := OrderlyUse) fun x b hx => ⟨hx.1, unwrappedUse_of_lt hx.2⟩
  obtain ⟨hfree, horderly⟩ := cleanup_releases (fun _ : Fin 2 => 0) (fun _ : ℕ => 0) 0
  obtain ⟨⟨hsorted, hown⟩, hcleanup⟩ := horderly h g hr'
  have hroomy := (hfree h g (hr'.mono fun _ _ _ => trivial)).1
  rw [hdirty] at hsorted hown
  have hreleased := hcleanup _ _ hp d u hd (by rw [hend.1.1]; exact id)
  exact ⟨h, g, hr', hdirty, by simpa using hsorted, hown 1 (by simp), hroomy, d, u, hd, hreleased,
    hend.1.2, hend.2⟩

/-! ### When the clock wraps, or a node is cleaned twice -/

/-- Worker 0 is in `cleanup` and has two dirty nodes, of which the first is not the older one. -/
theorem missed {C : Guard (GarbageCollector (Fin 2) ℕ) (Use (Fin 2) ℕ)} {s g : GarbageCollector (Fin 2) ℕ}
    {h : List Empty} {m n min : ℕ} (hr : Run (users (Fin 2) ℕ) C s h g)
    (hdirty : (g.gcn 0).dirtyList.elems = [m, n]) (hmn : g.nodeClock n ≤ g.nodeClock m)
    (hown : (g.gcn 0).clock < g.nodeClock m) (hold : g.nodeClock n < min) (hp : g.pc 0 = .cleanup .dereg min)
    (hloop : (((users (Fin 2) ℕ).observe (deletes 0)).exec (During 0) g
      (List.replicate 3 (.call (.exec 0)))).any fun (_, (u : GarbageCollector (Fin 2) ℕ)) =>
        u.pc 0 == .deregTest && (u.gcn 0).dirtyList.elems == [m, n]) :
    Run (users (Fin 2) ℕ) C s h g ∧
      ¬ (g.gcn 0).dirtyList.elems.Pairwise (fun m n => g.nodeClock m < g.nodeClock n) ∧
      ¬ (∀ n ∈ (g.gcn 0).dirtyList.elems, g.nodeClock n ≤ (g.gcn 0).clock) ∧ g.pc 0 = .cleanup .dereg min ∧
      ∃ d u, Run ((users (Fin 2) ℕ).observe (deletes 0)) (During 0) g d u ∧ ¬ (u.pc 0).InCleanup ∧
        ¬ Released g u 0 min d := by
  obtain ⟨d, u, hd, hend⟩ := exists_run_of_exec _ (fun _ (u : GarbageCollector (Fin 2) ℕ) =>
    u.pc 0 == .deregTest && (u.gcn 0).dirtyList.elems == [m, n]) hloop
  rw [Bool.and_eq_true, beq_iff_eq, beq_iff_eq] at hend
  refine ⟨hr, fun hsorted => ?_, fun hall => ?_, hp, d, u, hd, by rw [hend.1]; exact id, ?_⟩
  · rw [hdirty, List.pairwise_pair] at hsorted
    exact Nat.not_lt_of_le hmn hsorted
  · exact Nat.not_le_of_lt hown (hall m (by rw [hdirty]; exact List.mem_cons_self))
  · exact not_released (n := n) (by rw [hend.2]; simp) hold

/-- First, the first node has the largest clock; the worker's next clock is 1, and so is that of its
next node, which `cleanup` does not find. Second, no clock wraps, but the other worker cleans the
first node again, which so gets a clock after that of the second one. -/
theorem cleanup_wrapped :
    (∃ (h : List Empty) (g : GarbageCollector (Fin 2) ℕ),
      Run (users (Fin 2) ℕ) OwnedUse (initial (fun _ => 0) fun _ => 0) h g ∧
        ¬ (g.gcn 0).dirtyList.elems.Pairwise (fun m n => g.nodeClock m < g.nodeClock n) ∧
        ¬ (∀ n ∈ (g.gcn 0).dirtyList.elems, g.nodeClock n ≤ (g.gcn 0).clock) ∧ g.pc 0 = .cleanup .dereg 2 ∧
        ∃ d u, Run ((users (Fin 2) ℕ).observe (deletes 0)) (During 0) g d u ∧ ¬ (u.pc 0).InCleanup ∧
          ¬ Released g u 0 2 d) ∧
    ∃ (h : List Empty) (g : GarbageCollector (Fin 2) ℕ),
      Run (users (Fin 2) ℕ) UnwrappedUse (initial (fun _ => 0) fun _ => 0) h g ∧
        ¬ (g.gcn 0).dirtyList.elems.Pairwise (fun m n => g.nodeClock m < g.nodeClock n) ∧
        ¬ (∀ n ∈ (g.gcn 0).dirtyList.elems, g.nodeClock n ≤ (g.gcn 0).clock) ∧ g.pc 0 = .cleanup .dereg 6 ∧
        ∃ d u, Run ((users (Fin 2) ℕ).observe (deletes 0)) (During 0) g d u ∧ ¬ (u.pc 0).InCleanup ∧
          ¬ Released g u 0 6 d := by
  refine ⟨?_, ?_⟩
  · obtain ⟨h, g, hr, ht⟩ := exists_run_of_exec (P := users (Fin 2) ℕ) (C := OwnedUse)
      (s := burning 0 0xfffffffffffffffe 0xfffffffffffffffd [] .working)
      (List.flatten [List.replicate 3 (.call (.exec 1)),
        .call (.clean 0 0) :: List.replicate 12 (.call (.exec 0)),
        .call (.clean 1 1) :: List.replicate 9 (.call (.exec 1)),
        .call (.clean 0 2) :: List.replicate 13 (.call (.exec 0)), [.cleanup 0 2]])
      (fun _ g => ((g.gcn 0).dirtyList.elems == [0, 2] && g.nodeClock 0 == 0xffffffffffffffff &&
        g.nodeClock 2 == 1 && (g.gcn 0).clock == 1 && g.pc 0 == .cleanup .dereg 2) &&
        (((users (Fin 2) ℕ).observe (deletes 0)).exec (During 0) g (List.replicate 3 (.call (.exec 0)))).any
          fun (_, (u : GarbageCollector (Fin 2) ℕ)) =>
            u.pc 0 == .deregTest && (u.gcn 0).dirtyList.elems == [0, 2]) (by decide +kernel)
    simp only [Bool.and_eq_true, beq_iff_eq] at ht
    obtain ⟨⟨⟨⟨⟨hdirty, h0⟩, h2⟩, hown⟩, hp⟩, hloop⟩ := ht
    have hrun := (users_of_client (burning_run 0xfffffffffffffffc (by decide))).trans hr
    exact ⟨h, g, missed hrun hdirty (by omega) (by omega) (by omega) hp hloop⟩
  · obtain ⟨h, g, hr, ht⟩ := exists_run_of_exec (P := users (Fin 2) ℕ)
      (C := fun g _ => g.clock + 1 < UInt64.size) (s := initial (fun _ => 0) fun _ => 0)
      (List.flatten [List.replicate 3 (.call (.exec 0)), List.replicate 3 (.call (.exec 1)), [.getclock],
        .call (.clean 0 0) :: List.replicate 13 (.call (.exec 0)),
        .call (.clean 0 1) :: List.replicate 13 (.call (.exec 0)),
        .call (.clean 1 0) :: List.replicate 12 (.call (.exec 1)), [.cleanup 0 6]])
      (fun _ g => ((g.gcn 0).dirtyList.elems == [0, 1] && g.nodeClock 0 == 6 && g.nodeClock 1 == 5 &&
        (g.gcn 0).clock == 5 && g.pc 0 == .cleanup .dereg 6) &&
        (((users (Fin 2) ℕ).observe (deletes 0)).exec (During 0) g (List.replicate 3 (.call (.exec 0)))).any
          fun (_, (u : GarbageCollector (Fin 2) ℕ)) =>
            u.pc 0 == .deregTest && (u.gcn 0).dirtyList.elems == [0, 1]) (by decide +kernel)
    simp only [Bool.and_eq_true, beq_iff_eq] at ht
    obtain ⟨⟨⟨⟨⟨hdirty, h0⟩, h1⟩, hown⟩, hp⟩, hloop⟩ := ht
    have hrun := hr.mono (D := UnwrappedUse) fun _ _ hlt => unwrappedUse_of_lt hlt
    exact ⟨h, g, missed hrun hdirty (by omega) (by omega) (by omega) hp hloop⟩

end GarbageCollector

end Multicore.Reclaim
