import Multicore.Reclaim.Shield
import Multicore.Reclaim.Accounting

/-! Any client of the collector. A worker that has nothing else to do calls `alloc`, gives
away the node that it has got, cleans a node that is nowhere in the collector, or
deregisters. A node gets the clock of its worker before it comes to the back of the dirty
list, so the clocks of a dirty list are in order, and all of them were handed out before. -/

namespace Multicore.Reclaim

open Runs

/-- A worker takes a step inside the collector, calls `alloc`, gives its node away, calls
`clean`, or calls `dereg`. -/
inductive Call (T N : Type*)
  | exec (t : T) | alloc (t : T) (fresh : N) | release (t : T) | clean (t : T) (n : N) | dereg (t : T)

/-- `reg` has not set the clock of the worker. -/
def Pc.Unset {T N : Type*} : Pc T N → Prop
  | .regClock | .regStore _ => True
  | _ => False

/-- The worker gets a clock or stores one, or a node comes to its dirty list. -/
def Pc.Dates {T N : Type*} : Pc T N → Prop
  | .regClock | .regStore _ | .cleanClock _ | .cleanStore _ _ | .cleanupClock _ | .cleanupStore _ _
  | .full _ => True
  | _ => False

namespace GarbageCollector

variable {T N : Type*}

/-- What a client owes the collector: new nodes and nodes that are cleaned are in none of its
places. -/
def Owned : Guard (GarbageCollector T N) (Call T N) := fun g a =>
  match a with
  | .alloc t fresh => (g.gcn t).cleanList.front = none → ∀ i, fresh ∉ g.holds i
  | .clean _ n => ∀ i, n ∉ g.holds i
  | .exec _ | .release _ | .dereg _ => True

/-- No call of `getclock` wraps the clock. -/
def Unwrapped : Guard (GarbageCollector T N) (Call T N) := fun g a =>
  match a with
  | .exec t => g.NoWrap t
  | .alloc _ _ | .release _ | .clean _ _ | .dereg _ => True

theorem unwrapped_of_lt {g : GarbageCollector T N} {a : Call T N} (h : g.clock + 1 < UInt64.size) :
    Unwrapped g a := by
  cases a with
  | exec t =>
    show NoWrap g t
    unfold NoWrap
    split
    all_goals first
      | exact h
      | trivial
  | alloc t fresh | release t | clean t n | dereg t => trivial

instance [Fintype T] [DecidableEq N] (g : GarbageCollector T N) (n : N) : Decidable (∀ i, n ∉ g.holds i) :=
  decidable_of_iff (∀ t, n ∉ g.holds (.hand t) ∧ n ∉ g.holds (.dirty t) ∧ n ∉ g.holds (.clean t))
    ⟨fun h i => by
      cases i with
      | hand t => exact (h t).1
      | dirty t => exact (h t).2.1
      | clean t => exact (h t).2.2, fun h t => ⟨h _, h _, h _⟩⟩

instance [Fintype T] [DecidableEq N] : ∀ (g : GarbageCollector T N) a, Decidable (Owned g a)
  | g, .alloc t fresh =>
    inferInstanceAs (Decidable ((g.gcn t).cleanList.front = none → ∀ i, fresh ∉ g.holds i))
  | g, .clean _ n => inferInstanceAs (Decidable (∀ i, n ∉ g.holds i))
  | _, .exec _ | _, .release _ | _, .dereg _ => .isTrue trivial

section Step
variable [DecidableEq T] [DecidableEq N]

def step (g : GarbageCollector T N) : Call T N → Option (GarbageCollector T N)
  | .exec t => (g.exec t).map Prod.fst
  | .alloc t fresh => if g.pc t = .working then some (g.alloc t fresh).1 else none
  | .release t => match g.pc t with
    | .allocated _ => some (g.goto t .working)
    | _ => none
  | .clean t n => if g.pc t = .working then some (g.goto t (.cleanClock n)) else none
  | .dereg t => if g.pc t = .working then some (g.goto t .deregTest) else none

def client (T N : Type*) [DecidableEq T] [DecidableEq N] :
    Program (GarbageCollector T N) (Call T N) Empty := ⟨step, fun _ _ => []⟩

theorem exec_of_step {g u : GarbageCollector T N} {t : T} (hu : g.step (.exec t) = some u) :
    ∃ d, g.exec t = some (u, d) := by
  obtain ⟨r, hr, rfl⟩ := Option.map_eq_some_iff.mp hu
  exact ⟨r.2, hr⟩

end Step

section Places
variable {g u : GarbageCollector T N} {t : T} {a : Call T N}

/-- What a worker has in hand is in no list, and in no other hand. -/
theorem not_mem_of_hand {n : N} (hc : Custody g.holds) (hn : (g.pc t).hand = some n) (v : T) :
    n ∉ (g.gcn v).dirtyList.elems ∧ (v ≠ t → (g.pc v).hand ≠ some n) := by
  have hmem : n ∈ g.holds (.hand t) := by
    rw [hand_eq hn]
    exact List.mem_cons_self
  refine ⟨hc.disjoint (i := .hand t) (j := .dirty v) nofun hmem, fun hv hn' => hv ?_⟩
  have hmem' : n ∈ g.holds (.hand v) := by
    rw [hand_eq hn']
    exact List.mem_cons_self
  exact Spot.hand.inj (hc.unique _ _ n hmem' hmem)

variable [DecidableEq T] [DecidableEq N]

/-- If clients do what they owe, no node is in two places. -/
theorem step_custody (hc : Custody g.holds) (ho : Owned g a) (hu : g.step a = some u) : Custody u.holds := by
  cases a with
  | exec t =>
    obtain ⟨d, hu⟩ := exec_of_step hu
    exact (exec_moves hu).custody hc
  | alloc t fresh =>
    simp only [step, Option.ite_none_right_eq_some, Option.some.injEq] at hu
    obtain ⟨hp, rfl⟩ := hu
    have hhand : (g.pc t).hand = none := by
      rw [hp]
      rfl
    cases hn : (g.gcn t).cleanList.front with
    | some n => exact (alloc_moves hhand hn).custody hc
    | none =>
      obtain ⟨hnew, hrest⟩ := alloc_fresh fresh hn
      refine hc.enter (ho hn) ?_ hrest
      rw [hnew, hand_nil hhand]
  | release t =>
    simp only [step] at hu
    split at hu <;> cases hu
    rename_i n hp
    refine (hc.leave (i := .hand t) (n := n) ?_ fun i hi => holds_goto i hi).1
    rw [hand_eq (by rw [hp]; rfl), hand_goto]
    exact .refl _
  | clean t n =>
    simp only [step, Option.ite_none_right_eq_some, Option.some.injEq] at hu
    obtain ⟨hp, rfl⟩ := hu
    refine hc.enter ho ?_ fun i hi => holds_goto i hi
    rw [hand_nil (g := g) (by rw [hp]; rfl), hand_goto]
    exact .refl _
  | dereg t =>
    simp only [step, Option.ite_none_right_eq_some, Option.some.injEq] at hu
    obtain ⟨hp, rfl⟩ := hu
    refine Moves.custody (d := []) ?_ hc
    refine holds_stay (t := t) (fun v hv => ⟨goto_pc_of_ne hv, rfl⟩) ?_ rfl rfl
    rw [goto_pc, hp]
    rfl

end Places

/-! ### The clocks of dirty nodes -/

/-- The clock that the node in hand is going to have in the dirty list, once it is known. -/
def mark (g : GarbageCollector T N) (t : T) : Option ℕ :=
  match g.pc t with
  | .cleanStore _ c => some c
  | .rdlock (.clean _) | .test (.clean _) _ _ | .take (.clean _) _ _ _ | .unlock (.clean _) _
  | .compare _ _ | .stamp _ _ => some (g.gcn t).clock
  | .size n _ | .cleanup (.clean n) _ | .cleanupClock (.clean n) | .cleanupStore (.clean n) _ | .full n =>
    some (g.nodeClock n)
  | _ => none

/-- The clock that the worker got last, also before it stores it. -/
def latest (g : GarbageCollector T N) (t : T) : ℕ :=
  match g.pc t with
  | .regStore c | .cleanStore _ c | .cleanupStore _ c => c
  | _ => (g.gcn t).clock

/-- The clocks in the dirty list are in order, and the clock of the next node is not before them. -/
structure Ordered (g : GarbageCollector T N) (t : T) : Prop where
  sorted : (g.gcn t).dirtyList.elems.Pairwise fun m n => g.nodeClock m ≤ g.nodeClock n
  old : ∀ m ∈ (g.gcn t).dirtyList.elems, g.nodeClock m < g.clock
  next : ∀ c, g.mark t = some c → c < g.clock ∧ ∀ m ∈ (g.gcn t).dirtyList.elems, g.nodeClock m ≤ c

section Exec
variable [DecidableEq T] [DecidableEq N] {g u : GarbageCollector T N} {t v : T} {d : List N}
  {n m : N} {p : Pc T N}

omit [DecidableEq T] [DecidableEq N] in
/-- A step that adds nothing to the dirty list. -/
theorem Ordered.keep (hg : Ordered g t)
    (hdirty : (u.gcn t).dirtyList.elems.Sublist (g.gcn t).dirtyList.elems) (hle : g.clock ≤ u.clock)
    (hn : ∀ m ∈ (g.gcn t).dirtyList.elems, u.nodeClock m = g.nodeClock m)
    (hnext : ∀ c, u.mark t = some c → c < u.clock ∧ ∀ m ∈ (g.gcn t).dirtyList.elems, g.nodeClock m ≤ c) :
    Ordered u t := by
  refine ⟨?_, fun m hm => ?_, fun c hc => ⟨(hnext c hc).1, fun m hm => ?_⟩⟩
  · refine (hg.sorted.sublist hdirty).imp_of_mem fun ha hb h => ?_
    rwa [hn _ (hdirty.subset ha), hn _ (hdirty.subset hb)]
  · rw [hn m (hdirty.subset hm)]
    exact Nat.lt_of_lt_of_le (hg.old m (hdirty.subset hm)) hle
  · rw [hn m (hdirty.subset hm)]
    exact (hnext c hc).2 m (hdirty.subset hm)

/-- Another worker takes a step. -/
theorem Ordered.other (hg : Ordered g t) (hv : v ≠ t) (hst : NoWrap g v) (hu : g.exec v = some (u, d))
    (hn : ∀ m, (g.pc v).hand = some m → m ∉ (g.gcn t).dirtyList.elems ∧ (g.pc t).hand ≠ some m) :
    Ordered u t := by
  obtain ⟨hpc, hgcn⟩ := exec_of_ne hu (Ne.symm hv)
  have hle := exec_clock_le hst hu
  refine hg.keep (by rw [hgcn]) hle ?_ ?_
  · exact fun m hm => exec_nodeClock hu fun hhand => (hn m hhand).1 hm
  · have hmark : u.mark t = g.mark t := by
      unfold mark
      rw [hpc, hgcn]
      split
      all_goals first
        | rfl
        | rename_i hp
          exact congrArg some (exec_nodeClock hu fun hhand => (hn _ hhand).2 (by rw [hp]; rfl))
    rw [hmark]
    intro c hc
    exact ⟨Nat.lt_of_lt_of_le (hg.next c hc).1 hle, (hg.next c hc).2⟩

/-- Where it does not date, a step leaves the worker's clock and the next node's as they are, and
the dirty list loses its first node at most. -/
theorem exec_quiet (hp : ¬ (g.pc t).Dates) (hu : g.exec t = some (u, d)) :
    ¬ (u.pc t).Unset ∧ (u.gcn t).dirtyList.elems.Sublist (g.gcn t).dirtyList.elems ∧
      (u.gcn t).clock = (g.gcn t).clock ∧ u.latest t = g.latest t ∧
        (u.mark t = g.mark t ∨ u.mark t = none) := by
  have htail : (g.gcn t).dirtyList.popFront.elems.Sublist (g.gcn t).dirtyList.elems := List.tail_sublist _
  unfold GarbageCollector.exec at hu
  split at hu
  all_goals rename_i h
  all_goals rw [h] at hp
  all_goals repeat' split at hu
  all_goals cases hu
  all_goals first
    | exact absurd trivial hp
    | refine ⟨by simp [Pc.Unset], by simp [htail], by simp, by simp [latest, h], ?_⟩
  -- the next node keeps its clock, or there is none
  all_goals first
    | right; simp [mark]; done
    | left; simp [mark, h]; done
    | left; cases ‹Caller N› <;> simp [mark, h]

/-- The worker itself takes a step. -/
theorem Ordered.exec (hg : Ordered g t) (hst : NoWrap g t) (hu : g.exec t = some (u, d))
    (hn : ∀ m, (g.pc t).hand = some m → m ∉ (g.gcn t).dirtyList.elems) : Ordered u t := by
  have hle := exec_clock_le hst hu
  have hnode : ∀ m ∈ (g.gcn t).dirtyList.elems, u.nodeClock m = g.nodeClock m :=
    fun m hm => exec_nodeClock hu fun hhand => hn m hhand hm
  have hsame : u.mark t = g.mark t → ∀ c, u.mark t = some c →
      c < u.clock ∧ ∀ m ∈ (g.gcn t).dirtyList.elems, g.nodeClock m ≤ c := by
    intro hmark c hc
    rw [hmark] at hc
    exact ⟨Nat.lt_of_lt_of_le (hg.next c hc).1 hle, (hg.next c hc).2⟩
  have hnone : u.mark t = none → ∀ c, u.mark t = some c →
      c < u.clock ∧ ∀ m ∈ (g.gcn t).dirtyList.elems, g.nodeClock m ≤ c := by
    intro hmark c hc
    rw [hmark] at hc
    cases hc
  cases hp : g.pc t with
  | cleanClock n =>
    simp only [NoWrap, hp] at hst
    simp only [GarbageCollector.exec, hp, Option.some.injEq, Prod.mk.injEq] at hu
    obtain ⟨rfl, -⟩ := hu
    refine hg.keep (.refl _) hle hnode fun c hc => ?_
    simp only [mark, goto_pc, Option.some.injEq] at hc
    subst hc
    refine ⟨?_, fun m hm => Nat.le_of_lt (hg.old m hm)⟩
    show g.clock < g.getclock.clock
    rw [getclock_clock hst]
    exact Nat.lt_succ_self _
  | full n =>
    simp only [GarbageCollector.exec, hp] at hu
    split at hu <;> cases hu
    rename_i hfull
    obtain ⟨hlt, hall⟩ := hg.next (g.nodeClock n) (by simp only [mark, hp])
    have helems : ∀ m, m ∈ ((g.gcn t).dirtyList.pushBack n).elems ↔ m ∈ (g.gcn t).dirtyList.elems ∨ m = n := by
      intro m
      rw [CircularBuffer.pushBack_elems (by simpa using hfull), List.mem_append, List.mem_singleton]
    refine ⟨?_, ?_, ?_⟩
    · simp only [put_gcn, put_nodeClock]
      rw [CircularBuffer.pushBack_elems (by simpa using hfull)]
      refine List.pairwise_append.mpr ⟨hg.sorted, List.pairwise_singleton .., fun m hm k hk => ?_⟩
      rw [List.mem_singleton.mp hk]
      exact hall m hm
    · simp only [put_gcn, put_nodeClock, put_clock, helems]
      rintro m (hm | rfl)
      · exact hg.old m hm
      · exact hlt
    · intro c hc
      simp [mark] at hc
  | regClock | regStore c =>
    simp only [GarbageCollector.exec, hp, Option.some.injEq, Prod.mk.injEq] at hu
    obtain ⟨rfl, -⟩ := hu
    exact hg.keep (by simp [getclock]) hle hnode (hnone (by simp [mark]))
  | cleanStore n c =>
    simp only [GarbageCollector.exec, hp, Option.some.injEq, Prod.mk.injEq] at hu
    obtain ⟨rfl, -⟩ := hu
    exact hg.keep (by simp) hle hnode (hsame (by simp [mark, hp]))
  | cleanupClock k =>
    simp only [GarbageCollector.exec, hp, Option.some.injEq, Prod.mk.injEq] at hu
    obtain ⟨rfl, -⟩ := hu
    exact hg.keep (.refl _) hle hnode (hsame (by cases k <;> simp [mark, hp, getclock]))
  | cleanupStore k c =>
    cases k <;> simp only [GarbageCollector.exec, hp, Option.some.injEq, Prod.mk.injEq] at hu <;>
      obtain ⟨rfl, -⟩ := hu
    all_goals exact hg.keep (by simp) hle hnode (hsame (by simp [mark, hp]))
  | _ =>
    obtain ⟨-, hdirty, -, -, hmark⟩ := exec_quiet (by simp [hp, Pc.Dates]) hu
    exact hg.keep hdirty hle hnode (hmark.elim hsame hnone)

theorem exec_clock_lt (hg : g.clock < UInt64.size) (hu : g.exec t = some (u, d)) : u.clock < UInt64.size := by
  unfold GarbageCollector.exec at hu
  repeat' split at hu
  all_goals cases hu
  all_goals first
    | exact hg
    | exact Nat.mod_lt _ (by decide)

theorem step_clock_lt {a : Call T N} (hg : g.clock < UInt64.size) (hu : g.step a = some u) :
    u.clock < UInt64.size := by
  cases a with
  | exec v =>
    obtain ⟨d, hu⟩ := exec_of_step hu
    exact exec_clock_lt hg hu
  | alloc v fresh =>
    simp only [GarbageCollector.step, Option.ite_none_right_eq_some, Option.some.injEq] at hu
    obtain ⟨-, rfl⟩ := hu
    rwa [alloc_clock]
  | release v | clean v n | dereg v =>
    simp only [GarbageCollector.step] at hu
    split at hu <;> cases hu
    exact hg

omit [DecidableEq N] in
/-- A worker that has no node with a clock goes on to something that has none. -/
theorem Ordered.goto (hg : ∀ v, Ordered g v) (hp : (g.goto t p).mark t = none) (v : T) :
    Ordered (g.goto t p) v := by
  refine (hg v).keep (.refl _) (Nat.le_refl _) (fun _ _ => rfl) fun c hc => ?_
  by_cases hv : v = t
  · subst hv
    rw [hp] at hc
    cases hc
  · refine (hg v).next c ?_
    simpa only [mark, goto_pc_of_ne hv, goto_gcn, goto_nodeClock] using hc

omit [DecidableEq N] in
theorem Ordered.alloc {fresh : N} (hg : ∀ v, Ordered g v) (v : T) : Ordered (g.alloc t fresh).1 v := by
  refine (hg v).keep (by rw [alloc_dirtyList]) (Nat.le_of_eq alloc_clock.symm)
    (fun _ _ => by rw [alloc_nodeClock]) fun c hc => ?_
  rw [alloc_clock]
  by_cases hv : v = t
  · subst hv
    simp [mark] at hc
  · refine (hg v).next c ?_
    simpa only [mark, alloc_pc_of_ne hv, alloc_gcnClock, alloc_nodeClock] using hc

end Exec

/-- Every node is in one place, and the clocks of the dirty lists are in order. -/
structure Tidy (g : GarbageCollector T N) : Prop where
  custody : Custody g.holds
  small : g.clock < UInt64.size
  ordered : ∀ t, g.Ordered t

namespace Tidy
variable {g u : GarbageCollector T N} {t : T} {d : List N} {a : Call T N}

theorem initial (gcnClock : T → ℕ) (nodeClock : N → ℕ) :
    Tidy (initial gcnClock nodeClock : GarbageCollector T N) := by
  have he : (GarbageCollector.initial gcnClock nodeClock : GarbageCollector T N).holds = fun _ => [] := by
    funext p
    cases p <;> rfl
  refine ⟨he ▸ .empty, (by decide : 1 < UInt64.size), fun t => ⟨List.Pairwise.nil, ?_, ?_⟩⟩
  · exact fun m hm => absurd hm List.not_mem_nil
  · exact fun c hc => (nomatch hc)

variable [DecidableEq T] [DecidableEq N]

theorem step (hg : Tidy g) (ho : Owned g a) (hw : Unwrapped g a) (hu : g.step a = some u) : Tidy u := by
  refine ⟨step_custody hg.custody ho hu, step_clock_lt hg.small hu, fun v => ?_⟩
  cases a with
  | exec t =>
    obtain ⟨d, hu⟩ := exec_of_step hu
    by_cases hv : v = t
    · subst hv
      exact (hg.ordered v).exec hw hu fun m hm => (not_mem_of_hand hg.custody hm v).1
    · exact (hg.ordered v).other (Ne.symm hv) hw hu
        fun m hm => ⟨(not_mem_of_hand hg.custody hm v).1, (not_mem_of_hand hg.custody hm v).2 hv⟩
  | alloc t fresh =>
    simp only [GarbageCollector.step, Option.ite_none_right_eq_some, Option.some.injEq] at hu
    obtain ⟨-, rfl⟩ := hu
    exact Ordered.alloc hg.ordered v
  | release t =>
    simp only [GarbageCollector.step] at hu
    split at hu <;> cases hu
    exact Ordered.goto hg.ordered (by simp [mark]) v
  | clean t n | dereg t =>
    simp only [GarbageCollector.step, Option.ite_none_right_eq_some, Option.some.injEq] at hu
    obtain ⟨-, rfl⟩ := hu
    exact Ordered.goto hg.ordered (by simp [mark]) v

theorem run {C : Guard (GarbageCollector T N) (Call T N)} {h : List Empty} (hg : Tidy g)
    (hC : ∀ g a, C g a → Owned g a ∧ Unwrapped g a) (hr : Run (client T N) C g h u) : Tidy u :=
  hr.always (I := Tidy) hg fun _ _ _ hx hc ha => hx.step (hC _ _ hc).1 (hC _ _ hc).2 ha

end Tidy

/-- A step of `testtwo` is at most one of a client, which does what it owes. -/
theorem client_of_step [Fintype T] [DecidableEq T] [DecidableEq N] {s u : Accounting.State T N}
    {a : Accounting.Action T N} (hs : Accounting.Accounted s) (hu : Accounting.step s a = some u) :
    Run (client T N) Owned s.gc [] u.gc := by
  have hrun : ∀ (b : Call T N) {g : GarbageCollector T N}, Owned s.gc b → s.gc.step b = some g →
      Run (client T N) Owned s.gc [] g :=
    fun b _ ho hb => Run.single (P := client T N) (a := b) ho hb
  cases a with
  | exec t =>
    simp only [Accounting.step, Option.map_eq_some_iff] at hu
    obtain ⟨⟨g, d⟩, hg, rfl⟩ := hu
    exact hrun (.exec t) trivial (by simp only [step, hg, Option.map_some])
  | alloc t fresh =>
    simp only [Accounting.step] at hu
    split at hu
    · rename_i hp
      have hstep : s.gc.step (.alloc t fresh) = some (s.gc.alloc t fresh).1 := if_pos hp.1
      split at hu
      · rename_i n hn
        cases hu
        exact hrun (.alloc t fresh) (fun h => by rw [hn] at h; cases h) hstep
      · split at hu <;> cases hu
        rename_i hfresh
        exact hrun (.alloc t fresh) (fun _ i hi => hfresh ((hs.cover fresh).mpr ⟨.inr i, hi⟩)) hstep
    · cases hu
  | push t =>
    simp only [Accounting.step] at hu
    split at hu <;> cases hu
    rename_i n hp
    exact hrun (.release t) trivial (by simp only [step, hp])
  | pop t =>
    simp only [Accounting.step] at hu
    split at hu
    · rename_i hp
      split at hu <;> cases hu
      · exact .refl
      · rename_i n l hl
        have hmem : n ∈ s.places (.inl .stack) := by
          show n ∈ s.stack
          rw [hl]
          exact List.mem_cons_self
        refine hrun (.clean t n) (fun i hi => ?_) (if_pos hp.1)
        exact hs.custody.disjoint (i := .inl .stack) (j := .inr i) Sum.inl_ne_inr hmem hi
    · cases hu
  | dereg t =>
    simp only [Accounting.step] at hu
    split at hu <;> cases hu
    rename_i hp
    exact hrun (.dereg t) trivial (if_pos hp)
  | drain =>
    simp only [Accounting.step] at hu
    split at hu
    · split at hu <;> cases hu
      exact .refl
    · cases hu

/-- `testtwo` is a client that does what it owes. -/
theorem client_of_testTwo [Fintype T] [DecidableEq T] [DecidableEq N] {gcnClock : T → ℕ} {nodeClock : N → ℕ}
    {h : List Empty} {s : Accounting.State T N}
    (hr : Run (Accounting.testTwo T N) Free (Accounting.initial gcnClock nodeClock) h s) :
    Run (client T N) Owned (initial gcnClock nodeClock) h s.gc := by
  have h0 : initial gcnClock nodeClock = (Accounting.initial gcnClock nodeClock : Accounting.State T N).gc ∧
      Accounting.Accounted (Accounting.initial gcnClock nodeClock : Accounting.State T N) :=
    ⟨rfl, .initial gcnClock nodeClock⟩
  obtain ⟨g, hg, rfl, -⟩ := hr.simulate (Q := client T N) (E := Owned)
    (fun s g => g = s.gc ∧ Accounting.Accounted s) h0
    fun s a u _ ⟨hg, hs⟩ _ hu => ⟨u.gc, hg ▸ client_of_step hs hu, rfl, hs.step hu⟩
  exact hg

end GarbageCollector

end Multicore.Reclaim
