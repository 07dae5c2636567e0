import Multicore.Reclaim.Client
import Multicore.Runs.Progress
import Mathlib.Data.Prod.Lex

/-! How `dereg` ends. Its loop calls `cleanup` until the dirty list is empty. The newest
dirty node may have the worker's own clock, and then the first call does not release it;
but that call leaves the worker with a clock that is younger than all its nodes, so if the
others are ahead of these too, the second call releases the rest. This rests on clocks
that do not wrap. -/

namespace Multicore.Reclaim

open Runs

/-- The worker is in the loop of `dereg`. -/
def Pc.InDereg {T N : Type*} : Pc T N → Prop
  | .deregTest => True
  | .rdlock k | .test k _ _ | .take k _ _ _ | .unlock k _ | .cleanup k _ | .cleanupClock k
  | .cleanupStore k _ => k = .dereg
  | _ => False

/-- `dereg` calls `cleanup`, or deletes a node. -/
inductive Release (N : Type*)
  | cleanup | delete (n : N)
  deriving DecidableEq

namespace GarbageCollector

variable {T N : Type*}

section Events
variable [DecidableEq T] [DecidableEq N]

/-- What a step of `t` is seen to do. -/
def releases (g : GarbageCollector T N) (t : T) : List (Release N) :=
  match g.pc t with
  | .unlock .dereg _ => [.cleanup]
  | _ => ((g.exec t).map fun r => r.2.map Release.delete).getD []

def released (t : T) (g : GarbageCollector T N) : Call T N → List (Release N)
  | .exec v => if v = t then g.releases t else []
  | .alloc _ _ | .release _ | .clean _ _ | .dereg _ => []

end Events

/-- The other registered clocks are larger than that of the newest node that `t` had in its
dirty list in `g`. -/
def Ahead (g : GarbageCollector T N) (t : T) : Guard (GarbageCollector T N) (Call T N) := fun u _ =>
  ∀ n, (g.gcn t).dirtyList.elems.getLast? = some n → ∀ v ∈ u.clocks, v ≠ t → g.nodeClock n < (u.gcn v).clock

instance [DecidableEq T] (g u : GarbageCollector T N) (t : T) (a : Call T N) : Decidable (Ahead g t u a) :=
  inferInstanceAs (Decidable (∀ n ∈ (g.gcn t).dirtyList.elems.getLast?, ∀ v ∈ u.clocks, v ≠ t →
    g.nodeClock n < (u.gcn v).clock))

/-! ### The loop -/

/-- What is so at each point of the loop: `l` are the nodes to release, of which none has a
clock after `s`. A search that began with a younger clock of the worker finds a minimum
after `s`, and the `cleanup` with that minimum empties the list. -/
def Stage (g : GarbageCollector T N) (t : T) (l : List N) (s : ℕ) : Prop :=
  match g.pc t with
  | .deregTest | .destroy | .gone => True
  | .rdlock .dereg => l ≠ []
  | .test .dereg its min =>
    l ≠ [] ∧ t ∈ g.readers ∧ (∀ v ∈ its, v ∈ g.clocks) ∧ (s < (g.gcn t).clock → s < min)
  | .take .dereg it its min =>
    l ≠ [] ∧ t ∈ g.readers ∧ (∀ v ∈ it :: its, v ∈ g.clocks) ∧ (s < (g.gcn t).clock → s < min)
  | .unlock .dereg min | .cleanup .dereg min => l ≠ [] ∧ (s < (g.gcn t).clock → s < min)
  | .cleanupClock .dereg => l ≠ [] ∧ (s < (g.gcn t).clock → (g.gcn t).dirtyList.elems = [])
  | .cleanupStore .dereg c => s < c ∧ (s < (g.gcn t).clock → (g.gcn t).dirtyList.elems = [])
  | .deregRemove => (g.gcn t).dirtyList.elems = []
  | _ => False

/-- Whether a `cleanup` with the least clock may leave a node behind. -/
def lag (c s : ℕ) : ℕ := if s < c then 0 else 1

theorem lag_of_lt {c s : ℕ} (h : s < c) : lag c s = 0 := if_pos h

theorem lag_le (c s : ℕ) : lag c s ≤ 1 := by
  unfold lag
  split <;> omega

/-- How many calls of `cleanup` can still come. -/
def budget (g : GarbageCollector T N) (t : T) (s : ℕ) : ℕ :=
  match g.pc t with
  | .deregTest => if (g.gcn t).dirtyList.elems = [] then 0 else lag (g.gcn t).clock s + 1
  | .rdlock .dereg | .test .dereg _ _ | .take .dereg _ _ _ | .unlock .dereg _ => lag (g.gcn t).clock s + 1
  | .cleanup .dereg _ | .cleanupClock .dereg | .cleanupStore .dereg _ => lag (g.gcn t).clock s
  | _ => 0

/-- The point in the loop, and how far the loop of `getminclock` or of `cleanup` has come there. -/
def point (g : GarbageCollector T N) (t : T) : ℕ × ℕ :=
  match g.pc t with
  | .cleanup .dereg _ => (7, (g.gcn t).dirtyList.elems.length)
  | .cleanupClock .dereg => (6, 0)
  | .cleanupStore .dereg _ => (5, 0)
  | .deregTest => (4, 0)
  | .rdlock .dereg => (3, 0)
  | .take .dereg _ its _ => (2, 2 * its.length + 1)
  | .test .dereg its _ => (2, 2 * its.length)
  | .unlock .dereg _ => (1, 0)
  | _ => (0, 0)

/-- What is left to do in the loop. -/
def left (g : GarbageCollector T N) (t : T) (s : ℕ) : ℕ ×ₗ ℕ ×ₗ ℕ :=
  toLex (g.budget t s, toLex (g.point t))

/-- The worker drains its dirty list of the nodes `l` and has done `k` so far. -/
structure Draining [DecidableEq N] (g : GarbageCollector T N) (t : T) (l : List N) (s : ℕ)
    (k : List (Release N)) : Prop where
  nodes : ∀ n ∈ l, n ∈ (g.gcn t).dirtyList.elems ∨ n ∈ (g.gcn t).cleanList.elems ∨ .delete n ∈ k
  stamps : ∀ n ∈ (g.gcn t).dirtyList.elems, n ∈ l ∧ g.nodeClock n ≤ s
  count : k.count .cleanup + g.budget t s ≤ 2
  young : l ≠ [] → s < g.clock
  stage : g.Stage t l s

section Other
variable [DecidableEq T] [DecidableEq N] {g u : GarbageCollector T N} {t v : T} {d : List N} {l : List N}
  {s : ℕ} {k : List (Release N)}

omit [DecidableEq T] in
/-- What changes nothing that the loop depends on. -/
theorem Draining.frame (hd : Draining g t l s k) (hpc : u.pc t = g.pc t) (hgcn : u.gcn t = g.gcn t)
    (hn : ∀ n ∈ (g.gcn t).dirtyList.elems, u.nodeClock n = g.nodeClock n) (hle : g.clock ≤ u.clock)
    (hread : t ∈ g.readers → t ∈ u.readers ∧ u.clocks = g.clocks) : Draining u t l s k := by
  refine ⟨?_, ?_, ?_, fun hl => Nat.lt_of_lt_of_le (hd.young hl) hle, ?_⟩
  · rw [hgcn]
    exact hd.nodes
  · rw [hgcn]
    exact fun n hm => ⟨(hd.stamps n hm).1, hn n hm ▸ (hd.stamps n hm).2⟩
  · have hbudget : u.budget t s = g.budget t s := by simp only [budget, hpc, hgcn]
    rw [hbudget]
    exact hd.count
  · have hst := hd.stage
    unfold Stage at hst ⊢
    rw [hpc, hgcn]
    split
    all_goals rename_i hp
    all_goals simp only [hp] at hst
    all_goals first
      | exact hst
      | exact ⟨hst.1, (hread hst.2.1).1, by rw [(hread hst.2.1).2]; exact hst.2.2.1, hst.2.2.2⟩

/-- While a reader has the lock the clocks stay registered. -/
theorem exec_readers (hu : g.exec v = some (u, d)) (hv : v ≠ t) (ht : t ∈ g.readers) :
    t ∈ u.readers ∧ u.clocks = g.clocks := by
  have hne : g.readers ≠ [] := List.ne_nil_of_mem ht
  have herase : t ∈ g.readers.erase v := (List.mem_erase_of_ne (Ne.symm hv)).mpr ht
  unfold exec at hu
  repeat' split at hu
  all_goals cases hu
  all_goals first
    | exact ⟨ht, rfl⟩
    | exact ⟨List.mem_cons_of_mem _ ht, rfl⟩
    | exact ⟨herase, rfl⟩
    | exact absurd ‹_› hne

end Other

/-! ### The worker's own steps -/

section Own
variable [DecidableEq T] [DecidableEq N] {g u : GarbageCollector T N} {t : T} {d : List N} {l : List N}
  {s : ℕ} {k e : List (Release N)}

omit [DecidableEq T] [DecidableEq N] in
theorem left_lt_of_budget (h : u.budget t s < g.budget t s) : u.left t s < g.left t s :=
  Prod.Lex.toLex_lt_toLex.mpr (.inl h)

omit [DecidableEq T] [DecidableEq N] in
theorem left_lt_of_point (h : u.budget t s = g.budget t s)
    (hp : (u.point t).1 < (g.point t).1 ∨ (u.point t).1 = (g.point t).1 ∧ (u.point t).2 < (g.point t).2) :
    u.left t s < g.left t s :=
  Prod.Lex.toLex_lt_toLex.mpr (.inr ⟨h, Prod.Lex.toLex_lt_toLex.mpr hp⟩)

omit [DecidableEq T] in
/-- A step that leaves the nodes where they are. -/
theorem Draining.keep (hd : Draining g t l s k) (hdirty : (u.gcn t).dirtyList = (g.gcn t).dirtyList)
    (hclean : (u.gcn t).cleanList = (g.gcn t).cleanList) (hn : u.nodeClock = g.nodeClock)
    (hle : g.clock ≤ u.clock) (hcount : (k ++ e).count .cleanup + u.budget t s ≤ 2) (hst : u.Stage t l s) :
    Draining u t l s (k ++ e) := by
  refine ⟨fun n hm => ?_, ?_, hcount, fun hl => Nat.lt_of_lt_of_le (hd.young hl) hle, hst⟩
  · rw [hdirty, hclean]
    exact (hd.nodes n hm).imp_right (.imp_right (List.mem_append_left e))
  · rw [hdirty, hn]
    exact hd.stamps

theorem releases_eq (hu : g.exec t = some (u, d)) (hp : ∀ min, g.pc t ≠ .unlock .dereg min) :
    g.releases t = d.map .delete := by
  unfold releases
  split
  · exact absurd ‹_› (hp _)
  · rw [hu]
    rfl

/-- A step from `g` to `u` keeps the nodes together, and it ends the loop or less is left to do. -/
def Nearer (g u : GarbageCollector T N) (t : T) (l : List N) (s : ℕ) (k : List (Release N)) : Prop :=
  Draining u t l s (k ++ g.releases t) ∧ (u.pc t = .deregRemove ∨ u.left t s < g.left t s)

/-- A step inside the loop that leaves the nodes where they are and is no call of `cleanup`. -/
theorem Draining.advance (hd : Draining g t l s k) (hrel : g.releases t = [])
    (hdirty : (u.gcn t).dirtyList = (g.gcn t).dirtyList) (hclean : (u.gcn t).cleanList = (g.gcn t).cleanList)
    (hn : u.nodeClock = g.nodeClock) (hle : g.clock ≤ u.clock) (hsame : u.budget t s = g.budget t s)
    (hp : (u.point t).1 < (g.point t).1 ∨ (u.point t).1 = (g.point t).1 ∧ (u.point t).2 < (g.point t).2)
    (hst : u.Stage t l s) : Nearer g u t l s k := by
  have hcount := hd.count
  unfold Nearer
  rw [hrel]
  refine ⟨hd.keep hdirty hclean hn hle ?_ hst, .inr (left_lt_of_point hsame hp)⟩
  rwa [List.append_nil, hsame]

/-- The first node of the dirty list goes to the clean list, or is deleted. -/
theorem Draining.popFront {m : N} (hd : Draining g t l s k) (hm : (g.gcn t).dirtyList.front = some m)
    (hrel : g.releases t = d.map .delete) (hdirty : (u.gcn t).dirtyList = (g.gcn t).dirtyList.popFront)
    (hclean : ∀ n, n ∈ (g.gcn t).cleanList.elems ∨ n = m → n ∈ (u.gcn t).cleanList.elems ∨ n ∈ d)
    (hn : u.nodeClock = g.nodeClock) (hle : g.clock ≤ u.clock) (hsame : u.budget t s = g.budget t s)
    (hp : (u.point t).1 < (g.point t).1 ∨ (u.point t).1 = (g.point t).1 ∧ (u.point t).2 < (g.point t).2)
    (hst : u.Stage t l s) : Nearer g u t l s k := by
  have helems := CircularBuffer.elems_eq_cons hm
  have hmoved : ∀ n, n ∈ (g.gcn t).cleanList.elems ∨ n = m →
      n ∈ (u.gcn t).cleanList.elems ∨ .delete n ∈ k ++ d.map Release.delete := fun n hn =>
    (hclean n hn).imp_right fun h => List.mem_append_right k (List.mem_map_of_mem h)
  unfold Nearer
  rw [hrel]
  refine ⟨⟨fun n hl => ?_, fun n hmem => ?_, ?_, fun hl => Nat.lt_of_lt_of_le (hd.young hl) hle, hst⟩,
    .inr (left_lt_of_point hsame hp)⟩
  · rw [hdirty]
    rcases hd.nodes n hl with h | h | h
    · rw [helems, List.mem_cons] at h
      rcases h with rfl | h
      · exact .inr (hmoved n (.inr rfl))
      · exact .inl h
    · exact .inr (hmoved n (.inl h))
    · exact .inr (.inr (List.mem_append_left _ h))
  · rw [hdirty] at hmem
    rw [hn]
    exact hd.stamps n (helems ▸ List.mem_cons_of_mem m hmem)
  · have hdeletes : (d.map Release.delete).count .cleanup = 0 := List.count_eq_zero.mpr (by simp)
    rw [List.count_append, hdeletes, hsame]
    exact hd.count

/-- The test of `dereg`. -/
theorem Draining.deregTest (hd : Draining g t l s k) (hp : g.pc t = .deregTest)
    (hu : g.exec t = some (u, d)) : Nearer g u t l s k := by
  have hcount := hd.count
  have hnil := releases_eq hu (by simp [hp])
  simp only [GarbageCollector.exec, hp] at hu
  split at hu <;> cases hu <;> rename_i hempty <;> rw [CircularBuffer.empty_iff] at hempty
  · unfold Nearer
    rw [hnil]
    refine ⟨hd.keep rfl rfl rfl (Nat.le_refl _) ?_ ?_, .inl goto_pc⟩
    · simpa [budget, hp, hempty] using hcount
    · simp only [Stage, goto_pc, goto_gcn]
      exact hempty
  · obtain ⟨n, hn⟩ := List.exists_mem_of_ne_nil _ hempty
    refine hd.advance hnil rfl rfl rfl (Nat.le_refl _) ?_ ?_ ?_
    · simp only [budget, hp, goto_pc, goto_gcn, if_neg hempty]
    · simp [point, hp]
    · simp only [Stage, goto_pc]
      exact List.ne_nil_of_mem (hd.stamps n hn).1

/-- The minimum that `getminclock` begins with is the largest of all clocks. -/
theorem Draining.rdlock (hd : Draining g t l s k) (hlt : g.clock < UInt64.size) (hp : g.pc t = .rdlock .dereg)
    (hu : g.exec t = some (u, d)) : Nearer g u t l s k := by
  have hne : l ≠ [] := by simpa only [Stage, hp] using hd.stage
  have hnil := releases_eq hu (by simp [hp])
  simp only [GarbageCollector.exec, hp, Option.some.injEq, Prod.mk.injEq] at hu
  obtain ⟨rfl, rfl⟩ := hu
  refine hd.advance hnil rfl rfl rfl (Nat.le_refl _) ?_ ?_ ?_
  · simp [budget, hp]
  · simp [point, hp]
  · simp only [Stage, goto_pc, goto_gcn, goto_clocks]
    refine ⟨hne, List.mem_cons_self, fun v hv => hv, fun _ => ?_⟩
    have hs := hd.young hne
    rw [show UInt64.size = 0xffffffffffffffff + 1 from rfl] at hlt
    omega

theorem Draining.test {its : List T} {min : ℕ} (hd : Draining g t l s k) (hp : g.pc t = .test .dereg its min)
    (hu : g.exec t = some (u, d)) : Nearer g u t l s k := by
  have hstage := hd.stage
  simp only [Stage, hp] at hstage
  obtain ⟨hne, hread, hits, hmin⟩ := hstage
  have hnil := releases_eq hu (by simp [hp])
  cases its with
  | nil =>
    simp only [GarbageCollector.exec, hp, Option.some.injEq, Prod.mk.injEq] at hu
    obtain ⟨rfl, rfl⟩ := hu
    refine hd.advance hnil rfl rfl rfl (Nat.le_refl _) ?_ ?_ ?_
    · simp [budget, hp]
    · simp [point, hp]
    · simp only [Stage, goto_pc, goto_gcn]
      exact ⟨hne, hmin⟩
  | cons it its =>
    simp only [GarbageCollector.exec, hp] at hu
    split at hu <;> cases hu
    all_goals refine hd.advance hnil rfl rfl rfl (Nat.le_refl _) ?_ ?_ ?_
    · simp [budget, hp]
    · simp [point, hp, Nat.mul_succ]
    · simp only [Stage, goto_pc, goto_gcn]
      exact ⟨hne, hread, hits, hmin⟩
    · simp [budget, hp]
    · simp [point, hp]
    · simp only [Stage, goto_pc, goto_gcn]
      exact ⟨hne, hread, fun v hv => hits v (List.mem_cons_of_mem _ hv), hmin⟩

/-- The second read is of the worker's own clock or of one that is ahead. -/
theorem Draining.take {it : T} {its : List T} {min : ℕ} (hd : Draining g t l s k)
    (ha : l ≠ [] → ∀ v ∈ g.clocks, v ≠ t → s < (g.gcn v).clock) (hp : g.pc t = .take .dereg it its min)
    (hu : g.exec t = some (u, d)) : Nearer g u t l s k := by
  have hstage := hd.stage
  simp only [Stage, hp] at hstage
  obtain ⟨hne, hread, hits, hmin⟩ := hstage
  have hnil := releases_eq hu (by simp [hp])
  simp only [GarbageCollector.exec, hp, Option.some.injEq, Prod.mk.injEq] at hu
  obtain ⟨rfl, rfl⟩ := hu
  refine hd.advance hnil rfl rfl rfl (Nat.le_refl _) ?_ ?_ ?_
  · simp [budget, hp]
  · simp [point, hp]
  · simp only [Stage, goto_pc, goto_gcn]
    refine ⟨hne, hread, fun v hv => hits v (List.mem_cons_of_mem _ hv), fun hs => ?_⟩
    by_cases hit : it = t
    · rw [hit]
      exact hs
    · exact ha hne it (hits it List.mem_cons_self) hit

/-- The call of `cleanup`. -/
theorem Draining.unlock {min : ℕ} (hd : Draining g t l s k) (hp : g.pc t = .unlock .dereg min)
    (hu : g.exec t = some (u, d)) : Nearer g u t l s k := by
  have hstage := hd.stage
  have hcount := hd.count
  simp only [Stage, hp] at hstage
  simp only [GarbageCollector.exec, hp, Option.some.injEq, Prod.mk.injEq] at hu
  obtain ⟨rfl, rfl⟩ := hu
  unfold Nearer
  rw [show g.releases t = [.cleanup] by simp only [releases, hp]]
  refine ⟨hd.keep rfl rfl rfl (Nat.le_refl _) ?_ ?_, .inr (left_lt_of_budget ?_)⟩
  · simp only [budget, hp] at hcount
    simp only [List.count_append, List.count_singleton_self, budget, goto_pc, goto_gcn]
    omega
  · simp only [Stage, goto_pc, goto_gcn]
    exact hstage
  · simp [budget, hp]

/-- The loop of `cleanup`. -/
theorem Draining.cleanup {min : ℕ} (hd : Draining g t l s k) (hp : g.pc t = .cleanup .dereg min)
    (hu : g.exec t = some (u, d)) : Nearer g u t l s k := by
  have hstage := hd.stage
  simp only [Stage, hp] at hstage
  obtain ⟨hne, hmin⟩ := hstage
  have hdel := releases_eq hu (by simp [hp])
  simp only [GarbageCollector.exec, hp] at hu
  split at hu
  · rename_i hfront
    cases hu
    refine hd.advance hdel rfl rfl rfl (Nat.le_refl _) ?_ ?_ ?_
    · simp [budget, hp]
    · simp [point, hp]
    · simp only [Stage, goto_pc, goto_gcn]
      exact ⟨hne, fun _ => CircularBuffer.front_eq_none hfront⟩
  · rename_i m hm
    have helems := CircularBuffer.elems_eq_cons hm
    split at hu
    · split at hu <;> cases hu <;> rename_i hfull
      all_goals refine hd.popFront hm hdel (by rw [put_gcn]) ?_ rfl (Nat.le_refl _) ?_ ?_ ?_
      · rintro n (hn | rfl)
        · exact .inl (by rwa [put_gcn])
        · exact .inr (List.mem_singleton_self _)
      · simp [budget, hp]
      · simp [point, hp, helems]
      · simp only [Stage, put_pc, put_gcn]
        exact ⟨hne, hmin⟩
      · intro n hn
        left
        rw [put_gcn, CircularBuffer.pushFront_elems (by simpa using hfull), List.mem_cons]
        exact hn.symm
      · simp [budget, hp]
      · simp [point, hp, helems]
      · simp only [Stage, put_pc, put_gcn]
        exact ⟨hne, hmin⟩
    · rename_i hstop
      cases hu
      refine hd.advance hdel rfl rfl rfl (Nat.le_refl _) ?_ ?_ ?_
      · simp [budget, hp]
      · simp [point, hp]
      · simp only [Stage, goto_pc, goto_gcn]
        refine ⟨hne, fun hs => absurd ?_ hstop⟩
        exact Nat.lt_of_le_of_lt (hd.stamps m (helems ▸ List.mem_cons_self)).2 (hmin hs)

theorem Draining.cleanupClock (hd : Draining g t l s k) (hst : NoWrap g t) (hp : g.pc t = .cleanupClock .dereg)
    (hu : g.exec t = some (u, d)) : Nearer g u t l s k := by
  have hstage := hd.stage
  have hle := exec_clock_le hst hu
  simp only [Stage, hp] at hstage
  have hnil := releases_eq hu (by simp [hp])
  simp only [GarbageCollector.exec, hp, Option.some.injEq, Prod.mk.injEq] at hu
  obtain ⟨rfl, rfl⟩ := hu
  refine hd.advance hnil rfl rfl rfl hle ?_ ?_ ?_
  · simp [budget, hp, getclock]
  · simp [point, hp]
  · simp only [Stage, goto_pc, goto_gcn]
    exact ⟨hd.young hstage.1, hstage.2⟩

/-- The new clock is younger than all nodes; if the old one was, none is left. -/
theorem Draining.cleanupStore {c : ℕ} (hd : Draining g t l s k) (hp : g.pc t = .cleanupStore .dereg c)
    (hu : g.exec t = some (u, d)) : Nearer g u t l s k := by
  have hstage := hd.stage
  simp only [Stage, hp] at hstage
  obtain ⟨hc, hdone⟩ := hstage
  have hnil := releases_eq hu (by simp [hp])
  simp only [GarbageCollector.exec, hp, Option.some.injEq, Prod.mk.injEq] at hu
  obtain ⟨rfl, rfl⟩ := hu
  have hbudget : (g.put t { g.gcn t with clock := c } .deregTest).budget t s ≤ g.budget t s := by
    simp only [budget, hp, put_pc, put_gcn, lag_of_lt hc]
    by_cases hs : s < (g.gcn t).clock
    · rw [if_pos (hdone hs)]
      exact Nat.zero_le _
    · rw [lag, if_neg hs]
      split <;> omega
  unfold Nearer
  rw [hnil]
  refine ⟨hd.keep (by rw [put_gcn]) (by rw [put_gcn]) rfl (Nat.le_refl _) ?_ ?_, .inr ?_⟩
  · rw [List.map_nil, List.append_nil]
    exact Nat.le_trans (Nat.add_le_add_left hbudget _) hd.count
  · simp only [Stage, put_pc]
  · rcases Nat.lt_or_eq_of_le hbudget with h | h
    · exact left_lt_of_budget h
    · exact left_lt_of_point h (by simp [point, hp])

/-- Every step inside the loop brings the worker nearer to its end. -/
theorem Draining.loop (hd : Draining g t l s k) (hin : (g.pc t).InDereg) (hlt : g.clock < UInt64.size)
    (hst : NoWrap g t) (ha : l ≠ [] → ∀ v ∈ g.clocks, v ≠ t → s < (g.gcn v).clock)
    (hu : g.exec t = some (u, d)) : Nearer g u t l s k := by
  cases hp : g.pc t with
  | deregTest => exact hd.deregTest hp hu
  | rdlock c =>
    obtain rfl : c = .dereg := by rwa [hp] at hin
    exact hd.rdlock hlt hp hu
  | test c its min =>
    obtain rfl : c = .dereg := by rwa [hp] at hin
    exact hd.test hp hu
  | take c it its min =>
    obtain rfl : c = .dereg := by rwa [hp] at hin
    exact hd.take ha hp hu
  | unlock c min =>
    obtain rfl : c = .dereg := by rwa [hp] at hin
    exact hd.unlock hp hu
  | cleanup c min =>
    obtain rfl : c = .dereg := by rwa [hp] at hin
    exact hd.cleanup hp hu
  | cleanupClock c =>
    obtain rfl : c = .dereg := by rwa [hp] at hin
    exact hd.cleanupClock hst hp hu
  | cleanupStore c x =>
    obtain rfl : c = .dereg := by rwa [hp] at hin
    exact hd.cleanupStore hp hu
  | _ =>
    rw [hp] at hin
    exact hin.elim

/-- After the loop the nodes stay where they are, until the destructor deletes them. -/
theorem Draining.leave (hd : Draining g t l s k) (hout : ¬ (g.pc t).InDereg) (hst : NoWrap g t)
    (hu : g.exec t = some (u, d)) : Draining u t l s (k ++ g.releases t) := by
  have hstage := hd.stage
  have hcount := hd.count
  have hle := exec_clock_le hst hu
  have hrel : (∀ min, g.pc t ≠ .unlock .dereg min) → g.releases t = d.map .delete := releases_eq hu
  cases hp : g.pc t with
  | deregRemove =>
    rw [hrel (by simp [hp])]
    simp only [GarbageCollector.exec, hp] at hu
    split at hu <;> cases hu
    refine hd.keep rfl rfl rfl hle ?_ ?_
    · simpa [budget, hp] using hcount
    · simp only [Stage, goto_pc]
  | destroy =>
    rw [hrel (by simp [hp])]
    simp only [GarbageCollector.exec, hp] at hu
    split at hu <;> cases hu
    · refine hd.keep rfl rfl rfl hle ?_ ?_
      · simpa [budget, hp] using hcount
      · simp only [Stage, goto_pc]
    · rename_i m hm
      have helems := CircularBuffer.elems_eq_cons hm
      refine ⟨fun n hn => ?_, ?_, ?_, hd.young, ?_⟩
      · rw [put_gcn]
        rcases hd.nodes n hn with h | h | h
        · exact .inl h
        · rw [helems, List.mem_cons] at h
          rcases h with rfl | h
          · exact .inr (.inr (List.mem_append_right k (List.mem_singleton_self _)))
          · exact .inr (.inl h)
        · exact .inr (.inr (List.mem_append_left _ h))
      · rw [put_gcn]
        exact hd.stamps
      · simpa [budget, hp] using hcount
      · simp only [Stage, put_pc]
  | gone => simp [GarbageCollector.exec, hp] at hu
  | deregTest => exact absurd (by rw [hp]; trivial) hout
  | rdlock c | test c _ _ | take c _ _ _ | unlock c _ | cleanup c _ | cleanupClock c | cleanupStore c _ =>
    cases c <;> simp only [Stage, hp] at hstage
    exact absurd (by rw [hp]; rfl) hout
  | _ => simp [Stage, hp] at hstage

/-- A step of the worker keeps the nodes together. -/
theorem Draining.exec (hd : Draining g t l s k) (hlt : g.clock < UInt64.size) (hst : NoWrap g t)
    (ha : l ≠ [] → ∀ v ∈ g.clocks, v ≠ t → s < (g.gcn v).clock) (hu : g.exec t = some (u, d)) :
    Draining u t l s (k ++ g.releases t) := by
  by_cases hin : (g.pc t).InDereg
  · exact (hd.loop hin hlt hst ha hu).1
  · exact hd.leave hin hst hu

end Own

/-! ### Runs -/

section Client
variable [DecidableEq T] [DecidableEq N] {g u : GarbageCollector T N} {t : T} {d : List N} {l : List N}
  {s : ℕ} {k : List (Release N)} {a : Call T N}

omit [DecidableEq T] in
/-- A worker that deregisters calls nothing else. -/
theorem Draining.busy (hd : Draining g t l s k) : g.pc t ≠ .working ∧ ∀ n, g.pc t ≠ .allocated n := by
  have hst := hd.stage
  refine ⟨fun hp => ?_, fun n hp => ?_⟩ <;> simp only [Stage, hp] at hst

theorem step_of_busy (hp : g.pc t ≠ .working ∧ ∀ n, g.pc t ≠ .allocated n) (ha : a ≠ .exec t)
    (hu : g.step a = some u) : u.pc t = g.pc t ∧ u.gcn t = g.gcn t := by
  cases a with
  | exec v =>
    obtain ⟨d, hu⟩ := exec_of_step hu
    exact exec_of_ne hu fun hv => ha (congrArg _ hv.symm)
  | alloc v fresh =>
    simp only [step, Option.ite_none_right_eq_some, Option.some.injEq] at hu
    obtain ⟨hv, rfl⟩ := hu
    have hne : t ≠ v := fun h => hp.1 (h ▸ hv)
    exact ⟨alloc_pc_of_ne hne, alloc_gcn_of_ne hne⟩
  | release v =>
    simp only [step] at hu
    split at hu <;> cases hu
    rename_i n hv
    exact ⟨goto_pc_of_ne fun h => hp.2 n (h ▸ hv), rfl⟩
  | clean v n =>
    simp only [step, Option.ite_none_right_eq_some, Option.some.injEq] at hu
    obtain ⟨hv, rfl⟩ := hu
    exact ⟨goto_pc_of_ne fun h => hp.1 (h ▸ hv), rfl⟩
  | dereg v =>
    simp only [step, Option.ite_none_right_eq_some, Option.some.injEq] at hu
    obtain ⟨hv, rfl⟩ := hu
    exact ⟨goto_pc_of_ne fun h => hp.1 (h ▸ hv), rfl⟩

/-- Every step of a client keeps the nodes together. -/
theorem Draining.step (hd : Draining g t l s k) (hg : Tidy g) (hw : Unwrapped g a)
    (ha : l ≠ [] → ∀ v ∈ g.clocks, v ≠ t → s < (g.gcn v).clock) (hu : g.step a = some u) :
    Draining u t l s (k ++ released t g a) := by
  cases a with
  | exec v =>
    obtain ⟨d, hu⟩ := exec_of_step hu
    by_cases hv : v = t
    · subst hv
      rw [released, if_pos rfl]
      exact hd.exec hg.small hw ha hu
    · rw [released, if_neg hv, List.append_nil]
      obtain ⟨hpc, hgcn⟩ := exec_of_ne hu (Ne.symm hv)
      refine hd.frame hpc hgcn (fun n hn => ?_) (exec_clock_le hw hu) (exec_readers hu hv)
      exact exec_nodeClock hu fun hhand => (not_mem_of_hand hg.custody hhand t).1 hn
  | alloc v fresh =>
    obtain ⟨hpc, hgcn⟩ := step_of_busy hd.busy (by simp) hu
    simp only [GarbageCollector.step, Option.ite_none_right_eq_some, Option.some.injEq] at hu
    obtain ⟨-, rfl⟩ := hu
    rw [released, List.append_nil]
    exact hd.frame hpc hgcn (fun n _ => by rw [alloc_nodeClock]) (Nat.le_of_eq alloc_clock.symm)
      fun hr => ⟨by rwa [alloc_readers], alloc_clocks⟩
  | release v | clean v n | dereg v =>
    obtain ⟨hpc, hgcn⟩ := step_of_busy hd.busy (by simp) hu
    simp only [GarbageCollector.step] at hu
    split at hu <;> cases hu
    rw [released, List.append_nil]
    exact hd.frame hpc hgcn (fun _ _ => rfl) (Nat.le_refl _) fun hr => ⟨hr, rfl⟩

/-- The clock of the newest dirty node. -/
def newest (g : GarbageCollector T N) (t : T) : ℕ :=
  ((g.gcn t).dirtyList.elems.getLast?.map g.nodeClock).getD 0

omit [DecidableEq T] [DecidableEq N] in
theorem newest_eq {n : N} (hn : (g.gcn t).dirtyList.elems.getLast? = some n) : g.newest t = g.nodeClock n := by
  rw [newest, hn]
  rfl

omit [DecidableEq T] [DecidableEq N] in
theorem exists_newest (hne : (g.gcn t).dirtyList.elems ≠ []) :
    ∃ n, (g.gcn t).dirtyList.elems.getLast? = some n ∧ n ∈ (g.gcn t).dirtyList.elems :=
  ⟨_, List.getLast?_eq_some_getLast hne, List.getLast_mem hne⟩

omit [DecidableEq T] in
theorem Draining.start (hg : Ordered g t) (hp : g.pc t = .deregTest) :
    Draining g t (g.gcn t).dirtyList.elems (g.newest t) [] := by
  refine ⟨fun n hn => .inl hn, fun n hn => ⟨hn, ?_⟩, ?_, fun hne => ?_, ?_⟩
  · rw [newest_eq (List.getLast?_eq_some_getLast (List.ne_nil_of_mem hn))]
    exact hg.sorted.rel_getLast_of_rel_getLast_getLast hn (Nat.le_refl _)
  · have := lag_le (g.gcn t).clock (g.newest t)
    simp only [List.count_nil, budget, hp]
    split <;> omega
  · obtain ⟨n, hlast, hn⟩ := exists_newest hne
    rw [newest_eq hlast]
    exact hg.old n hn
  · simp only [Stage, hp]

omit [DecidableEq T] [DecidableEq N] in
theorem Ahead.others (ha : Ahead g t u a) (hne : (g.gcn t).dirtyList.elems ≠ []) :
    ∀ v ∈ u.clocks, v ≠ t → g.newest t < (u.gcn v).clock := by
  obtain ⟨n, hlast, -⟩ := exists_newest hne
  rw [newest_eq hlast]
  exact ha n hlast

/-- The loop does not wait. -/
theorem exec_isSome (hp : (g.pc t).InDereg) : (g.exec t).isSome := by
  unfold exec
  split
  all_goals rename_i h
  all_goals rw [h] at hp
  all_goals try exact hp.elim
  all_goals repeat' split
  all_goals rfl

end Client

variable [DecidableEq T] [DecidableEq N]

/-- The worker is the only one that has registered, and all that it has cleaned is deleted. -/
def burning (t : T) (clock own : ℕ) (readers : List T) (p : Pc T ℕ) : GarbageCollector T ℕ where
  clock := clock
  clocks := [t]
  readers := readers
  totalAllocs := 0
  gcn := Function.update (fun _ => .new 0) t (.new own)
  nodeClock _ := 0
  pc := Function.update (fun _ => .regClock) t p

section Burning
variable {t : T} {x y c c' : ℕ} {r r' : List T} {p q : Pc T ℕ} {d : List ℕ}

theorem burning_holds (i : Spot T) : (burning t x c r .working).holds i = [] := by
  have hpc : ∀ v, ((burning t x c r .working).pc v).hand = none := by
    intro v
    by_cases hv : v = t
    · subst hv
      simp [burning, Pc.hand]
    · simp [burning, Pc.hand, hv]
  have hgcn : ∀ v, ((burning t x c r .working).gcn v).dirtyList = .nil ∧
      ((burning t x c r .working).gcn v).cleanList = .nil := by
    intro v
    by_cases hv : v = t
    · subst hv
      simp [burning, GCNode.new]
    · simp [burning, GCNode.new, hv]
  cases i with
  | hand v => rw [hand_nil (hpc v)]
  | dirty v => simp [holds, (hgcn v).1, CircularBuffer.nil]
  | clean v => simp [holds, (hgcn v).2, CircularBuffer.nil]

theorem burning_clean :
    Run (client T ℕ) Owned (burning t x c r .working) [] (burning t x c r (.cleanClock 0)) := by
  have hu : (client T ℕ).step (burning t x c r .working) (.clean t 0) =
      some (burning t x c r (.cleanClock 0)) := by
    simp [client, step, burning, goto]
  refine Run.single (a := Call.clean t 0) (fun i => ?_) hu
  rw [burning_holds]
  exact List.not_mem_nil

theorem burning_exec (hu : (burning t x c r p).exec t = some (burning t y c' r' q, d)) :
    Run (client T ℕ) Owned (burning t x c r p) [] (burning t y c' r' q) :=
  Run.single (P := client T ℕ) (a := .exec t) trivial (by simp only [client, step, hu, Option.map_some])

/-- The least clock is its own, and the node is deleted at once. -/
theorem burning_round {c : ℕ} (hc : c + 2 < UInt64.size) :
    Run (client T ℕ) Owned (burning t (c + 1) c [] .working) [] (burning t (c + 2) (c + 1) [] .working) := by
  have hlt : c + 1 < 0xffffffffffffffff := by
    rw [show UInt64.size = 0xffffffffffffffff + 1 from rfl] at hc
    omega
  have h1 : (burning t (c + 1) c [] (.cleanClock 0)).exec t =
      some (burning t (c + 2) c [] (.cleanStore 0 (c + 1)), []) := by
    simp [burning, exec, goto, getclock, Nat.mod_eq_of_lt hc]
  have h2 : (burning t (c + 2) c [] (.cleanStore 0 (c + 1))).exec t =
      some (burning t (c + 2) (c + 1) [] (.rdlock (.clean 0)), []) := by
    simp [burning, exec, put, GCNode.new]
  have h3 : (burning t (c + 2) (c + 1) [] (.rdlock (.clean 0))).exec t =
      some (burning t (c + 2) (c + 1) [t] (.test (.clean 0) [t] 0xffffffffffffffff), []) := by
    simp [burning, exec, goto]
  have h4 : (burning t (c + 2) (c + 1) [t] (.test (.clean 0) [t] 0xffffffffffffffff)).exec t =
      some (burning t (c + 2) (c + 1) [t] (.take (.clean 0) t [] 0xffffffffffffffff), []) := by
    simp [burning, exec, goto, GCNode.new, hlt]
  have h5 : (burning t (c + 2) (c + 1) [t] (.take (.clean 0) t [] 0xffffffffffffffff)).exec t =
      some (burning t (c + 2) (c + 1) [t] (.test (.clean 0) [] (c + 1)), []) := by
    simp [burning, exec, goto, GCNode.new]
  have h6 : (burning t (c + 2) (c + 1) [t] (.test (.clean 0) [] (c + 1))).exec t =
      some (burning t (c + 2) (c + 1) [t] (.unlock (.clean 0) (c + 1)), []) := by
    simp [burning, exec, goto]
  have h7 : (burning t (c + 2) (c + 1) [t] (.unlock (.clean 0) (c + 1))).exec t =
      some (burning t (c + 2) (c + 1) [] (.compare 0 (c + 1)), []) := by
    simp [burning, exec, goto]
  have h8 : (burning t (c + 2) (c + 1) [] (.compare 0 (c + 1))).exec t =
      some (burning t (c + 2) (c + 1) [] .working, [0]) := by
    simp [burning, exec, goto, GCNode.new]
  exact burning_clean.trans <| (burning_exec h1).trans <| (burning_exec h2).trans <| (burning_exec h3).trans <|
    (burning_exec h4).trans <| (burning_exec h5).trans <| (burning_exec h6).trans <|
    (burning_exec h7).trans <| burning_exec h8

/-- A worker can get any clock. -/
theorem burning_run [Fintype T] (c : ℕ) (hc : c + 2 < UInt64.size) :
    Run (client T ℕ) Owned (initial (fun _ => 0) fun _ => 0) [] (burning t (c + 2) (c + 1) [] .working) := by
  induction c with
  | zero =>
    have he : (client T ℕ).exec Owned (initial (fun _ => 0) fun _ => 0) (List.replicate 3 (.exec t)) =
        some ([], burning t 2 1 [] .working) := by
      simp [Program.exec, client, step, burning, exec, goto, put, getclock, Owned, initial, GCNode.new,
        Nat.mod_eq_of_lt hc]
    exact run_of_exec he
  | succ c ih => exact (ih (by omega)).trans (burning_round hc)

end Burning

end GarbageCollector

end Multicore.Reclaim
