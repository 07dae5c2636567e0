import Multicore.Reclaim.GarbageCollector
import Multicore.Runs.Program
import Multicore.Runs.Totals
import Mathlib.Algebra.Order.BigOperators.Group.Finset
import Mathlib.Data.Fintype.Card

/-! The nodes of `testtwo` with the garbage collector, over an atomic stack. A worker
registers, pushes what `alloc` gives it or cleans what it pops, and deregisters; when
all workers are done `main` pops and deletes the rest. Every node that was ever made is
in one place, and in the end all of them are deleted and counted. -/

namespace Multicore.Reclaim.Accounting

open Runs

/-- The stack, the collector, the nodes that `new` has given out and that were deleted, and
the local `i` of each worker. -/
structure State (T N : Type*) where
  stack : List N
  gc : GarbageCollector T N
  created : List N
  deleted : List N
  i : T → ℕ

/-- A worker takes a step inside the collector, allocates, pushes, pops, or goes on to
deregister; or `main` pops and deletes a node. -/
inductive Action (T N : Type*)
  | exec (t : T) | alloc (t : T) (fresh : N) | push (t : T) | pop (t : T) | dereg (t : T) | drain

variable {T N : Type*} [Fintype T] [DecidableEq T] [DecidableEq N]

def step (s : State T N) : Action T N → Option (State T N)
  | .exec t => (s.gc.exec t).map fun r => { s with gc := r.1, deleted := r.2 ++ s.deleted }
  -- a round begins while `i` is an `int`; `i++` past `INT_MAX` is undefined
  | .alloc t fresh =>
    if s.gc.pc t = .working ∧ s.i t < 2 ^ 31 then
      match (s.gc.gcn t).cleanList.front with
      | some _ => some { s with gc := (s.gc.alloc t fresh).1 }
      | none =>
        if fresh ∈ s.created then none
        else some { s with gc := (s.gc.alloc t fresh).1, created := fresh :: s.created }
    else none
  | .push t =>
    match s.gc.pc t with
    | .allocated n => some { s with
        stack := n :: s.stack
        gc := s.gc.goto t .working
        i := Function.update s.i t (s.i t + 1) }
    | _ => none
  | .pop t =>
    if s.gc.pc t = .working ∧ s.i t < 2 ^ 31 then
      match s.stack with
      -- `i--` and `i++`
      | [] => some s
      | n :: l => some { s with
          stack := l
          gc := s.gc.goto t (.cleanClock n)
          i := Function.update s.i t (s.i t + 1) }
    else none
  | .dereg t => if s.gc.pc t = .working then some { s with gc := s.gc.goto t .deregTest } else none
  | .drain =>
    if ∀ t, s.gc.pc t = .gone then
      match s.stack with
      | [] => none
      | n :: l => some { s with stack := l, deleted := n :: s.deleted }
    else none

def testTwo (T N : Type*) [Fintype T] [DecidableEq T] [DecidableEq N] :
    Program (State T N) (Action T N) Empty := ⟨step, fun _ _ => []⟩

def initial (gcnClock : T → ℕ) (nodeClock : N → ℕ) : State T N :=
  ⟨[], .initial gcnClock nodeClock, [], [], fun _ => 0⟩

/-! ### The places -/

/-- Where a node is that no worker has. -/
inductive Store
  | stack | deleted
  deriving DecidableEq

def State.store (s : State T N) : Store → List N
  | .stack => s.stack
  | .deleted => s.deleted

/-- What the stack, the deleted nodes, and the hands and lists of the workers hold. -/
def State.places (s : State T N) : Store ⊕ Spot T → List N := Sum.elim s.store s.gc.holds

/-- The nodes that were made are those in some place, and none is in two. -/
structure Accounted (s : State T N) : Prop where
  custody : Custody s.places
  cover : ∀ n, n ∈ s.created ↔ ∃ p, n ∈ s.places p
  nodup : s.created.Nodup

section Places
variable {s u : State T N} {t : T} {n fresh : N} {a : Action T N}

omit [Fintype T] [DecidableEq T] [DecidableEq N] in
theorem Accounted.initial (gcnClock : T → ℕ) (nodeClock : N → ℕ) :
    Accounted (initial gcnClock nodeClock : State T N) := by
  have he : (Accounting.initial gcnClock nodeClock : State T N).places = fun _ => [] := by
    funext p
    rcases p with (_ | _) | (_ | _ | _) <;> rfl
  refine ⟨he ▸ .empty, ?_, List.nodup_nil⟩
  rw [he]
  simp [Accounting.initial]

omit [Fintype T] [DecidableEq T] [DecidableEq N] in
/-- Nodes change places and none is made. -/
theorem Accounted.moves (hs : Accounted s) (hm : Moves s.places u.places [])
    (hc : u.created = s.created) : Accounted u := by
  refine ⟨hm.custody hs.custody, fun n => ?_, hc ▸ hs.nodup⟩
  rw [hc, hs.cover n, hm.mem_iff]
  simp

omit [Fintype T] [DecidableEq N] in
/-- The worker's hand is all that changes at the collector. -/
theorem places_goto {p : Pc T N} (hu : u.gc = s.gc.goto t p) (i : Spot T) (hi : i ≠ .hand t) :
    u.places (.inr i) = s.places (.inr i) := by
  show u.gc.holds i = s.gc.holds i
  rw [hu, GarbageCollector.holds_goto i hi]

omit [Fintype T] [DecidableEq N] in
theorem push_moves (hp : s.gc.pc t = .allocated n) (hs : u.stack = n :: s.stack)
    (hd : u.deleted = s.deleted) (hu : u.gc = s.gc.goto t .working) : Moves s.places u.places [] := by
  refine .move (i := Sum.inr (.hand t)) (j := Sum.inl .stack) (n := n) Sum.inr_ne_inl ?_ ?_ ?_
  · show (s.gc.holds (.hand t)).Perm (n :: u.gc.holds (.hand t))
    rw [GarbageCollector.hand_eq (by rw [hp]; rfl), hu, GarbageCollector.hand_goto]
    exact .refl _
  · exact .of_eq hs
  · rintro ((_ | _) | i) hi hj
    · exact absurd rfl hj
    · exact hd
    · exact places_goto hu i fun h => hi (h ▸ rfl)

omit [Fintype T] [DecidableEq N] in
theorem pop_moves (hp : s.gc.pc t = .working) (hs : s.stack = n :: u.stack)
    (hd : u.deleted = s.deleted) (hu : u.gc = s.gc.goto t (.cleanClock n)) :
    Moves s.places u.places [] := by
  refine .move (i := Sum.inl .stack) (j := Sum.inr (.hand t)) (n := n) Sum.inl_ne_inr (.of_eq hs) ?_ ?_
  · show (u.gc.holds (.hand t)).Perm (n :: s.gc.holds (.hand t))
    rw [GarbageCollector.hand_nil (g := s.gc) (by rw [hp]; rfl), hu, GarbageCollector.hand_goto]
    exact .refl _
  · rintro ((_ | _) | i) hi hj
    · exact absurd rfl hi
    · exact hd
    · exact places_goto hu i fun h => hj (h ▸ rfl)

/-- Every action keeps each node in one place. -/
theorem Accounted.step (hs : Accounted s) (hu : step s a = some u) : Accounted u := by
  cases a with
  | exec t =>
    simp only [Accounting.step, Option.map_eq_some_iff] at hu
    obtain ⟨⟨g, d⟩, hg, rfl⟩ := hu
    refine hs.moves (Moves.deposit (j := Store.deleted) (GarbageCollector.exec_moves hg) (.refl _) ?_ ?_) rfl
    · rintro (_ | _) hk
      · rfl
      · exact absurd rfl hk
    · rintro rfl
      funext k
      cases k <;> rfl
  | alloc t fresh =>
    simp only [Accounting.step] at hu
    split at hu
    · rename_i hp
      split at hu
      · rename_i n hn
        cases hu
        exact hs.moves (GarbageCollector.alloc_moves (by rw [hp.1]; rfl) hn).inr rfl
      · rename_i hn
        split at hu <;> cases hu
        rename_i hfresh
        obtain ⟨hhand, hrest⟩ := GarbageCollector.alloc_fresh fresh hn
        let u : State T N := { s with gc := (s.gc.alloc t fresh).1, created := fresh :: s.created }
        have hj : (u.places (.inr (.hand t))).Perm (fresh :: s.places (.inr (.hand t))) := by
          show ((s.gc.alloc t fresh).1.holds (.hand t)).Perm (fresh :: s.gc.holds (.hand t))
          rw [hhand, GarbageCollector.hand_nil (by rw [hp.1]; rfl)]
        have hk : ∀ k, k ≠ .inr (.hand t) → u.places k = s.places k := by
          rintro ((_ | _) | k) hk
          · rfl
          · rfl
          · exact hrest k fun h => hk (h ▸ rfl)
        have hnot : ∀ k, fresh ∉ s.places k := fun k hm => hfresh ((hs.cover fresh).mpr ⟨k, hm⟩)
        refine ⟨hs.custody.enter hnot hj hk, fun m => ?_, List.nodup_cons.mpr ⟨hfresh, hs.nodup⟩⟩
        rw [List.mem_cons, hs.cover m]
        exact (Custody.mem_enter hj hk).symm
    · cases hu
  | push t =>
    simp only [Accounting.step] at hu
    split at hu <;> cases hu
    rename_i n hp
    exact hs.moves (push_moves hp rfl rfl rfl) rfl
  | pop t =>
    simp only [Accounting.step] at hu
    split at hu
    · rename_i hp
      split at hu <;> cases hu
      · exact hs
      · rename_i n l hl
        exact hs.moves (pop_moves hp.1 hl rfl rfl) rfl
    · cases hu
  | dereg t =>
    simp only [Accounting.step] at hu
    split at hu <;> cases hu
    rename_i hp
    refine hs.moves (Moves.inr ?_) rfl
    exact GarbageCollector.holds_stay (fun v hv => ⟨Function.update_of_ne hv .., rfl⟩)
      (by simp [hp, Pc.hand]) rfl rfl
  | drain =>
    simp only [Accounting.step] at hu
    split at hu
    · split at hu <;> cases hu
      rename_i n l hl
      refine hs.moves (Moves.inl ?_) rfl
      refine .move (i := Store.stack) (j := Store.deleted) (n := n) (by simp) (.of_eq hl) (.refl _) ?_
      rintro (_ | _) hi hj
      · exact absurd rfl hi
      · exact absurd rfl hj
    · cases hu

end Places

/-! ### The counts -/

/-- The worker has a node from `alloc` that it has not pushed yet. -/
def waiting : Pc T N → ℕ
  | .allocated _ => 1
  | _ => 0

/-- `dereg` has added the count of the worker to the total. -/
def added : Pc T N → Bool
  | .destroy | .gone => true
  | _ => false

/-- What the worker has contributed to `total_allocs`. -/
def counted (g : GarbageCollector T N) (t : T) : ℕ := if added (g.pc t) then (g.gcn t).allocs else 0

section Exec
variable {g u : GarbageCollector T N} {t : T} {d : List N}

omit [Fintype T] in
theorem exec_allocs (hu : g.exec t = some (u, d)) (v : T) : (u.gcn v).allocs = (g.gcn v).allocs := by
  by_cases hv : v = t
  · subst hv
    unfold GarbageCollector.exec at hu
    repeat' split at hu
    all_goals cases hu
    all_goals simp [GarbageCollector.getclock]
  · rw [(GarbageCollector.exec_of_ne hu hv).2]

omit [Fintype T] in
/-- No step of the collector is part of a push, and only one counts. -/
theorem exec_total (hu : g.exec t = some (u, d)) : waiting (g.pc t) = 0 ∧ waiting (u.pc t) = 0 ∧
    (u.totalAllocs = g.totalAllocs ∧ added (u.pc t) = added (g.pc t) ∨
      added (g.pc t) = false ∧ added (u.pc t) = true ∧
        u.totalAllocs = (g.totalAllocs + (g.gcn t).allocs) % UInt64.size) := by
  unfold GarbageCollector.exec at hu
  split at hu
  all_goals rename_i hp
  all_goals rw [hp]
  all_goals refine ⟨?_, ?_⟩
  all_goals repeat' split at hu
  all_goals cases hu
  all_goals simp [GarbageCollector.getclock, waiting, added]

end Exec

/-- No worker makes more nodes than it has rounds, and the total has the counts of those
who are done. -/
structure Counted (s : State T N) : Prop where
  rounds : ∀ t, s.i t + waiting (s.gc.pc t) ≤ 2 ^ 31
  allocs : ∀ t, (s.gc.gcn t).allocs ≤ s.i t + waiting (s.gc.pc t)
  created : s.created.length = ∑ t, (s.gc.gcn t).allocs
  total : s.gc.totalAllocs = ∑ t, counted s.gc t

namespace Counted
variable {s u : State T N} {t : T} {a : Action T N}

omit [DecidableEq T] [DecidableEq N] in
theorem initial (gcnClock : T → ℕ) (nodeClock : N → ℕ) :
    Counted (initial gcnClock nodeClock : State T N) := by
  refine ⟨fun t => ?_, fun t => Nat.zero_le _, ?_, ?_⟩
  · show 0 + 0 ≤ 2 ^ 31
    omega
  · simp [Accounting.initial, GarbageCollector.initial, GCNode.new]
  · simp [Accounting.initial, GarbageCollector.initial, counted, added]

omit [DecidableEq T] [DecidableEq N] in
/-- At most `2^32` workers cannot make `2^64` nodes in rounds that an `int` can count. -/
theorem sum_allocs_lt (hs : Counted s) (hT : Fintype.card T ≤ 2 ^ 32) :
    ∑ t, (s.gc.gcn t).allocs < UInt64.size := by
  have hle : ∑ t, (s.gc.gcn t).allocs ≤ Fintype.card T * 2 ^ 31 :=
    Finset.sum_le_card_nsmul _ _ _ fun t _ => (hs.allocs t).trans (hs.rounds t)
  have hcard : Fintype.card T * 2 ^ 31 ≤ 2 ^ 32 * 2 ^ 31 := Nat.mul_le_mul_right _ hT
  rw [UInt64.size]
  omega

omit [DecidableEq N] in
/-- An action of `t` that makes no node and adds nothing to the total. -/
theorem quiet (hs : Counted s) (hv : ∀ v, v ≠ t → u.i v = s.i v ∧ u.gc.pc v = s.gc.pc v)
    (hallocs : ∀ v, (u.gc.gcn v).allocs = (s.gc.gcn v).allocs) (hc : u.created = s.created)
    (htotal : u.gc.totalAllocs = s.gc.totalAllocs) (ht : added (u.gc.pc t) = added (s.gc.pc t))
    (hle : s.i t + waiting (s.gc.pc t) ≤ u.i t + waiting (u.gc.pc t))
    (hmax : u.i t + waiting (u.gc.pc t) ≤ 2 ^ 31) : Counted u := by
  refine ⟨fun v => ?_, fun v => ?_, ?_, ?_⟩
  · by_cases hvt : v = t
    · exact hvt ▸ hmax
    · rw [(hv v hvt).1, (hv v hvt).2]
      exact hs.rounds v
  · rw [hallocs v]
    by_cases hvt : v = t
    · subst hvt
      exact (hs.allocs v).trans hle
    · rw [(hv v hvt).1, (hv v hvt).2]
      exact hs.allocs v
  · rw [hc, hs.created]
    exact Finset.sum_congr rfl fun v _ => (hallocs v).symm
  · rw [htotal, hs.total]
    refine Finset.sum_congr rfl fun v _ => ?_
    by_cases hvt : v = t
    · subst hvt
      simp only [counted, ht, hallocs v]
    · simp only [counted, (hv v hvt).2, hallocs v]

/-- A step of the collector adds a count at most once. -/
theorem exec (hs : Counted s) (hT : Fintype.card T ≤ 2 ^ 32) {g : GarbageCollector T N} {d : List N}
    (hg : s.gc.exec t = some (g, d)) : Counted { s with gc := g, deleted := d ++ s.deleted } := by
  have hpc : ∀ v, v ≠ t → g.pc v = s.gc.pc v := fun v hv => (GarbageCollector.exec_of_ne hg hv).1
  have hallocs := exec_allocs hg
  obtain ⟨hw, hw', ⟨htotal, hadd⟩ | ⟨hadd, hadd', htotal⟩⟩ := exec_total hg
  · refine hs.quiet (t := t) (fun v hv => ⟨rfl, hpc v hv⟩) hallocs rfl htotal hadd ?_ ?_
    · show s.i t + waiting (s.gc.pc t) ≤ s.i t + waiting (g.pc t)
      rw [hw, hw']
    · show s.i t + waiting (g.pc t) ≤ 2 ^ 31
      rw [hw', ← hw]
      exact hs.rounds t
  · have hwait : ∀ v, waiting (g.pc v) = waiting (s.gc.pc v) := by
      intro v
      by_cases hv : v = t
      · rw [hv, hw, hw']
      · rw [hpc v hv]
    have hsum : ∑ v, counted g v = ∑ v, counted s.gc v + (s.gc.gcn t).allocs := by
      refine sum_add_at t ?_ fun v hv => ?_
      · simp [counted, hadd, hadd', hallocs t]
      · simp only [counted, hpc v hv, hallocs v]
    have hle : ∑ v, counted g v ≤ ∑ v, (s.gc.gcn v).allocs := by
      refine Finset.sum_le_sum fun v _ => ?_
      rw [counted, hallocs v]
      split
      · exact Nat.le_refl _
      · exact Nat.zero_le _
    refine ⟨fun v => ?_, fun v => ?_, ?_, ?_⟩
    · exact hwait v ▸ hs.rounds v
    · show (g.gcn v).allocs ≤ s.i v + waiting (g.pc v)
      rw [hallocs v, hwait v]
      exact hs.allocs v
    · show s.created.length = ∑ v, (g.gcn v).allocs
      rw [hs.created]
      exact Finset.sum_congr rfl fun v _ => (hallocs v).symm
    · show g.totalAllocs = ∑ v, counted g v
      rw [htotal, hs.total, ← hsum]
      exact Nat.mod_eq_of_lt (hle.trans_lt (hs.sum_allocs_lt hT))

omit [DecidableEq N] in
/-- A new node is counted by its worker. -/
theorem fresh (hs : Counted s) (hp : s.gc.pc t = .working) (hi : s.i t < 2 ^ 31) (fresh : N)
    (hn : (s.gc.gcn t).cleanList.front = none) :
    Counted { s with gc := (s.gc.alloc t fresh).1, created := fresh :: s.created } := by
  have hallocs : (s.gc.gcn t).allocs ≤ s.i t := by simpa [hp, waiting] using hs.allocs t
  have hself : ((s.gc.alloc t fresh).1.gcn t).allocs = (s.gc.gcn t).allocs + 1 := by
    simp only [GarbageCollector.alloc, hn, GarbageCollector.put_gcn]
    exact Nat.mod_eq_of_lt (by rw [UInt64.size]; omega)
  refine ⟨fun v => ?_, fun v => ?_, ?_, ?_⟩
  · by_cases hv : v = t
    · subst hv
      rw [GarbageCollector.alloc_pc]
      exact hi
    · rw [GarbageCollector.alloc_pc_of_ne hv]
      exact hs.rounds v
  · by_cases hv : v = t
    · subst hv
      rw [hself, GarbageCollector.alloc_pc]
      exact Nat.succ_le_succ hallocs
    · rw [GarbageCollector.alloc_gcn_of_ne hv, GarbageCollector.alloc_pc_of_ne hv]
      exact hs.allocs v
  · rw [List.length_cons, hs.created]
    exact (sum_add_at t hself fun v hv => by rw [GarbageCollector.alloc_gcn_of_ne hv]).symm
  · rw [GarbageCollector.alloc_totalAllocs, hs.total]
    refine Finset.sum_congr rfl fun v _ => ?_
    by_cases hv : v = t
    · subst hv
      simp [counted, hp, added]
    · simp only [counted, GarbageCollector.alloc_pc_of_ne hv, GarbageCollector.alloc_gcn_of_ne hv]

theorem step (hs : Counted s) (hT : Fintype.card T ≤ 2 ^ 32) (hu : step s a = some u) : Counted u := by
  cases a with
  | exec t =>
    simp only [Accounting.step, Option.map_eq_some_iff] at hu
    obtain ⟨⟨g, d⟩, hg, rfl⟩ := hu
    exact hs.exec hT hg
  | alloc t fresh =>
    simp only [Accounting.step] at hu
    split at hu
    · rename_i hp
      split at hu
      · rename_i n hn
        cases hu
        refine hs.quiet (t := t) (fun v hv => ⟨rfl, GarbageCollector.alloc_pc_of_ne hv⟩) (fun v => ?_) rfl
          GarbageCollector.alloc_totalAllocs (by simp [hp.1, added]) (by simp [hp.1, waiting]) ?_
        · by_cases hv : v = t
          · subst hv
            simp [GarbageCollector.alloc, hn]
          · rw [GarbageCollector.alloc_gcn_of_ne hv]
        · simp only [GarbageCollector.alloc_pc, waiting]
          exact hp.2
      · rename_i hn
        split at hu <;> cases hu
        exact hs.fresh hp.1 hp.2 fresh hn
    · cases hu
  | push t =>
    simp only [Accounting.step] at hu
    split at hu <;> cases hu
    rename_i n hp
    have hmax := hs.rounds t
    rw [hp] at hmax
    refine hs.quiet (t := t) (fun v hv => ⟨Function.update_of_ne hv .., Function.update_of_ne hv ..⟩)
      (fun v => rfl) rfl rfl ?_ ?_ ?_
    · simp [hp, added]
    · simp [hp, waiting]
    · simpa [waiting] using hmax
  | pop t =>
    simp only [Accounting.step] at hu
    split at hu
    · rename_i hp
      split at hu <;> cases hu
      · exact hs
      · refine hs.quiet (t := t) (fun v hv => ⟨Function.update_of_ne hv .., Function.update_of_ne hv ..⟩)
          (fun v => rfl) rfl rfl ?_ ?_ ?_
        · simp [hp.1, added]
        · simp [hp.1, waiting]
        · simp only [GarbageCollector.goto_pc, Function.update_self, waiting]
          exact hp.2
    · cases hu
  | dereg t =>
    simp only [Accounting.step] at hu
    split at hu <;> cases hu
    rename_i hp
    have hmax := hs.rounds t
    rw [hp] at hmax
    refine hs.quiet (t := t) (fun v hv => ⟨rfl, Function.update_of_ne hv ..⟩) (fun v => rfl) rfl rfl ?_ ?_ ?_
    · simp [hp, added]
    · simp [hp, waiting]
    · simpa [waiting] using hmax
  | drain =>
    simp only [Accounting.step] at hu
    split at hu
    · split at hu <;> cases hu
      exact ⟨hs.rounds, hs.allocs, hs.created, hs.total⟩
    · cases hu

end Counted

/-! ### The end of the workers -/

/-- A worker that deregisters has emptied its dirty list, and one that is gone both lists. -/
def Emptied (g : GarbageCollector T N) (t : T) : Prop :=
  match g.pc t with
  | .deregRemove | .destroy => (g.gcn t).dirtyList.elems = []
  | .gone => (g.gcn t).dirtyList.elems = [] ∧ (g.gcn t).cleanList.elems = []
  | _ => True

section Emptied
variable {g u : GarbageCollector T N} {t v : T} {d : List N} {p : Pc T N} {s r : State T N} {a : Action T N}

omit [Fintype T] [DecidableEq T] [DecidableEq N] in
theorem Emptied.same (he : Emptied g v) (hpc : u.pc v = g.pc v) (hgcn : u.gcn v = g.gcn v) : Emptied u v := by
  simpa only [Emptied, hpc, hgcn] using he

omit [Fintype T] in
theorem Emptied.exec (he : ∀ v, Emptied g v) (hu : g.exec t = some (u, d)) (v : T) : Emptied u v := by
  by_cases hv : v = t
  · subst hv
    have h := he v
    unfold GarbageCollector.exec at hu
    split at hu
    all_goals rename_i hp
    all_goals simp only [Emptied, hp] at h
    all_goals repeat' split at hu
    all_goals cases hu
    all_goals simp [Emptied, GarbageCollector.getclock]
    · rename_i hempty
      exact CircularBuffer.empty_iff.mp hempty
    · exact h
    · rename_i hfront
      exact ⟨h, CircularBuffer.front_eq_none hfront⟩
    · exact h
  · obtain ⟨hpc, hgcn⟩ := GarbageCollector.exec_of_ne hu hv
    exact (he v).same hpc hgcn

omit [Fintype T] [DecidableEq N] in
theorem Emptied.goto (he : ∀ v, Emptied g v) (hp : Emptied (g.goto t p) t) (v : T) :
    Emptied (g.goto t p) v := by
  by_cases hv : v = t
  · exact hv ▸ hp
  · exact (he v).same (Function.update_of_ne hv ..) rfl

omit [Fintype T] [DecidableEq N] in
theorem Emptied.alloc (he : ∀ v, Emptied g v) (fresh : N) (v : T) : Emptied (g.alloc t fresh).1 v := by
  by_cases hv : v = t
  · subst hv
    simp [Emptied]
  · exact (he v).same (GarbageCollector.alloc_pc_of_ne hv) (GarbageCollector.alloc_gcn_of_ne hv)

theorem Emptied.step (he : ∀ v, Emptied s.gc v) (hr : step s a = some r) : ∀ v, Emptied r.gc v := by
  cases a with
  | exec t =>
    simp only [Accounting.step, Option.map_eq_some_iff] at hr
    obtain ⟨⟨g, d⟩, hg, rfl⟩ := hr
    exact Emptied.exec he hg
  | alloc t fresh =>
    simp only [Accounting.step] at hr
    repeat' split at hr
    all_goals cases hr
    all_goals exact Emptied.alloc he fresh
  | push t | dereg t =>
    simp only [Accounting.step] at hr
    split at hr <;> cases hr
    exact Emptied.goto he (by simp [Emptied])
  | pop t =>
    simp only [Accounting.step] at hr
    repeat' split at hr
    all_goals cases hr
    · exact he
    · exact Emptied.goto he (by simp [Emptied])
  | drain =>
    simp only [Accounting.step] at hr
    repeat' split at hr
    all_goals cases hr
    exact he

end Emptied

omit [Fintype T] [DecidableEq T] [DecidableEq N] in
/-- When the workers are gone and the stack is empty, all nodes have been deleted. -/
theorem Accounted.deleted {s : State T N} (hs : Accounted s) (he : ∀ t, Emptied s.gc t)
    (hgone : ∀ t, s.gc.pc t = .gone) (hstack : s.stack = []) : s.deleted.Perm s.created := by
  refine (List.perm_ext_iff_of_nodup (hs.custody.once (.inl .deleted)) hs.nodup).mpr fun n => ?_
  rw [hs.cover n]
  constructor
  · exact fun hn => ⟨.inl .deleted, hn⟩
  · rintro ⟨p, hn⟩
    have hlists : ∀ t, (s.gc.gcn t).dirtyList.elems = [] ∧ (s.gc.gcn t).cleanList.elems = [] := by
      intro t
      simpa only [Emptied, hgone t] using he t
    rcases p with (_ | _) | (t | t | t)
    · have hmem : n ∈ s.stack := hn
      rw [hstack] at hmem
      cases hmem
    · exact hn
    · have hmem : n ∈ s.gc.holds (.hand t) := hn
      rw [GarbageCollector.hand_nil (by rw [hgone t]; rfl)] at hmem
      cases hmem
    · have hmem : n ∈ (s.gc.gcn t).dirtyList.elems := hn
      rw [(hlists t).1] at hmem
      cases hmem
    · have hmem : n ∈ (s.gc.gcn t).cleanList.elems := hn
      rw [(hlists t).2] at hmem
      cases hmem

/-- Every node that was made is in exactly one place. When all workers have deregistered
and the stack is drained, every node has been deleted exactly once and `total_allocs` is
their number. A worker begins a round only while its `i` is below `2 ^ 31`. -/
theorem collector_accounts_for_nodes {numthreads : UInt32} {gcnClock : Fin numthreads.toNat → ℕ}
    {nodeClock : N → ℕ} {h : List Empty} {s : State (Fin numthreads.toNat) N}
    (hr : Run (testTwo (Fin numthreads.toNat) N) Free (initial gcnClock nodeClock) h s) :
    s.created.Nodup ∧
      (∀ n ∈ s.created, ∃! p, n ∈ s.places p) ∧
      (∀ p, (s.places p).Nodup) ∧
      (∀ p, ∀ n ∈ s.places p, n ∈ s.created) ∧
      ((∀ t, s.gc.pc t = .gone) → s.stack = [] →
        s.deleted.Perm s.created ∧ s.gc.totalAllocs = s.created.length) := by
  have hT : Fintype.card (Fin numthreads.toNat) ≤ 2 ^ 32 := by
    rw [Fintype.card_fin]
    exact numthreads.toNat_lt.le
  obtain ⟨hs, hc, he⟩ : Accounted s ∧ Counted s ∧ ∀ t, Emptied s.gc t := by
    refine hr.always (I := fun s => Accounted s ∧ Counted s ∧ ∀ t, Emptied s.gc t)
      ⟨.initial _ _, .initial _ _, fun t => trivial⟩ ?_
    rintro s a u ⟨hs, hc, he⟩ - hu
    exact ⟨hs.step hu, hc.step hT hu, Emptied.step he hu⟩
  refine ⟨hs.nodup, ?_, hs.custody.once, fun p n hn => (hs.cover n).mpr ⟨p, hn⟩, fun hgone hstack => ?_⟩
  · intro n hn
    obtain ⟨p, hp⟩ := (hs.cover n).mp hn
    exact hs.custody.existsUnique hp
  · refine ⟨hs.deleted he hgone hstack, ?_⟩
    rw [hc.total, hc.created]
    refine Finset.sum_congr rfl fun t _ => ?_
    simp only [counted, hgone t, added, if_true]

/-- A worker cleans a node while the other has an older clock; the node becomes clean
when the other has deregistered. The node on the stack is left to `main`. -/
theorem collector_accounts_for_nodes_waiting : ∃ (h : List Empty) (s : State (Fin 2) ℕ),
    Run (testTwo (Fin 2) ℕ) Free (initial (fun _ => 0) fun _ => 0) h s ∧
      s.deleted = [0, 1] ∧ s.created = [1, 0] ∧ s.gc.totalAllocs = s.created.length := by
  obtain ⟨h, s, hr, ht⟩ := exists_run_of_exec (P := testTwo (Fin 2) ℕ) (C := Free)
    (s := initial (fun _ => 0) fun _ => 0)
    (List.flatten [[.exec 0, .exec 1, .exec 0, .exec 1, .exec 0, .exec 1],
      [.alloc 0 0, .push 0, .alloc 0 1, .push 0],
      -- the clock of the other worker is older, so node 1 becomes dirty
      .pop 1 :: List.replicate 12 (.exec 1),
      [.dereg 0, .exec 0, .exec 0, .exec 0], .dereg 1 :: List.replicate 23 (.exec 1), [.drain]])
    (fun _ s => decide (∀ t, s.gc.pc t = .gone) && s.stack == [] && s.deleted == [0, 1] &&
      s.created == [1, 0]) (by decide +kernel)
  simp only [Bool.and_eq_true, beq_iff_eq, decide_eq_true_eq] at ht
  obtain ⟨⟨⟨hgone, hstack⟩, hdeleted⟩, hcreated⟩ := ht
  have hr' : Run (testTwo (Fin (2 : UInt32).toNat) ℕ) Free (initial (fun _ => 0) fun _ => 0) h s := hr
  obtain ⟨-, -, -, -, hend⟩ := collector_accounts_for_nodes hr'
  exact ⟨h, s, hr, hdeleted, hcreated, (hend hgone hstack).2⟩

end Multicore.Reclaim.Accounting
