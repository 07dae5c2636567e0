import Multicore.Reclaim.Shield
import Multicore.Stacks.LockFreeStack
import Multicore.Stacks.Ownership

/-! Safe reclamation in `testtwo` with the garbage collector, over a `LockFreeStack`. A pop
that has read a node from the head looks into it and swaps without any lock; in the
meantime the node must not be deleted or handed out again. -/

namespace Multicore.Reclaim.GracePeriod

open Runs Stacks

/-- The stack, the collector, and the nodes that are allocated. -/
structure State (T N : Type*) where
  stack : LockFreeStack.State T N
  gc : GarbageCollector T N
  live : List N

/-- A worker takes a step inside the collector, allocates, calls `push` with the node that
it got or `pop`, takes a step inside the stack, returns from there, or goes on to deregister. -/
inductive Action (T N : Type*)
  | gc (t : T) | alloc (t : T) (fresh : N) | push (t : T) | pop (t : T) | exec (t : T) | ret (t : T)
  | dereg (t : T)

/-- A pop reads a node from the head, a node is handed out, or a node is deleted. -/
inductive Event (T N : Type*)
  | loaded (t : T) (n : N) | allocated (n : N) | deleted (n : N)
  deriving DecidableEq

variable {T N : Type*} [DecidableEq T] [DecidableEq N]

/-- `n->next=NULL` -/
def State.clear (s : State T N) (n : N) : LockFreeStack.State T N :=
  { s.stack with next := Function.update s.stack.next n none }

/-- The worker goes on to clean what it popped. -/
def afterPop (g : GarbageCollector T N) (t : T) : Option (Res N) → GarbageCollector T N
  | some (.popped (some n)) => g.goto t (.cleanClock n)
  | _ => g

def step (s : State T N) : Action T N → Option (State T N)
  | .gc t => (s.gc.exec t).map fun r => { s with gc := r.1, live := s.live.filter (· ∉ r.2) }
  | .alloc t fresh =>
    if s.gc.pc t = .working ∧ s.stack.pc t = .idle then
      match (s.gc.gcn t).cleanList.front with
      | some n => some { s with stack := s.clear n, gc := (s.gc.alloc t fresh).1 }
      | none =>
        if fresh ∈ s.live then none
        else some ⟨s.clear fresh, (s.gc.alloc t fresh).1, fresh :: s.live⟩
    else none
  | .push t =>
    match s.gc.pc t with
    | .allocated n => (LockFreeStack.step s.stack (.call t (.push n))).map fun k =>
        { s with stack := k, gc := s.gc.goto t .working }
    | _ => none
  | .pop t =>
    if s.gc.pc t = .working then
      (LockFreeStack.step s.stack (.call t .pop)).map fun k => { s with stack := k }
    else none
  | .exec t => (LockFreeStack.step s.stack (.exec t)).map fun k => { s with stack := k }
  | .ret t => (LockFreeStack.step s.stack (.ret t)).map fun k =>
      { s with stack := k, gc := afterPop s.gc t (s.stack.pc t).result }
  | .dereg t =>
    if s.gc.pc t = .working ∧ s.stack.pc t = .idle then some { s with gc := s.gc.goto t .deregTest }
    else none

def shows (s : State T N) : Action T N → List (Event T N)
  | .exec t =>
    match s.stack.pc t, s.stack.headNext with
    | .popLoad, some n => [.loaded t n]
    | _, _ => []
  | .alloc t fresh => [.allocated (s.gc.alloc t fresh).2]
  | .gc t => ((s.gc.exec t).map fun r => r.2.map Event.deleted).getD []
  | _ => []

def testTwo (T N : Type*) [DecidableEq T] [DecidableEq N] :
    Program (State T N) (Action T N) (Event T N) := ⟨step, shows⟩

def initial (next : N → Option N) (gcnClock : T → ℕ) (nodeClock : N → ℕ) : State T N :=
  ⟨LockFreeStack.initial next, .initial gcnClock nodeClock, []⟩

/-- No clock wraps, and no second read in `getminclock` is above the minimum so far. -/
def Steady : Guard (State T N) (Action T N)
  | s, .gc t => s.gc.Steady t
  | _, _ => True

instance (s : State T N) : (c : Action T N) → Decidable (Steady s c)
  | .gc t => inferInstanceAs (Decidable (s.gc.Steady t))
  | .alloc _ _ | .push _ | .pop _ | .exec _ | .ret _ | .dereg _ => inferInstanceAs (Decidable True)

/-- A pop holds `n` when it has read it from the head and has not tried its swap yet. -/
def Holding (s : State T N) (t : T) (n : N) : Prop :=
  s.stack.pc t = .popNext n ∨ ∃ x, s.stack.pc t = .popCas n x

/-- Since `t` last read the head, when it read `n`, that has not been deleted or handed out. -/
def Intact (h : List (Event T N)) (t : T) (n : N) : Prop :=
  ∃ h₁ h₂, h = h₁ ++ .loaded t n :: h₂ ∧ (∀ m, .loaded t m ∉ h₂) ∧ .deleted n ∉ h₂ ∧ .allocated n ∉ h₂

/-! ### What protects a node -/

/-- The places of the stack, where nothing counts as returned, and those of the workers. -/
def State.places (s : State T N) (l : List N) : Stacks.Place T ⊕ Spot T → List N :=
  Sum.elim (Stacks.places [] s.stack.core.view l) s.gc.holds

/-- The node `n` is in the stack, has just been popped, or waits for `t`. -/
def Safe (s : State T N) (l : List N) (t : T) (n : N) : Prop :=
  n ∈ l ∨ (∃ v, s.stack.core.view v = .popped (some n)) ∨ ∃ v, s.gc.Shields v t n

structure Inv (s : State T N) (l : List N) : Prop where
  chain : Treiber s.stack.core l
  custody : Custody (s.places l)
  live : ∀ p n, n ∈ s.places l p → n ∈ s.live
  idle : ∀ t, s.gc.pc t ≠ .working → s.stack.pc t = .idle
  registered : ∀ t, s.gc.Registered t
  timely : ∀ t, s.gc.Timely t
  safe : ∀ t n, (s.stack.core.view t).holds = some n → Safe s l t n

section Places
variable {s : State T N} {l : List N} {t w : T} {n m : N}

omit [DecidableEq T] [DecidableEq N] in
theorem Safe.place (hs : Safe s l t n) : ∃ p, n ∈ s.places l p ∧ ∀ v, p ≠ .inr (.clean v) := by
  rcases hs with hl | ⟨v, hv⟩ | ⟨v, hv⟩
  · exact ⟨.inl .chain, hl, by simp⟩
  · refine ⟨.inl (.pending v), ?_, by simp⟩
    show n ∈ (s.stack.core.view v).owns.toList
    rw [hv]
    exact List.mem_cons_self
  · rcases hv.place with hmem | hmem
    · exact ⟨.inr (.hand v), hmem, by simp⟩
    · exact ⟨.inr (.dirty v), hmem, by simp⟩

/-- Nobody in the stack has anything to do with `n`. -/
def Spare (s : State T N) (l : List N) (n : N) : Prop :=
  n ∉ l ∧ ∀ w, (s.stack.core.view w).owns ≠ some n ∧ (s.stack.core.view w).holds ≠ some n

omit [DecidableEq T] [DecidableEq N] in
theorem mem_hand : n ∈ s.places l (.inr (.hand t)) ↔ (s.gc.pc t).hand = some n := Option.mem_toList

omit [DecidableEq T] [DecidableEq N] in
theorem mem_pending : n ∈ s.places l (.inl (.pending t)) ↔ (s.stack.core.view t).owns = some n :=
  Option.mem_toList

namespace Inv

omit [DecidableEq T] [DecidableEq N] in
theorem spare_of_clean (hi : Inv s l) (hn : n ∈ s.places l (.inr (.clean t))) : Spare s l n := by
  refine ⟨fun hl => ?_, fun w => ⟨fun ho => ?_, fun hh => ?_⟩⟩
  · exact hi.custody.disjoint (i := .inl .chain) Sum.inl_ne_inr hl hn
  · exact hi.custody.disjoint Sum.inl_ne_inr (mem_pending.mpr ho) hn
  · obtain ⟨p, hp, hclean⟩ := (hi.safe w n hh).place
    exact hclean t (hi.custody.unique p _ n hp hn)

omit [DecidableEq T] [DecidableEq N] in
theorem spare_of_new (hi : Inv s l) (hn : n ∉ s.live) : Spare s l n := by
  refine ⟨fun hl => hn (hi.live (.inl .chain) n hl), fun w => ⟨fun ho => ?_, fun hh => ?_⟩⟩
  · exact hn (hi.live (.inl (.pending w)) n (mem_pending.mpr ho))
  · obtain ⟨p, hp, -⟩ := (hi.safe w n hh).place
    exact hn (hi.live p n hp)

omit [DecidableEq T] in
/-- The field of a spare node may be cleared. -/
theorem clear (hi : Inv s l) (hn : Spare s l n) : Treiber (s.clear n).core l := by
  refine hi.chain.write hn.1 ?_ none
  intro w y hw
  rcases View.of_knows hw with hw | hw
  · exact (hn.2 w).1 (by rw [hw]; rfl)
  · exact (hn.2 w).2 (by rw [hw]; rfl)

omit [DecidableEq T] [DecidableEq N] in
/-- Who is inside the stack is not inside the collector. -/
theorem working (hi : Inv s l) (hw : (s.stack.core.view w).holds = some n) : s.gc.pc w = .working := by
  by_contra hpc
  rw [show s.stack.core.view w = .idle from congrArg LockFreeStack.Pc.view (hi.idle w hpc)] at hw
  cases hw

omit [DecidableEq T] [DecidableEq N] in
theorem holder (hi : Inv s l) (hw : (s.stack.core.view w).holds = some n) :
    w ∈ s.gc.clocks ∧ (s.gc.gcn w).clock < s.gc.clock := by
  have hpc := hi.working hw
  have hreg := hi.registered w
  have htime := hi.timely w
  simp only [GarbageCollector.Registered, GarbageCollector.Timely, hpc] at hreg htime
  exact ⟨hreg, htime⟩

omit [DecidableEq T] [DecidableEq N] in
theorem initial (next : N → Option N) (gcnClock : T → ℕ) (nodeClock : N → ℕ) :
    Inv (initial next gcnClock nodeClock : State T N) [] := by
  have hp : (GracePeriod.initial next gcnClock nodeClock : State T N).places [] = fun _ => [] := by
    funext p
    rcases p with (_ | _ | _) | (_ | _ | _) <;> rfl
  refine ⟨.initial next, hp ▸ .empty, ?_, fun t _ => rfl, fun t => trivial, fun t => trivial, ?_⟩
  · rw [hp]
    exact fun _ _ hn => absurd hn List.not_mem_nil
  · rintro t n ⟨⟩

end Inv

end Places

/-! ### Steps of the collector -/

section Collector
variable {s : State T N} {l : List N} {t : T} {n : N} {g : GarbageCollector T N} {d : List N}

theorem Inv.gc_moves (hg : s.gc.exec t = some (g, d)) :
    Moves (s.places l) (State.places { s with gc := g, live := s.live.filter (· ∉ d) } l) d :=
  (GarbageCollector.exec_moves hg).inr

theorem Inv.gc_step (hi : Inv s l) (hst : s.gc.Steady t) (hg : s.gc.exec t = some (g, d)) :
    Inv { s with gc := g, live := s.live.filter (· ∉ d) } l := by
  have hm := Inv.gc_moves (l := l) hg
  have hbusy : s.gc.pc t ≠ .working := by
    intro hp
    simp [GarbageCollector.exec, hp] at hg
  refine ⟨hi.chain, hm.custody hi.custody, ?_, ?_, GarbageCollector.Registered.exec hi.registered hg,
    GarbageCollector.Timely.exec hi.timely hst hg, ?_⟩
  · intro p n hn
    obtain ⟨q, hq⟩ := hm.mem_iff.mpr (.inr ⟨p, hn⟩)
    exact List.mem_filter.mpr ⟨hi.live q n hq, decide_eq_true fun hd => hm.left hi.custody hd p hn⟩
  · intro v hv
    by_cases hvt : v = t
    · exact hvt ▸ hi.idle t hbusy
    · exact hi.idle v ((GarbageCollector.exec_of_ne hg hvt).1 ▸ hv)
  · intro w n hw
    have hwt : w ≠ t := by
      rintro rfl
      exact hbusy (hi.working hw)
    obtain ⟨hreg, htime⟩ := hi.holder hw
    refine (hi.safe w n hw).imp_right (Or.imp_right ?_)
    rintro ⟨v, hv⟩
    refine ⟨v, ?_⟩
    by_cases hvt : v = t
    · subst hvt
      refine hv.exec hwt hreg htime ?_ hst hg
      intro m hm hmem
      have hdirty : m ∈ s.places l (.inr (.dirty v)) := hmem
      exact hi.custody.disjoint (by simp) (mem_hand.mpr hm) hdirty
    · refine hv.other hg hvt hwt fun hn => ?_
      rcases hv.place with hmem | hmem
      · have he := hi.custody.unique _ (.inr (.hand v)) n (mem_hand.mpr hn) hmem
        exact hvt (Spot.hand.inj (Sum.inr.inj he)).symm
      · have hdirty : n ∈ s.places l (.inr (.dirty v)) := hmem
        exact hi.custody.disjoint (by simp) (mem_hand.mpr hn) hdirty

/-- A worker that is between its operations gets a spare node. -/
theorem Inv.alloc_step {fresh : N} {live : List N} (hi : Inv s l) (hp : s.gc.pc t = .working)
    (ht : s.stack.pc t = .idle) (hn : Spare s l n)
    (hc : Custody (State.places ⟨s.clear n, (s.gc.alloc t fresh).1, live⟩ l))
    (hl : ∀ p m, m ∈ State.places ⟨s.clear n, (s.gc.alloc t fresh).1, live⟩ l p → m ∈ live) :
    Inv ⟨s.clear n, (s.gc.alloc t fresh).1, live⟩ l := by
  have hreg := hi.registered t
  have htime := hi.timely t
  simp only [GarbageCollector.Registered, GarbageCollector.Timely, hp] at hreg htime
  refine ⟨hi.clear hn, hc, hl, ?_, GarbageCollector.Registered.alloc hi.registered hreg,
    GarbageCollector.Timely.alloc hi.timely htime, ?_⟩
  · intro v hv
    by_cases hvt : v = t
    · exact hvt ▸ ht
    · exact hi.idle v (GarbageCollector.alloc_pc_of_ne hvt ▸ hv)
  · intro w m hw
    refine (hi.safe w m hw).imp_right (Or.imp_right ?_)
    rintro ⟨v, hv⟩
    exact ⟨v, hv.alloc (by simp [GarbageCollector.Younger, hp]) fresh⟩

end Collector

/-! ### Calls and returns -/

section Calls
variable {s : State T N} {k : LockFreeStack.State T N} {l : List N} {t w : T} {n : N} {a : View N}
  {p : Pc T N} {op : Op N}

omit [DecidableEq N] in
/-- A worker that goes into the stack or out of it takes no protection away. -/
theorem Safe.goto (hs : Safe s l w n) (hk : k.core = s.stack.core.goto t a)
    (ht : s.stack.core.view t ≠ .popped (some n)) (hy : ∀ x, ¬ s.gc.Younger t n x)
    (hp : ∀ x, p.Bounded w x) : Safe { s with stack := k, gc := s.gc.goto t p } l w n := by
  refine hs.imp_right (Or.imp ?_ ?_)
  · rintro ⟨v, hv⟩
    have hvt : v ≠ t := by
      rintro rfl
      exact ht hv
    refine ⟨v, ?_⟩
    show k.core.view v = _
    rw [hk]
    exact (Function.update_of_ne hvt ..).trans hv
  · rintro ⟨v, hv⟩
    exact ⟨v, hv.goto hy hp⟩

omit [DecidableEq N] in
/-- Nodes that are not with `t` stay where they are. -/
theorem places_rest (hk : k.core = s.stack.core.goto t a) (q : Stacks.Place T ⊕ Spot T)
    (hq : q ≠ .inl (.pending t)) (hq' : q ≠ .inr (.hand t)) :
    State.places { s with stack := k, gc := s.gc.goto t p } l q = s.places l q := by
  rcases q with (_ | v | _) | i
  · rfl
  · show Stacks.places [] k.core.view l (.pending v) = _
    rw [hk]
    exact Stacks.pending_of_ne (h := []) (l := l) fun h => hq (h ▸ rfl)
  · rfl
  · exact GarbageCollector.holds_goto i fun h => hq' (h ▸ rfl)

omit [DecidableEq N] in
theorem places_pending (hk : k.core = s.stack.core.goto t a) :
    State.places { s with stack := k, gc := s.gc.goto t p } l (.inl (.pending t)) = a.owns.toList := by
  show Stacks.places [] k.core.view l (.pending t) = _
  rw [hk]
  exact Stacks.pending_self

omit [DecidableEq N] in
theorem places_hand :
    State.places { s with stack := k, gc := s.gc.goto t p } l (.inr (.hand t)) = p.hand.toList :=
  GarbageCollector.hand_goto

omit [DecidableEq N] in
/-- `t` holds what it held. -/
theorem stay_moves (hk : k.core = s.stack.core.goto t a) (ho : a.owns = (s.stack.core.view t).owns)
    (hp : p.hand = (s.gc.pc t).hand) :
    Moves (s.places l) (State.places { s with stack := k, gc := s.gc.goto t p } l) [] := by
  refine .stay (funext fun q => ?_)
  by_cases hq : q = .inl (.pending t)
  · subst hq
    rw [places_pending hk, ho]
    rfl
  by_cases hq' : q = .inr (.hand t)
  · subst hq'
    rw [places_hand, hp]
    rfl
  · exact places_rest hk q hq hq'

omit [DecidableEq N] in
/-- A worker that is registered and between its operations enters the stack, leaves it or
begins to deregister. -/
theorem Inv.call_step (hi : Inv s l) (hk : k.core = s.stack.core.goto t a)
    (hother : ∀ v, v ≠ t → k.pc v = s.stack.pc v) (hchain : Treiber (s.stack.core.goto t a) l)
    (hm : Moves (s.places l) (State.places { s with stack := k, gc := s.gc.goto t p } l) [])
    (hidle : p ≠ .working → k.pc t = .idle) (hreg : t ∈ s.gc.clocks)
    (htime : (s.gc.goto t p).Timely t) (ha : a.holds = none)
    (hsafe : ∀ w n, (s.stack.core.view w).holds = some n →
      Safe { s with stack := k, gc := s.gc.goto t p } l w n) :
    Inv { s with stack := k, gc := s.gc.goto t p } l := by
  refine ⟨?_, hm.custody hi.custody, ?_, ?_, GarbageCollector.Registered.goto hi.registered hreg,
    GarbageCollector.Timely.goto hi.timely htime, ?_⟩
  · show Treiber k.core l
    exact hk ▸ hchain
  · intro q n hn
    obtain ⟨q', hq'⟩ := hm.mem_iff.mpr (.inr ⟨q, hn⟩)
    exact hi.live q' n hq'
  · intro v hv
    by_cases hvt : v = t
    · subst hvt
      exact hidle fun hp => hv (GarbageCollector.goto_pc.trans hp)
    · rw [show ({ s with stack := k, gc := s.gc.goto t p } : State T N).stack.pc v = k.pc v from rfl,
        hother v hvt]
      exact hi.idle v fun hp => hv ((GarbageCollector.goto_pc_of_ne hvt).trans hp)
  · intro w n hw
    have hview : ({ s with stack := k, gc := s.gc.goto t p } : State T N).stack.core.view =
        Function.update s.stack.core.view t a := congrArg Core.view hk
    rw [hview] at hw
    by_cases hwt : w = t
    · rw [hwt, Function.update_self, ha] at hw
      cases hw
    · rw [Function.update_of_ne hwt] at hw
      exact hsafe w n hw

theorem Inv.push_step (hi : Inv s l) (hp : s.gc.pc t = .allocated n)
    (hk : LockFreeStack.step s.stack (.call t (.push n)) = some k) :
    Inv { s with stack := k, gc := s.gc.goto t .working } l := by
  obtain ⟨ht, hcore⟩ := LockFreeStack.core_call hk
  have hview : s.stack.core.view t = .idle := congrArg LockFreeStack.Pc.view ht
  have hhand : n ∈ s.places l (.inr (.hand t)) := mem_hand.mpr (by rw [hp]; rfl)
  have hreg := hi.registered t
  have htime := hi.timely t
  simp only [GarbageCollector.Registered, GarbageCollector.Timely, hp] at hreg htime
  refine hi.call_step hcore (fun v hv => LockFreeStack.step_pc_of_ne hk hv) ?_ ?_ (absurd rfl) hreg
    (by simpa [GarbageCollector.Timely] using htime) rfl ?_
  · -- the node is in the hands of `t` and nowhere else
    refine hi.chain.begin (fun hl => ?_) fun u _ => ⟨fun hu => ?_, fun hu => ?_⟩
    · exact hi.custody.disjoint (i := .inl .chain) Sum.inl_ne_inr hl hhand
    · have howns := mem_pending (l := l).mpr (View.owns_of_pushes hu)
      exact hi.custody.disjoint Sum.inl_ne_inr howns hhand
    · rcases hi.safe u n hu with hl | ⟨v, hv⟩ | ⟨v, hv⟩
      · exact hi.custody.disjoint (i := .inl .chain) Sum.inl_ne_inr hl hhand
      · have howns := mem_pending (l := l) (n := n).mpr (by rw [hv]; rfl)
        exact hi.custody.disjoint Sum.inl_ne_inr howns hhand
      · rcases hv.waits with hy | ⟨hd, -⟩
        · have he := hi.custody.unique _ _ n (mem_hand.mpr hy.hand) hhand
          rw [Spot.hand.inj (Sum.inr.inj he)] at hy
          simp [GarbageCollector.Younger, hp] at hy
        · exact hi.custody.disjoint (i := .inr (.dirty v)) (by simp) hd hhand
  · refine .move (i := Sum.inr (.hand t)) (j := Sum.inl (.pending t)) (n := n) Sum.inr_ne_inl ?_ ?_ ?_
    · rw [places_hand]
      show (s.gc.holds (.hand t)).Perm [n]
      rw [GarbageCollector.hand_eq (by rw [hp]; rfl)]
    · rw [places_pending hcore]
      show [n].Perm (n :: (s.stack.core.view t).owns.toList)
      rw [hview]
      exact .refl _
    · exact fun q hq hq' => places_rest hcore q hq' hq
  · intro w m hw
    exact (hi.safe w m hw).goto hcore (by simp [hview]) (by simp [GarbageCollector.Younger, hp])
      fun _ => trivial

theorem Inv.pop_step (hi : Inv s l) (hp : s.gc.pc t = .working)
    (hk : LockFreeStack.step s.stack (.call t .pop) = some k) : Inv { s with stack := k } l := by
  obtain ⟨ht, hcore⟩ := LockFreeStack.core_call hk
  have hview : s.stack.core.view t = .idle := congrArg LockFreeStack.Pc.view ht
  have hreg := hi.registered t
  have htime := hi.timely t
  simp only [GarbageCollector.Registered, GarbageCollector.Timely, hp] at hreg htime
  rw [← GarbageCollector.goto_self hp]
  refine hi.call_step hcore (fun v hv => LockFreeStack.step_pc_of_ne hk hv) (hi.chain.free rfl rfl rfl)
    (stay_moves hcore (by rw [hview]; rfl) (by rw [hp])) (absurd rfl) hreg
    (by simpa [GarbageCollector.Timely] using htime) rfl ?_
  intro w m hw
  exact (hi.safe w m hw).goto hcore (by simp [hview]) (by simp [GarbageCollector.Younger, hp])
    fun _ => trivial

omit [DecidableEq N] in
theorem Inv.dereg_step (hi : Inv s l) (hp : s.gc.pc t = .working) (ht : s.stack.pc t = .idle) :
    Inv { s with gc := s.gc.goto t .deregTest } l := by
  have hview : s.stack.core.view t = .idle := congrArg LockFreeStack.Pc.view ht
  have hcore : s.stack.core = s.stack.core.goto t .idle := by
    rw [Core.goto, ← hview, Function.update_eq_self]
  have hreg := hi.registered t
  have htime := hi.timely t
  simp only [GarbageCollector.Registered, GarbageCollector.Timely, hp] at hreg htime
  refine hi.call_step (k := s.stack) hcore (fun v _ => rfl) (hi.chain.free rfl rfl rfl)
    (stay_moves hcore (by rw [hview]) (by rw [hp]; rfl)) (fun _ => ht) hreg
    (by simpa [GarbageCollector.Timely] using htime) rfl ?_
  intro w m hw
  exact (hi.safe w m hw).goto hcore (by simp [hview]) (by simp [GarbageCollector.Younger, hp])
    fun _ => trivial

theorem Inv.ret_step (hi : Inv s l) (hk : LockFreeStack.step s.stack (.ret t) = some k) :
    Inv { s with stack := k, gc := afterPop s.gc t (s.stack.pc t).result } l := by
  obtain ⟨r, hr, hcore⟩ := LockFreeStack.core_ret hk
  have hres : (s.stack.core.view t).result = some r := (LockFreeStack.view_result _).trans hr
  have hp : s.gc.pc t = .working := by
    by_contra hpc
    rw [hi.idle t hpc] at hr
    cases hr
  have hidle : k.pc t = .idle := by
    simp only [LockFreeStack.step, Option.map_eq_some_iff] at hk
    obtain ⟨-, -, rfl⟩ := hk
    exact Function.update_self ..
  have hother : ∀ v, v ≠ t → k.pc v = s.stack.pc v := fun v hv => LockFreeStack.step_pc_of_ne hk hv
  have hreg := hi.registered t
  have htime := hi.timely t
  simp only [GarbageCollector.Registered, GarbageCollector.Timely, hp] at hreg htime
  rw [hr]
  by_cases hpop : ∃ n, r = .popped (some n)
  · obtain ⟨n, rfl⟩ := hpop
    have hview : s.stack.core.view t = .popped (some n) := by
      cases hv : s.stack.core.view t <;> rw [hv] at hres <;> cases hres
      rfl
    refine hi.call_step (p := .cleanClock n) hcore hother (hi.chain.free rfl rfl rfl) ?_ (fun _ => hidle) hreg
      (by simpa [GarbageCollector.Timely] using htime) rfl ?_
    · refine .move (i := Sum.inl (.pending t)) (j := Sum.inr (.hand t)) (n := n) Sum.inl_ne_inr ?_ ?_ ?_
      · rw [places_pending hcore]
        show ((s.stack.core.view t).owns.toList).Perm [n]
        rw [hview]
        exact .refl _
      · rw [places_hand]
        show [n].Perm (n :: s.gc.holds (.hand t))
        rw [GarbageCollector.hand_nil (by rw [hp]; rfl)]
      · exact fun q hq hq' => places_rest hcore q hq hq'
    · intro w m hw
      by_cases hm : m = n
      · -- the node that was popped begins its time in the collector
        subst hm
        refine .inr (.inr ⟨t, ?_, .inl ?_⟩)
        · show Pc.Bounded w _ ((s.gc.goto t (.cleanClock m)).pc t)
          rw [GarbageCollector.goto_pc]
          exact trivial
        · simp [GarbageCollector.Younger]
      · exact (hi.safe w m hw).goto hcore (by rw [hview]; simpa using Ne.symm hm)
          (by simp [GarbageCollector.Younger, hp]) fun _ => trivial
  · have hafter : afterPop s.gc t (some r) = s.gc.goto t .working := by
      rw [GarbageCollector.goto_self hp]
      unfold afterPop
      split
      · rename_i n hn
        cases hn
        exact absurd ⟨n, rfl⟩ hpop
      · rfl
    have howns : (s.stack.core.view t).owns = none := by
      cases hv : s.stack.core.view t <;> rw [hv] at hres <;> cases hres
      · rfl
      · rename_i r
        cases r with
        | none => rfl
        | some n => exact absurd ⟨n, rfl⟩ hpop
    rw [hafter]
    refine hi.call_step hcore hother (hi.chain.free rfl rfl rfl)
      (stay_moves hcore (by rw [howns]; rfl) (by rw [hp])) (absurd rfl) hreg
      (by simpa [GarbageCollector.Timely] using htime) rfl ?_
    intro w m hw
    refine (hi.safe w m hw).goto hcore ?_ (by simp [GarbageCollector.Younger, hp]) fun _ => trivial
    intro hv
    rw [hv] at howns
    cases howns

end Calls

/-! ### Steps of the stack -/

section Exec
variable {s : State T N} {k : LockFreeStack.State T N} {l : List N} {t w : T} {n : N}

/-- A step inside the stack keeps what is safe, and what a pop reads is on the stack. -/
theorem Inv.exec_step (hi : Inv s l) (hk : LockFreeStack.step s.stack (.exec t) = some k) :
    ∃ l', Inv { s with stack := k } l' := by
  have hpc : ∀ v, v ≠ t → k.pc v = s.stack.pc v := fun v hv => LockFreeStack.step_pc_of_ne hk hv
  have hidle : ∀ v, s.gc.pc v ≠ .working → k.pc v = .idle := by
    intro v hv
    have hvidle := hi.idle v hv
    have hvt : v ≠ t := by
      rintro rfl
      simp [LockFreeStack.step, LockFreeStack.exec, hvidle] at hk
    rw [hpc v hvt, hvidle]
  rcases LockFreeStack.core_exec hk with hcore | ⟨b, hb, hcore⟩
  · have hp : State.places { s with stack := k } l = s.places l := by
      show Sum.elim (Stacks.places [] k.core.view l) s.gc.holds = _
      rw [hcore]
      rfl
    refine ⟨l, ?_, ?_, ?_, hidle, hi.registered, hi.timely, ?_⟩
    · show Treiber k.core l
      exact hcore ▸ hi.chain
    · exact hp ▸ hi.custody
    · exact hp ▸ hi.live
    · show ∀ w n, (k.core.view w).holds = some n → n ∈ l ∨ (∃ v, k.core.view v = .popped (some n)) ∨ _
      rw [hcore]
      exact hi.safe
  · obtain ⟨hnone, a, hview, he⟩ := hi.chain.effect hcore hb
    have hfresh : Stacks.Fresh s.stack.core b := by
      cases b <;> first | exact trivial | cases hb
    have hm : Moves (s.places l) (State.places { s with stack := k } (s.stack.core.after l b)) [] := by
      show Moves (s.places l) (Sum.elim (Stacks.places [] k.core.view _) s.gc.holds) []
      rw [hview]
      exact he.moves.inl
    refine ⟨_, hi.chain.step hfresh hcore, hm.custody hi.custody, ?_, hidle, hi.registered, hi.timely, ?_⟩
    · intro q n hn
      obtain ⟨q', hq'⟩ := hm.mem_iff.mpr (.inr ⟨q, hn⟩)
      exact hi.live q' n hq'
    · intro w n hw
      have hkview : ∀ v, k.core.view v = Function.update s.stack.core.view t a v := congrFun hview
      have hkeep : ∀ m, Safe s l w m → Safe { s with stack := k } (s.stack.core.after l b) w m := by
        rintro m (hl | ⟨v, hv⟩ | hshield)
        · rcases he.mem hl with hl | rfl
          · exact .inl hl
          · exact .inr (.inl ⟨t, (hkview t).trans (Function.update_self ..)⟩)
        · have hvt : v ≠ t := by
            rintro rfl
            rw [hv] at hnone
            cases hnone
          exact .inr (.inl ⟨v, (hkview v).trans ((Function.update_of_ne hvt ..).trans hv)⟩)
        · exact .inr (.inr hshield)
      rw [show ({ s with stack := k } : State T N).stack.core.view w = _ from hkview w] at hw
      by_cases hwt : w = t
      · subst hwt
        rw [Function.update_self] at hw
        rcases he.holds hw with hheld | hl
        · exact hkeep n (hi.safe w n hheld)
        · exact .inl hl
      · rw [Function.update_of_ne hwt] at hw
        exact hkeep n (hi.safe w n hw)

end Exec

/-! ### Runs -/

section Runs
variable {s u : State T N} {l : List N} {w : T} {n : N} {c : Action T N} {h k : List (Event T N)}

/-- Every steady action keeps what protects the nodes. -/
theorem Inv.step (hi : Inv s l) (hc : Steady s c) (hu : GracePeriod.step s c = some u) : ∃ l', Inv u l' := by
  cases c with
  | gc t =>
    simp only [GracePeriod.step, Option.map_eq_some_iff] at hu
    obtain ⟨⟨g, d⟩, hg, rfl⟩ := hu
    exact ⟨l, hi.gc_step hc hg⟩
  | alloc t fresh =>
    simp only [GracePeriod.step] at hu
    split at hu
    · rename_i hp
      split at hu
      · rename_i n hn
        cases hu
        have hclean : n ∈ s.places l (.inr (.clean t)) := by
          show n ∈ (s.gc.gcn t).cleanList.elems
          rw [CircularBuffer.elems_eq_cons hn]
          exact List.mem_cons_self
        have hm : Moves (s.places l) (State.places ⟨s.clear n, (s.gc.alloc t fresh).1, s.live⟩ l) [] :=
          (GarbageCollector.alloc_moves (by rw [hp.1]; rfl) hn).inr
        refine ⟨l, hi.alloc_step hp.1 hp.2 (hi.spare_of_clean hclean) (hm.custody hi.custody) ?_⟩
        intro q m hmem
        obtain ⟨q', hq'⟩ := hm.mem_iff.mpr (.inr ⟨q, hmem⟩)
        exact hi.live q' m hq'
      · rename_i hn
        split at hu <;> cases hu
        rename_i hfresh
        obtain ⟨hhand, hrest⟩ := GarbageCollector.alloc_fresh fresh hn
        let u : State T N := ⟨s.clear fresh, (s.gc.alloc t fresh).1, fresh :: s.live⟩
        have hj : (u.places l (.inr (.hand t))).Perm (fresh :: s.places l (.inr (.hand t))) := by
          show ((s.gc.alloc t fresh).1.holds (.hand t)).Perm (fresh :: s.gc.holds (.hand t))
          rw [hhand, GarbageCollector.hand_nil (by rw [hp.1]; rfl)]
        have hk : ∀ q, q ≠ .inr (.hand t) → u.places l q = s.places l q := by
          rintro (q | q) hq
          · rfl
          · exact hrest q fun h => hq (h ▸ rfl)
        have hnot : ∀ q, fresh ∉ s.places l q := fun q hm => hfresh (hi.live q fresh hm)
        refine ⟨l, hi.alloc_step hp.1 hp.2 (hi.spare_of_new hfresh) (hi.custody.enter hnot hj hk) ?_⟩
        intro q m hmem
        rcases (Custody.mem_enter hj hk).mp ⟨q, hmem⟩ with rfl | ⟨q', hq'⟩
        · exact List.mem_cons_self
        · exact List.mem_cons_of_mem _ (hi.live q' m hq')
    · cases hu
  | push t =>
    simp only [GracePeriod.step] at hu
    split at hu
    · rename_i n hp
      rw [Option.map_eq_some_iff] at hu
      obtain ⟨k, hk, rfl⟩ := hu
      exact ⟨l, hi.push_step hp hk⟩
    · cases hu
  | pop t =>
    simp only [GracePeriod.step, Option.ite_none_right_eq_some, Option.map_eq_some_iff] at hu
    obtain ⟨hp, k, hk, rfl⟩ := hu
    exact ⟨l, hi.pop_step hp hk⟩
  | exec t =>
    simp only [GracePeriod.step, Option.map_eq_some_iff] at hu
    obtain ⟨k, hk, rfl⟩ := hu
    exact hi.exec_step hk
  | ret t =>
    simp only [GracePeriod.step, Option.map_eq_some_iff] at hu
    obtain ⟨k, hk, rfl⟩ := hu
    exact ⟨l, hi.ret_step hk⟩
  | dereg t =>
    simp only [GracePeriod.step, Option.ite_none_right_eq_some, Option.some.injEq] at hu
    obtain ⟨hp, rfl⟩ := hu
    exact ⟨l, hi.dereg_step hp.1 hp.2⟩

omit [DecidableEq T] [DecidableEq N] in
theorem holding_iff : Holding s w n ↔ (s.stack.core.view w).holds = some n := by
  show Holding s w n ↔ (s.stack.pc w).view.holds = some n
  unfold Holding
  cases s.stack.pc w <;> simp [LockFreeStack.Pc.view, View.holds]

omit [DecidableEq T] [DecidableEq N] in
theorem Holding.of_pc (hw : Holding u w n) (hpc : u.stack.pc w = s.stack.pc w) : Holding s w n := by
  unfold Holding at hw ⊢
  rwa [hpc] at hw

/-- A call does not begin with a node in hand. -/
theorem not_holding_call {k : LockFreeStack.State T N} {g : GarbageCollector T N} {t : T} {op : Op N}
    (hk : LockFreeStack.step s.stack (.call t op) = some k)
    (hw : Holding { s with stack := k, gc := g } w n) : Holding s w n := by
  by_cases hwt : w = t
  · subst hwt
    obtain ⟨-, hcore⟩ := LockFreeStack.core_call hk
    have hview : k.core.view w = .enter op := by
      rw [hcore]
      exact Function.update_self ..
    have hheld : (k.core.view w).holds = some n := holding_iff.mp hw
    rw [hview] at hheld
    cases op <;> cases hheld
  · exact hw.of_pc (LockFreeStack.step_pc_of_ne hk hwt)

theorem exec_holding {k : LockFreeStack.State T N} (hk : LockFreeStack.step s.stack (.exec w) = some k)
    (hw : Holding { s with stack := k } w n) : Holding s w n ∨ shows s (.exec w) = [.loaded w n] := by
  have hself : ∀ p, Function.update s.stack.pc w p w = p := fun p => Function.update_self ..
  cases hp : s.stack.pc w with
  | popLoad =>
    simp only [LockFreeStack.step, LockFreeStack.exec, hp] at hk
    split at hk <;> cases hk <;> rename_i hn <;> simp only [Holding, LockFreeStack.State.goto, hself] at hw
    · rcases hw with hw | ⟨x, hw⟩ <;> cases hw
    · rcases hw with hw | ⟨x, hw⟩ <;> cases hw
      right
      simp only [shows, hp, hn]
  | popNext m =>
    simp only [LockFreeStack.step, LockFreeStack.exec, hp, Option.some.injEq] at hk
    subst hk
    simp only [Holding, LockFreeStack.State.goto, hself] at hw
    rcases hw with hw | ⟨x, hw⟩ <;> cases hw
    exact .inl (.inl hp)
  | _ =>
    simp only [LockFreeStack.step, LockFreeStack.exec, hp] at hk
    repeat' split at hk
    all_goals cases hk
    all_goals simp only [Holding, LockFreeStack.State.goto, hself] at hw
    all_goals rcases hw with hw | ⟨x, hw⟩ <;> cases hw

/-- A pop that holds a node held it before or has just read it. -/
theorem holding_step (hu : step s c = some u) (hw : Holding u w n) :
    Holding s w n ∨ shows s c = [.loaded w n] := by
  cases c with
  | gc t =>
    simp only [step, Option.map_eq_some_iff] at hu
    obtain ⟨r, -, rfl⟩ := hu
    exact .inl hw
  | alloc t fresh =>
    simp only [step] at hu
    repeat' split at hu
    all_goals cases hu
    all_goals exact .inl hw
  | dereg t =>
    simp only [step, Option.ite_none_right_eq_some, Option.some.injEq] at hu
    obtain ⟨-, rfl⟩ := hu
    exact .inl hw
  | push t =>
    simp only [step] at hu
    split at hu
    · rw [Option.map_eq_some_iff] at hu
      obtain ⟨k, hk, rfl⟩ := hu
      exact .inl (not_holding_call hk hw)
    · cases hu
  | pop t =>
    simp only [step, Option.ite_none_right_eq_some, Option.map_eq_some_iff] at hu
    obtain ⟨-, k, hk, rfl⟩ := hu
    exact .inl (not_holding_call hk hw)
  | ret t =>
    simp only [step, Option.map_eq_some_iff] at hu
    obtain ⟨k, hk, rfl⟩ := hu
    by_cases hwt : w = t
    · subst hwt
      obtain ⟨r, -, hcore⟩ := LockFreeStack.core_ret hk
      have hview : k.core.view w = .idle := by
        rw [hcore]
        exact Function.update_self ..
      have hheld : (k.core.view w).holds = some n := holding_iff.mp hw
      rw [hview] at hheld
      cases hheld
    · exact .inl (hw.of_pc (LockFreeStack.step_pc_of_ne hk hwt))
  | exec t =>
    simp only [step, Option.map_eq_some_iff] at hu
    obtain ⟨k, hk, rfl⟩ := hu
    by_cases hwt : w = t
    · subst hwt
      exact exec_holding hk hw
    · exact .inl (hw.of_pc (LockFreeStack.step_pc_of_ne hk hwt))

/-- What a pop holds is not deleted, nor handed out, and the pop does not read the head. -/
theorem Inv.quiet (hi : Inv s l) (hc : Steady s c) (hu : GracePeriod.step s c = some u)
    (hw : Holding s w n) :
    .deleted n ∉ shows s c ∧ .allocated n ∉ shows s c ∧ ∀ m, .loaded w m ∉ shows s c := by
  have hheld := holding_iff.mp hw
  cases c with
  | gc t =>
    simp only [GracePeriod.step, Option.map_eq_some_iff] at hu
    obtain ⟨⟨g, d⟩, hg, rfl⟩ := hu
    have hshow : shows s (.gc t) = d.map .deleted := by simp only [shows, hg, Option.map_some, Option.getD_some]
    rw [hshow]
    refine ⟨?_, by simp, by simp⟩
    rw [List.mem_map_of_injective fun _ _ h => Event.deleted.inj h]
    intro hd
    obtain ⟨p, hp, -⟩ := ((hi.gc_step hc hg).safe w n hheld).place
    exact (Inv.gc_moves hg).left hi.custody hd p hp
  | alloc t fresh =>
    have hspare : Spare s l (s.gc.alloc t fresh).2 := by
      simp only [GracePeriod.step] at hu
      split at hu
      · split at hu
        · rename_i m hm
          refine hi.spare_of_clean (t := t) ?_
          show (s.gc.alloc t fresh).2 ∈ (s.gc.gcn t).cleanList.elems
          simp only [GarbageCollector.alloc, hm]
          rw [CircularBuffer.elems_eq_cons hm]
          exact List.mem_cons_self
        · rename_i hm
          split at hu <;> cases hu
          rename_i hfresh
          simp only [GarbageCollector.alloc, hm]
          exact hi.spare_of_new hfresh
      · cases hu
    refine ⟨by simp [shows], ?_, by simp [shows]⟩
    show Event.allocated n ∉ [Event.allocated (s.gc.alloc t fresh).2]
    rw [List.mem_singleton, Event.allocated.injEq]
    rintro rfl
    exact (hspare.2 w).2 hheld
  | exec t =>
    have hpc : s.stack.pc w ≠ .popLoad := by
      intro hp
      rcases hw with hw | ⟨x, hw⟩ <;> rw [hp] at hw <;> cases hw
    simp only [shows]
    split
    · rename_i m hp hm
      refine ⟨by simp, by simp, fun m' => ?_⟩
      rw [List.mem_singleton, Event.loaded.injEq]
      rintro ⟨rfl, -⟩
      exact hpc hp
    · simp
  | push t | pop t | ret t | dereg t => simp [shows]

omit [DecidableEq T] [DecidableEq N] in
theorem Intact.append (hi : Intact h w n) (hd : .deleted n ∉ k) (ha : .allocated n ∉ k)
    (hl : ∀ m, .loaded w m ∉ k) : Intact (h ++ k) w n := by
  obtain ⟨h₁, h₂, rfl, hl₂, hd₂, ha₂⟩ := hi
  refine ⟨h₁, h₂ ++ k, List.append_assoc .., fun m => ?_, ?_, ?_⟩ <;> rw [List.mem_append, not_or]
  · exact ⟨hl₂ m, hl m⟩
  · exact ⟨hd₂, hd⟩
  · exact ⟨ha₂, ha⟩

end Runs

/-- In a steady run, a node that a pop has read from the head and has not tried to swap
out yet has neither been deleted nor handed out again since then. -/
theorem grace_period_of_steady {next : N → Option N} {gcnClock : T → ℕ} {nodeClock : N → ℕ}
    {h : List (Event T N)} {s : State T N}
    (hr : Run (testTwo T N) Steady (initial next gcnClock nodeClock) h s) :
    ∀ t n, Holding s t n → Intact h t n := by
  suffices (∃ l, Inv s l) ∧ ∀ t n, Holding s t n → Intact h t n from this.2
  refine hr.invariant (I := fun h s => (∃ l, Inv s l) ∧ ∀ t n, Holding s t n → Intact h t n)
    ⟨⟨[], .initial next gcnClock nodeClock⟩, ?_⟩ ?_
  · rintro t n (hp | ⟨x, hp⟩) <;> cases hp
  · rintro h s c u ⟨⟨l, hi⟩, hintact⟩ hc hu
    refine ⟨hi.step hc hu, fun t n ht => ?_⟩
    rcases holding_step hu ht with hs | hs
    · obtain ⟨hd, ha, hl⟩ := hi.quiet hc hu hs
      exact (hintact t n hs).append hd ha hl
    · refine ⟨h, [], ?_, by simp, by simp, by simp⟩
      show h ++ shows s c = _
      rw [hs]

/-- A pop has read a node when another worker pops and cleans it; the node becomes dirty. -/
theorem grace_period_of_steady_dirty : ∃ (h : List (Event (Fin 2) ℕ)) (s : State (Fin 2) ℕ),
    Run (testTwo (Fin 2) ℕ) Steady (initial (fun _ => none) (fun _ => 0) fun _ => 0) h s ∧
      s.stack.pc 0 = .popNext 0 ∧ (s.gc.gcn 1).dirtyList.elems = [0] ∧ Intact h 0 0 := by
  obtain ⟨h, s, hr, ht⟩ := exists_run_of_exec (P := testTwo (Fin 2) ℕ) (C := Steady)
    (s := initial (fun _ => none) (fun _ => 0) fun _ => 0)
    (List.append [.gc 0, .gc 0, .gc 0, .gc 1, .gc 1, .gc 1,
      .alloc 0 0, .push 0, .exec 0, .exec 0, .exec 0, .ret 0,
      .pop 0, .exec 0, .exec 0, .pop 1, .exec 1, .exec 1, .exec 1, .exec 1, .ret 1]
      (List.replicate 12 (.gc 1)))
    (fun _ s => s.stack.pc 0 == .popNext 0 && (s.gc.gcn 1).dirtyList.elems == [0]) (by decide +kernel)
  simp only [Bool.and_eq_true, beq_iff_eq] at ht
  exact ⟨h, s, hr, ht.1, ht.2, grace_period_of_steady hr 0 0 (.inl ht.1)⟩

/-- `getminclock` finds the clock of a third worker below the minimum, which is the clock of
the pop, and then reads a new clock of the third worker; the caller takes its own clock
for the least one and deletes the node that the pop still holds. -/
theorem grace_period_second_read : ∃ (h : List (Event (Fin 3) ℕ)) (s : State (Fin 3) ℕ),
    Run (testTwo (Fin 3) ℕ) Free (initial (fun _ => none) (fun _ => 0) fun _ => 0) h s ∧
      Holding s 0 1 ∧ ¬ Intact h 0 1 := by
  obtain ⟨h, s, hr, ht⟩ := exists_run_of_exec (P := testTwo (Fin 3) ℕ) (C := Free)
    (s := initial (fun _ => none) (fun _ => 0) fun _ => 0)
    -- the third worker has the oldest clock and registers second
    [.gc 1, .gc 0, .gc 0, .gc 0, .gc 1, .gc 1, .gc 2, .gc 2, .gc 2,
      .alloc 0 0, .push 0, .exec 0, .exec 0, .exec 0, .ret 0,
      .alloc 0 1, .push 0, .exec 0, .exec 0, .exec 0, .ret 0,
      -- the pop reads node 1, the others pop both nodes
      .pop 0, .exec 0, .exec 0,
      .pop 2, .exec 2, .exec 2, .exec 2, .exec 2, .ret 2,
      .pop 1, .exec 1, .exec 1, .exec 1, .exec 1, .ret 1,
      -- the clock of the third worker changes between the two reads
      .gc 2, .gc 2, .gc 2, .gc 2, .gc 2, .gc 2, .gc 1, .gc 1,
      .gc 2, .gc 2, .gc 2, .gc 2, .gc 2, .gc 2]
    (fun h s => s.stack.pc 0 == .popNext 1 && h.getLast? == some (.deleted 1)) (by decide +kernel)
  simp only [Bool.and_eq_true, beq_iff_eq] at ht
  refine ⟨h, s, hr, .inl ht.1, ?_⟩
  rintro ⟨h₁, h₂, rfl, -, hdeleted, -⟩
  have hmem := List.mem_of_getLast? (List.getLast?_append_cons h₁ (.loaded 0 1) h₂ ▸ ht.2)
  rcases List.mem_cons.mp hmem with he | hmem
  · cases he
  · exact hdeleted hmem

end Multicore.Reclaim.GracePeriod
