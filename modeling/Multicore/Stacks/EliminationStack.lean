import Multicore.Exchange.Exchanger
import Multicore.Stacks.Ownership

/-! `EliminationStack` of project 3. `push` and `pop` first try the lock-free stack; one
that loses visits a random exchanger of the elimination array, where a push and a pop
may settle directly. A push takes the null pointer it gets there for the word of a pop,
and anything else for the node it has to push from now on; a pop takes a node for its
result. `visit` answers a timeout with the caller's own item. -/

namespace Multicore.Stacks.EliminationStack

open Runs Exchange

/-- `min` of `Exchanger.cpp` -/
def EliminationArray.min (left right : UInt32) : UInt32 := if left ≤ right then left else right

/-- Where a thread stands in `push`, with `trypush`, in `pop`, with `trypop`, or in the
`visit` of either, with `exchange`. `visit` has the node of a `push` or the null pointer of
a `pop`. -/
inductive Pc
  | idle
  | pushLoad (n : Node) (range : UInt32) | pushStore (n : Node) (range : UInt32) (x : Option Node)
  | pushCas (n : Node) (range : UInt32) (x : Option Node) | pushRet
  | popTest | popLoad (range : UInt32) | popNext (range : UInt32) (n : Node)
  | popCas (range : UInt32) (n : Node) (x : Option Node) | popRet (r : Option Node)
  | visit (n : Option Node) (range : UInt32)
  | exchange (n : Option Node) (range : UInt32) (slot : ℕ) (x : Exchange.Pc)
  deriving DecidableEq

/-- The chain of the stack, the words of the exchangers, and the threads. -/
structure State (T : Type*) where
  headNext : Option Node
  next : Node → Option Node
  exchanger : ℕ → UInt64
  pc : T → Pc

/-- A thread calls, takes a step, or returns. A step draws a slot where it needs one and
reads the clock where it tests it. -/
inductive Action (T : Type*)
  | call (t : T) (op : Op Node) | exec (t : T) (slot : ℕ) (late : Bool) | ret (t : T)

variable {T : Type*} [DecidableEq T]

def State.goto (s : State T) (t : T) (p : Pc) : State T :=
  { s with pc := Function.update s.pc t p }

@[simp] theorem goto_pc_self (s : State T) (t : T) (p : Pc) : (s.goto t p).pc t = p :=
  Function.update_self ..

@[simp] theorem goto_goto (s : State T) (t : T) (p q : Pc) : (s.goto t p).goto t q = s.goto t q := by
  simp only [State.goto, Function.update_idem]

/-- What `push` or `pop` does with the answer of `visit`, after `range *= 2`. -/
def afterVisit (n : Option Node) (range : UInt32) (other : Option Node) : Pc :=
  match n, other with
  | some _, none => .pushRet
  | some _, some other => .pushLoad other (range * 2)
  | none, some r => .popRet (some r)
  | none, none => .popLoad (range * 2)

def exec (maxrange : UInt32) (s : State T) (t : T) (slot : ℕ) (late : Bool) : Option (State T) :=
  match s.pc t with
  | .pushLoad n g => some (s.goto t (.pushStore n g s.headNext))
  | .pushStore n g x => some { s.goto t (.pushCas n g x) with next := Function.update s.next n x }
  | .pushCas n g x =>
    if s.headNext = x then some { s.goto t .pushRet with headNext := some n }
    else some (s.goto t (.visit (some n) g))
  | .popTest =>
    match s.headNext with
    | none => some (s.goto t (.popRet none))
    | some _ => some (s.goto t (.popLoad 2))
  | .popLoad g =>
    match s.headNext with
    | none => some (s.goto t (.visit none g))
    | some n => some (s.goto t (.popNext g n))
  | .popNext g n => some (s.goto t (.popCas g n (s.next n)))
  | .popCas g n x =>
    if s.headNext = some n then some { s.goto t (.popRet (some n)) with headNext := x }
    else some (s.goto t (.popLoad g))
  -- the slot is drawn from `0` to `min(range, maxrange)`, and has to be inside the array
  | .visit n g =>
    if slot ≤ (EliminationArray.min g maxrange).toNat ∧ slot < maxrange.toNat then
      some (s.goto t (.exchange n g slot (.top n)))
    else none
  | .exchange n g _ (.returned otheritem) => some (s.goto t (afterVisit n g otheritem))
  | .exchange n g _ .threw => some (s.goto t (afterVisit n g n))
  | .exchange n g i x => (Exchange.exchange (s.exchanger i) late x).map fun r =>
      { s.goto t (.exchange n g i r.2) with exchanger := Function.update s.exchanger i r.1 }
  | .idle | .pushRet | .popRet _ => none

def Pc.enter : Op Node → Pc
  | .push n => .pushLoad n 2
  | .pop => .popTest

/-- The value that a thread is about to return. -/
def Pc.result : Pc → Option (Res Node)
  | .pushRet => some .pushed
  | .popRet r => some (.popped r)
  | _ => none

def step (maxrange : UInt32) (s : State T) : Action T → Option (State T)
  | .call t op => if s.pc t = .idle then some (s.goto t (.enter op)) else none
  | .exec t slot late => exec maxrange s t slot late
  | .ret t => (s.pc t).result.map fun _ => s.goto t .idle

def shows (s : State T) : Action T → List (Event T (Op Node) (Res Node))
  | .call t op => [.call t op]
  | .exec _ _ _ => []
  | .ret t => ((s.pc t).result.map (Event.ret t)).toList

/-- The stack over an array of `maxrange` exchangers; `EliminationStack` has 100. -/
def eliminationStack (maxrange : UInt32) :
    Program (State T) (Action T) (Event T (Op Node) (Res Node)) := ⟨step maxrange, shows⟩

def initial (next : Node → Option Node) : State T := ⟨none, next, fun _ => 0, fun _ => .idle⟩

/-! ### The exchangers -/

/-- Where a thread stands in the exchanger `i`. -/
def Pc.at (i : ℕ) : Pc → Exchange.Pc
  | .exchange _ _ j x => if j = i then x else .idle
  | _ => .idle

/-- The call of `exchange` is for the item `n`. -/
def Carries (n : Option Node) : Exchange.Pc → Prop
  | .top m | .get1 m | .get2 m _ | .casEmpty m _ | .casWaiting m _ | .wait m | .waitGet1 m
  | .waitGet2 m _ | .cancel m | .lastGet1 m | .lastGet2 m | .reset m _ => m = n
  | .returned _ | .threw => True
  | .idle => False

/-- The exchangers work, and each is called for the item of its caller. -/
structure Inv (s : State T) : Prop where
  slot : ∀ i, SlotInv (s.exchanger i) fun t => (s.pc t).at i
  carries : ∀ t n g i x, s.pc t = .exchange n g i x → Carries n x

omit [DecidableEq T] in
theorem Inv.initial (next : Node → Option Node) : Inv (initial next : State T) :=
  ⟨fun _ => .initial, nofun⟩

theorem Carries.exchange {n : Option Node} {x : Exchange.Pc} {data : UInt64} {late : Bool}
    {r : UInt64 × Exchange.Pc} (hc : Carries n x) (he : Exchange.exchange data late x = some r) :
    Carries n r.2 := by
  cases x <;> simp only [Exchange.exchange] at he
  all_goals repeat' split at he
  all_goals cases he
  all_goals first | exact hc | trivial

omit [DecidableEq T] in
theorem Carries.offering {n m : Option Node} {x : Exchange.Pc} {data : UInt64} (hc : Carries n x)
    (hs : stage data x = .offering m) : m = n := by
  cases x <;> simp only [stage] at hs
  all_goals repeat' split at hs
  all_goals cases hs
  all_goals exact hc

/-! ### The stack as a chain -/

/-- A call that has settled nothing yet. -/
def start : Option Node → View Node
  | some n => .placing n
  | none => .searching

/-- A call for `n` that is owed `r`. -/
def settled : Option Node → Option Node → View Node
  | some _, none => .pushed
  | some _, some r => .placing r
  | none, some r => .popped (some r)
  | none, none => .searching

/-- How far a visit for `n` has come when its exchange is at this stage. -/
def visiting (n : Option Node) : Stage (Option Node) → View Node
  | .owed r => settled n r
  | _ => start n

def Pc.view (exchanger : ℕ → UInt64) : Pc → View Node
  | .idle => .idle
  | .pushLoad n _ | .pushStore n _ _ => .placing n
  | .pushCas n _ x => .linked n x
  | .pushRet => .pushed
  | .popTest | .popLoad _ => .searching
  | .popNext _ n => .loaded n
  | .popCas _ n x => .ready n x
  | .popRet r => .popped r
  | .visit n _ => start n
  | .exchange n _ i x => visiting n (stage (exchanger i) x)

def State.core (s : State T) : Core T Node :=
  ⟨s.headNext, s.next, fun t => (s.pc t).view s.exchanger⟩

/-- A push is about to take the node of another push out of an exchanger. -/
def trades (s : State T) : Action T → Bool
  | .exec t _ _ => match s.pc t with
    | .exchange (some _) _ i (.casWaiting _ (some m)) => s.exchanger i == Slot.set (some m) .WAITING
    | _ => false
  | _ => false

/-- What a step does to the chain and its threads: nothing, or one action of the core,
which is a trade only if the step trades. -/
inductive Follows (s : State T) (a : Action T) (u : State T) : Prop
  | silent : shows s a = [] → u.core = s.core → Follows s a u
  | act (b : Core.Act T Node) : s.core.step b = some u.core → s.core.shows b = shows s a →
      (trades s a = false → NoTrade s.core b) → Follows s a u

section Core
variable {maxrange : UInt32} {s u : State T} {t : T} {p : Pc} {a : Action T} {slot : ℕ} {late : Bool}

theorem core_eq (hu : u.pc = Function.update s.pc t p) (he : u.exchanger = s.exchanger) :
    u.core = ⟨u.headNext, u.next, Function.update s.core.view t (p.view s.exchanger)⟩ := by
  unfold State.core
  rw [hu, he]
  exact congrArg (Core.mk u.headNext u.next) (Function.comp_update (Pc.view s.exchanger) s.pc t p)

/-- A step that the chain and its threads do not see. -/
theorem follows_silent (hu : u.pc = Function.update s.pc t p) (he : u.exchanger = s.exchanger)
    (hh : u.headNext = s.headNext) (hn : u.next = s.next) (hs : shows s a = [])
    (hp : p.view s.exchanger = (s.pc t).view s.exchanger) : Follows s a u := by
  refine .silent hs ?_
  rw [core_eq hu he, hh, hn, hp]
  exact congrArg (Core.mk s.headNext s.next) (Function.update_eq_self t s.core.view)

/-- A step that is an action of the core. -/
theorem follows_act {b : Core.Act T Node} (hu : u.pc = Function.update s.pc t p)
    (he : u.exchanger = s.exchanger) (hs : s.core.shows b = shows s a) (hn : NoTrade s.core b)
    (hb : s.core.step b = some ⟨u.headNext, u.next,
      Function.update s.core.view t (p.view s.exchanger)⟩) : Follows s a u :=
  .act b (by rw [hb, core_eq hu he]) hs fun _ => hn

theorem afterVisit_view (exchanger : ℕ → UInt64) (n other : Option Node) (g : UInt32) :
    (afterVisit n g other).view exchanger = settled n other := by
  cases n <;> cases other <;> rfl

theorem settled_self (n : Option Node) : settled n n = start n := by cases n <;> rfl

/-- The state after a step inside the exchanger `i`. -/
def exchanged (s : State T) (t : T) (n : Option Node) (g : UInt32) (i : ℕ) (r : UInt64 × Exchange.Pc) :
    State T :=
  { s.goto t (.exchange n g i r.2) with exchanger := Function.update s.exchanger i r.1 }

section Exchanged
variable {n m : Option Node} {g g' : UInt32} {i j : ℕ} {x : Exchange.Pc} {r : UInt64 × Exchange.Pc} {w : T}

theorem at_exchanged (s : State T) (t : T) (n : Option Node) (g : UInt32) (i : ℕ)
    (r : UInt64 × Exchange.Pc) : (fun w => ((exchanged s t n g i r).pc w).at i) =
      Function.update (fun w => (s.pc w).at i) t r.2 := by
  have h := Function.comp_update (Pc.at i) s.pc t (.exchange n g i r.2)
  rw [show (Pc.exchange n g i r.2).at i = r.2 from if_pos rfl] at h
  exact h

theorem at_exchanged_of_ne (ht : s.pc t = .exchange n g i x) (hj : j ≠ i) :
    (fun w => ((exchanged s t n g i r).pc w).at j) = fun w => (s.pc w).at j := by
  funext w
  by_cases hw : w = t
  · subst hw
    rw [show (exchanged s w n g i r).pc w = .exchange n g i r.2 from Function.update_self .., ht]
    simp only [Pc.at, if_neg hj.symm]
  · rw [show (exchanged s t n g i r).pc w = s.pc w from Function.update_of_ne hw ..]

theorem Inv.exchanged (hi : Inv s) (ht : s.pc t = .exchange n g i x)
    (hr : Exchange.exchange (s.exchanger i) late x = some r) : Inv (exchanged s t n g i r) := by
  have hx : (fun w => (s.pc w).at i) t = x := by simp only [ht, Pc.at, if_true]
  refine ⟨fun j => ?_, fun w m g' j y hw => ?_⟩
  · by_cases hj : j = i
    · subst hj
      rw [at_exchanged, show (EliminationStack.exchanged s t n g j r).exchanger j = r.1 from
        Function.update_self ..]
      exact ((hi.slot j).exchange hx hr).1
    · rw [at_exchanged_of_ne ht hj, show (EliminationStack.exchanged s t n g i r).exchanger j =
        s.exchanger j from Function.update_of_ne hj ..]
      exact hi.slot j
  · by_cases hwt : w = t
    · subst hwt
      rw [show (EliminationStack.exchanged s w n g i r).pc w = .exchange n g i r.2 from
        Function.update_self ..] at hw
      cases hw
      exact (hi.carries w n g i x ht).exchange hr
    · rw [show (EliminationStack.exchanged s t n g i r).pc w = s.pc w from
        Function.update_of_ne hwt ..] at hw
      exact hi.carries w m g' j y hw

/-- The stages of the visitors of the exchanger `i`. -/
def State.stages (s : State T) (i : ℕ) : T → Stage (Option Node) :=
  Exchange.stages (s.exchanger i) fun w => (s.pc w).at i

omit [DecidableEq T] in
theorem view_of_visit (hw : s.pc w = .exchange m g' i x) : s.core.view w = visiting m (s.stages i w) := by
  simp only [State.core, State.stages, Exchange.stages, hw, Pc.view, Pc.at, if_true]

theorem view_exchanged (ht : s.pc t = .exchange n g i x) {y : Exchange.Pc}
    (hw : s.pc w = .exchange m g' i y) : (exchanged s t n g i r).core.view w =
      visiting m ((exchanged s t n g i r).stages i w) := by
  by_cases hwt : w = t
  · subst hwt
    rw [ht] at hw
    cases hw
    have hself : (exchanged s w n g i r).pc w = .exchange n g i r.2 := Function.update_self ..
    exact view_of_visit hself
  · have hother : (exchanged s t n g i r).pc w = .exchange m g' i y :=
      (Function.update_of_ne hwt ..).trans hw
    exact view_of_visit hother

/-- A step in the exchanger `i` shows only in the stages of its visitors. -/
theorem view_exchanged_of_eq (ht : s.pc t = .exchange n g i x)
    (hw : (exchanged s t n g i r).stages i w = s.stages i w) :
    (exchanged s t n g i r).core.view w = s.core.view w := by
  by_cases hv : ∃ m g' y, s.pc w = .exchange m g' i y
  · obtain ⟨m, g', y, hp⟩ := hv
    rw [view_exchanged ht hp, hw, view_of_visit hp]
  · have hwt : w ≠ t := fun h => hv ⟨n, g, x, h ▸ ht⟩
    have hpc : (exchanged s t n g i r).pc w = s.pc w := Function.update_of_ne hwt ..
    cases hp : s.pc w with
    | exchange m g' j y =>
      have hj : j ≠ i := fun h => hv ⟨m, g', y, h ▸ hp⟩
      have he : (exchanged s t n g i r).exchanger j = s.exchanger j := Function.update_of_ne hj ..
      simp only [State.core, hpc, hp, Pc.view, he]
    | _ => simp only [State.core, hpc, hp, Pc.view]

omit [DecidableEq T] in
/-- Whoever stands at a stage in the exchanger `i` visits it, and offers its own item. -/
theorem Inv.visitor (hi : Inv s) (hw : s.stages i w = .offering m) :
    ∃ g' y, s.pc w = .exchange m g' i y := by
  cases hp : s.pc w with
  | exchange k g' j y =>
    simp only [State.stages, Exchange.stages, hp, Pc.at] at hw
    split at hw
    · rename_i hj
      rw [(hi.carries w k g' j y hp).offering hw]
      exact ⟨g', y, hj ▸ rfl⟩
    · cases hw
  | _ =>
    simp only [State.stages, Exchange.stages, hp, Pc.at] at hw
    cases hw

theorem exchanged_follows (hi : Inv s) (ht : s.pc t = .exchange n g i x)
    (hr : Exchange.exchange (s.exchanger i) late x = some r) :
    Follows s (.exec t slot late) (exchanged s t n g i r) := by
  have hx : (fun w => (s.pc w).at i) t = x := by simp only [ht, Pc.at, if_true]
  have hc : Change (s.exchanger i) x t (s.stages i) ((exchanged s t n g i r).stages i) := by
    rw [State.stages, State.stages, at_exchanged, show (exchanged s t n g i r).exchanger i = r.1 from
      Function.update_self ..]
    exact ((hi.slot i).exchange hx hr).2
  have hcore : ∀ {v}, (exchanged s t n g i r).core.view = v →
      (exchanged s t n g i r).core = ⟨s.headNext, s.next, v⟩ := fun h => h ▸ rfl
  generalize hv : (exchanged s t n g i r).stages i = v at hc
  cases hc with
  | silent => exact .silent rfl (hcore (funext fun w => view_exchanged_of_eq ht (by rw [hv])))
  | failed hty =>
    refine .silent rfl (hcore (funext fun w => ?_))
    by_cases hw : w = t
    · subst hw
      rw [view_exchanged ht ht, hv, Function.update_self]
      refine Eq.trans ?_ (view_of_visit ht).symm
      rw [hty]
      rfl
    · exact view_exchanged_of_eq ht (by rw [hv, Function.update_of_ne hw])
  | @met w k m n' htw hty hwy hpc hdata =>
    obtain ⟨g', y, hp⟩ := hi.visitor hwy
    obtain ⟨g'', y', hp'⟩ := hi.visitor hty
    obtain ⟨rfl, -⟩ : n = k ∧ _ := by simpa [ht] using hp'
    have hviewt : s.core.view t = start n := by
      rw [view_of_visit ht, hty]
      rfl
    have hvieww : s.core.view w = start m := by
      rw [view_of_visit hp, hwy]
      rfl
    have hu := hcore (v := Function.update (Function.update s.core.view t (settled n m)) w (settled m n)) <|
      funext fun z => by
        by_cases hzw : z = w
        · subst hzw
          rw [Function.update_self, view_exchanged ht hp, hv, meet, Function.update_self]
          rfl
        · rw [Function.update_of_ne hzw]
          by_cases hzt : z = t
          · subst hzt
            rw [Function.update_self, view_exchanged ht ht, hv, meet, Function.update_of_ne hzw,
              Function.update_self]
            rfl
          · rw [Function.update_of_ne hzt]
            exact view_exchanged_of_eq ht
              (by rw [hv, meet, Function.update_of_ne hzw, Function.update_of_ne hzt])
    rcases n with - | a <;> rcases m with - | b
    · -- two pops go on as they were
      refine .silent rfl (hu.trans (congrArg (Core.mk s.headNext s.next) ?_))
      rw [show settled none none = s.core.view t from hviewt.symm, Function.update_eq_self, hviewt,
        ← hvieww, Function.update_eq_self]
      rfl
    · -- a pop takes the node of a waiting push
      refine .act (.give w t) ?_ rfl fun _ => trivial
      simp only [Core.step, hviewt, hvieww, start, hu]
      exact congrArg (fun v => some (Core.mk s.headNext s.next v)) (Function.update_comm htw.symm _ _ _)
    · -- a push gives its node to a waiting pop
      refine .act (.give t w) ?_ rfl fun _ => trivial
      simp only [Core.step, hviewt, hvieww, start, hu]
      rfl
    · -- two pushes change nodes
      refine .act (.trade t w) ?_ rfl fun htrades => ?_
      · simp only [Core.step, hviewt, hvieww, start, hu]
        rfl
      · simp [trades, ht, hpc, hdata] at htrades

end Exchanged

theorem exec_follows (hi : Inv s) (hu : exec maxrange s t slot late = some u) :
    Follows s (.exec t slot late) u := by
  have hview : s.core.view t = (s.pc t).view s.exchanger := rfl
  cases hp : s.pc t with
  | idle | pushRet | popRet r => simp [exec, hp] at hu
  | pushLoad n g =>
    simp only [exec, hp, Option.some.injEq] at hu
    subst hu
    exact follows_silent rfl rfl rfl rfl rfl (by rw [hp]; rfl)
  | pushStore n g x =>
    simp only [exec, hp, Option.some.injEq] at hu
    subst hu
    exact follows_act (b := .store t x) rfl rfl rfl trivial (by simp only [Core.step, hview, hp]; rfl)
  | pushCas n g x =>
    simp only [exec, hp] at hu
    split at hu <;> rename_i hx <;> simp only [Option.some.injEq] at hu <;> subst hu
    · refine follows_act (b := .link t) rfl rfl rfl trivial ?_
      simp only [Core.step, hview, hp, Pc.view]
      exact if_pos hx
    · exact follows_act (b := .retry t) rfl rfl rfl trivial (by simp only [Core.step, hview, hp]; rfl)
  | popTest =>
    simp only [exec, hp] at hu
    split at hu <;> rename_i hx <;> simp only [Option.some.injEq] at hu <;> subst hu
    · have hh : s.core.head = none := hx
      refine follows_act (b := .empty t) rfl rfl rfl trivial ?_
      simp only [Core.step, hview, hp, hh]
      rfl
    · exact follows_silent rfl rfl rfl rfl rfl (by rw [hp]; rfl)
  | popLoad g =>
    simp only [exec, hp] at hu
    split at hu <;> rename_i hx <;> simp only [Option.some.injEq] at hu <;> subst hu
    · exact follows_silent rfl rfl rfl rfl rfl (by rw [hp]; rfl)
    · rename_i n
      have hh : s.core.head = some n := hx
      refine follows_act (b := .load t) rfl rfl rfl trivial ?_
      simp only [Core.step, hview, hp, hh]
      rfl
  | popNext g n =>
    simp only [exec, hp, Option.some.injEq] at hu
    subst hu
    exact follows_act (b := .read t) rfl rfl rfl trivial (by simp only [Core.step, hview, hp]; rfl)
  | popCas g n x =>
    simp only [exec, hp] at hu
    split at hu <;> rename_i hx <;> simp only [Option.some.injEq] at hu <;> subst hu
    · refine follows_act (b := .unlink t) rfl rfl rfl trivial ?_
      simp only [Core.step, hview, hp, Pc.view]
      exact if_pos hx
    · exact follows_act (b := .drop t) rfl rfl rfl trivial (by simp only [Core.step, hview, hp]; rfl)
  | visit n g =>
    simp only [exec, hp, Option.ite_none_right_eq_some, Option.some.injEq] at hu
    obtain ⟨-, rfl⟩ := hu
    exact follows_silent rfl rfl rfl rfl rfl (by rw [hp]; rfl)
  | exchange n g i x =>
    have hdone : ∀ other : Option Node, stage (s.exchanger i) x = .owed other ∨
        (stage (s.exchanger i) x = .failed ∧ other = n) →
        Follows s (.exec t slot late) (s.goto t (afterVisit n g other)) := by
      intro other ho
      refine follows_silent rfl rfl rfl rfl rfl ?_
      rw [afterVisit_view, hp]
      rcases ho with ho | ⟨ho, rfl⟩
      · simp only [Pc.view, ho, visiting]
      · simp only [Pc.view, ho, visiting, settled_self]
    cases x with
    | returned other =>
      simp only [exec, hp, Option.some.injEq] at hu
      subst hu
      exact hdone other (.inl rfl)
    | threw =>
      simp only [exec, hp, Option.some.injEq] at hu
      subst hu
      exact hdone n (.inr ⟨rfl, rfl⟩)
    | _ =>
      simp only [exec, hp, Option.map_eq_some_iff] at hu
      obtain ⟨r, hr, rfl⟩ := hu
      exact exchanged_follows hi hp hr

/-- Every step is followed by the core. -/
theorem step_follows (hi : Inv s) (hu : step maxrange s a = some u) : Follows s a u := by
  cases a with
  | call t op =>
    simp only [step, Option.ite_none_right_eq_some, Option.some.injEq] at hu
    obtain ⟨ht, rfl⟩ := hu
    have hview : s.core.view t = .idle := congrArg (Pc.view s.exchanger) ht
    refine follows_act (b := .call t op) rfl rfl rfl trivial ?_
    simp only [Core.step, hview]
    cases op <;> rfl
  | exec t slot late => exact exec_follows hi hu
  | ret t =>
    simp only [step, Option.map_eq_some_iff] at hu
    obtain ⟨r, hr, rfl⟩ := hu
    have hres : (s.core.view t).result = some r := by
      show ((s.pc t).view s.exchanger).result = some r
      cases hp : s.pc t <;> rw [hp] at hr <;> cases hr <;> rfl
    refine follows_act (b := .ret t) rfl rfl ?_ trivial ?_
    · simp only [shows, Core.shows, hr, hres]
    · simp only [Core.step, hres, Option.map_some]
      rfl

/-- The thread has nothing in any exchanger. -/
def Pc.Quiet (p : Pc) : Prop := ∀ i, ¬ (p.at i).Waits

theorem Inv.quiet (hi : Inv s) (hu : u.pc = Function.update s.pc t p) (he : u.exchanger = s.exchanger)
    (ht : (s.pc t).Quiet) (hp : p.Quiet) (hc : ∀ n g i x, p = .exchange n g i x → Carries n x) :
    Inv u := by
  refine ⟨fun i => ?_, fun w n g i x hw => ?_⟩
  · have hat : (fun w => (u.pc w).at i) = Function.update (fun w => (s.pc w).at i) t (p.at i) := by
      rw [hu]
      exact Function.comp_update (Pc.at i) s.pc t p
    rw [hat, he]
    exact (hi.slot i).move (iff_of_false (hp i) (ht i)) (Exchange.Pc.fits_of_not_waits (hp i))
  · rw [hu] at hw
    by_cases hwt : w = t
    · rw [hwt, Function.update_self] at hw
      exact hc n g i x hw
    · rw [Function.update_of_ne hwt] at hw
      exact hi.carries w n g i x hw

omit [DecidableEq T] in
theorem quiet_exchange {n : Option Node} {g : UInt32} {i : ℕ} {x : Exchange.Pc} (hx : ¬ x.Waits) :
    (Pc.exchange n g i x).Quiet := by
  intro j
  simp only [Pc.at]
  split
  · exact hx
  · exact id

omit [DecidableEq T] in
theorem quiet_afterVisit (n other : Option Node) (g : UInt32) : (afterVisit n g other).Quiet := by
  cases n <;> cases other <;> exact fun _ => id

theorem Inv.exec (hi : Inv s) (hu : exec maxrange s t slot late = some u) : Inv u := by
  cases hp : s.pc t with
  | idle | pushRet | popRet r => simp [EliminationStack.exec, hp] at hu
  | pushLoad n g | pushStore n g x | popNext g n =>
    simp only [EliminationStack.exec, hp, Option.some.injEq] at hu
    subst hu
    exact hi.quiet rfl rfl (hp ▸ fun _ => id) (fun _ => id) (by simp)
  | pushCas n g x | popTest | popLoad g | popCas g n x =>
    simp only [EliminationStack.exec, hp] at hu
    split at hu <;> simp only [Option.some.injEq] at hu <;> subst hu <;>
      exact hi.quiet rfl rfl (hp ▸ fun _ => id) (fun _ => id) (by simp)
  | visit n g =>
    simp only [EliminationStack.exec, hp, Option.ite_none_right_eq_some, Option.some.injEq] at hu
    obtain ⟨-, rfl⟩ := hu
    refine hi.quiet rfl rfl (hp ▸ fun _ => id) (quiet_exchange id) ?_
    rintro m g' i x ⟨⟩
    rfl
  | exchange n g i x =>
    have hdone : ∀ other : Option Node, ¬ x.Waits → Inv (s.goto t (afterVisit n g other)) := by
      intro other hx
      refine hi.quiet rfl rfl (hp ▸ quiet_exchange hx) (quiet_afterVisit n other g) ?_
      cases n <;> cases other <;> simp [afterVisit]
    cases x with
    | returned other =>
      simp only [EliminationStack.exec, hp, Option.some.injEq] at hu
      subst hu
      exact hdone other id
    | threw =>
      simp only [EliminationStack.exec, hp, Option.some.injEq] at hu
      subst hu
      exact hdone n id
    | _ =>
      simp only [EliminationStack.exec, hp, Option.map_eq_some_iff] at hu
      obtain ⟨r, hr, rfl⟩ := hu
      exact hi.exchanged hp hr

theorem Inv.step (hi : Inv s) (hu : step maxrange s a = some u) : Inv u := by
  cases a with
  | call t op =>
    simp only [EliminationStack.step, Option.ite_none_right_eq_some, Option.some.injEq] at hu
    obtain ⟨ht, rfl⟩ := hu
    cases op <;> exact hi.quiet rfl rfl (ht ▸ fun _ => id) (fun _ => id) (by simp [Pc.enter])
  | exec t slot late => exact hi.exec hu
  | ret t =>
    simp only [EliminationStack.step, Option.map_eq_some_iff] at hu
    obtain ⟨r, hr, rfl⟩ := hu
    refine hi.quiet rfl rfl ?_ (fun _ => id) (by simp)
    cases hp : s.pc t <;> rw [hp] at hr <;> cases hr <;> exact fun _ => id

/-- Every run is followed by the core, without trades if it makes none. -/
theorem run_core {C : Guard (State T) (Action T)} {E : Guard (Core T Node) (Core.Act T Node)}
    {next : Node → Option Node} {h : List (Event T (Op Node) (Res Node))}
    (hr : Run (eliminationStack maxrange) C (initial next) h s)
    (hE : ∀ s a b, C s a → (trades s a = false → NoTrade s.core b) → E s.core b) :
    Inv s ∧ Run (treiber T Node) E ⟨none, next, fun _ => .idle⟩ h s.core := by
  obtain ⟨c, hc, hi, rfl⟩ := hr.simulate (fun s c => Inv s ∧ c = s.core)
    ⟨Inv.initial next, rfl⟩ fun s a u c ⟨hi, hc⟩ hC hu => by
      refine ⟨u.core, ?_, hi.step hu, rfl⟩
      subst hc
      rcases step_follows hi hu with ⟨hs, he⟩ | ⟨b, hb, hs, hn⟩
      · show Run (treiber T Node) E s.core (shows s a) u.core
        rw [hs, he]
        exact .refl
      · show Run (treiber T Node) E s.core (shows s a) u.core
        rw [← hs]
        exact Run.single (P := treiber T Node) (hE s a b hC hn) hb
  exact ⟨hi, hc⟩

end Core

end Multicore.Stacks.EliminationStack
