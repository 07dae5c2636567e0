import Multicore.Stacks.EliminationStack
import Mathlib.Algebra.Order.Group.Nat

/-! A pop of the elimination stack that is left alone. The emptiness of the stack is
tested once, before the loop; from then on a pop that finds the chain empty visits the
array, where it may be answered only by its own null pointer, and tries again. Left
alone, it returns if the chain has a node, if it is still before its test, or if it has
met a push or is bound to; otherwise there is an execution in which it never does. -/

namespace Multicore.Stacks.EliminationStack

open Runs Exchange

/-! ### An exchange without company -/

/-- An exchange of a pop that is left alone gets a node: a push has met it, or waits in the
slot and will be met before the clock is read again. -/
def Gets (data : UInt64) : Exchange.Pc → Prop
  | .get1 _ => ∃ m, data = Slot.set (some m) .WAITING
  | .get2 _ state => state = some .WAITING ∧ ∃ m, data = Slot.set (some m) .WAITING
  | .casWaiting _ otheritem => ∃ m, otheritem = some m ∧ data = Slot.set (some m) .WAITING
  | .wait _ | .waitGet1 _ | .waitGet2 _ _ | .cancel _ | .lastGet1 _ | .lastGet2 _ | .reset _ _ =>
    ∃ m, data = Slot.set (some m) .BUSY
  | .returned otheritem => otheritem ≠ none
  | .idle | .top _ | .casEmpty _ _ | .threw => False

/-- How many steps an exchange takes at most once its time is up. -/
def stepsLeft : Exchange.Pc → ℕ
  | .idle | .returned _ | .threw => 0
  | .top _ | .reset _ _ => 1
  | .casWaiting _ _ | .lastGet2 _ => 2
  | .lastGet1 _ => 3
  | .cancel _ => 4
  | .wait _ => 5
  | .casEmpty _ _ | .waitGet2 _ _ => 6
  | .get2 _ _ | .waitGet1 _ => 7
  | .get1 _ => 8

section Exchanging
variable {data : UInt64} {late : Bool} {x : Exchange.Pc} {r : UInt64 × Exchange.Pc}

theorem stepsLeft_lt (he : Exchange.exchange data true x = some r) : stepsLeft r.2 < stepsLeft x := by
  cases x <;> simp only [Exchange.exchange, if_true] at he
  all_goals repeat' split at he
  all_goals cases he
  all_goals simp [stepsLeft]

/-- A step that does not pass the test of the clock does not change what the exchange gets. -/
theorem gets_iff (hc : Carries none x) (hf : x.Fits data) (hx : late = true ∨ ∀ n, x ≠ .top n)
    (he : Exchange.exchange data late x = some r) : Gets r.1 r.2 ↔ Gets data x := by
  have hother : ∀ {a b : Option Node} {p q : ExchangeState}, p ≠ q → Slot.set a p ≠ Slot.set b q :=
    fun hpq h => hpq (Slot.set_inj h).2
  cases x with
  | idle | returned m | threw => simp [Exchange.exchange] at he
  | top n =>
    obtain rfl := hx.resolve_right fun h => h n rfl
    cases he
    exact Iff.rfl
  | get1 n =>
    cases he
    refine ⟨And.right, fun h => ⟨?_, h⟩⟩
    obtain ⟨m, rfl⟩ := h
    exact Slot.getState_set ..
  | get2 n state =>
    cases he
    rcases state with - | - | - | -
    · exact iff_of_false id fun h => absurd h.1 (by decide)
    · exact iff_of_false id fun h => absurd h.1 (by decide)
    · refine ⟨fun h => ⟨rfl, h.imp fun m hm => hm.2⟩, fun h => h.2.imp fun m hm => ⟨?_, hm⟩⟩
      have hdata : data = Slot.set (some m) .WAITING := hm
      rw [hdata, Slot.getItem_set]
    · exact iff_of_false id fun h => absurd h.1 (by decide)
  | casEmpty n other =>
    simp only [Exchange.exchange, Slot.compareAndSet] at he
    obtain rfl : n = none := hc
    by_cases hd : data = Slot.set other .EMPTY
    · rw [if_pos hd] at he
      cases he
      exact iff_of_false (fun h => h.elim fun m hm => hother (by decide) hm) id
    · rw [if_neg hd] at he
      cases he
      exact Iff.rfl
  | casWaiting n other =>
    simp only [Exchange.exchange, Slot.compareAndSet] at he
    by_cases hd : data = Slot.set other .WAITING
    · rw [if_pos hd] at he
      cases he
      refine ⟨fun h => ?_, fun h => ?_⟩
      · obtain ⟨m, rfl⟩ := Option.ne_none_iff_exists'.mp h
        exact ⟨m, rfl, hd⟩
      · obtain ⟨m, rfl, -⟩ := h
        exact Option.some_ne_none m
    · rw [if_neg hd] at he
      cases he
      exact iff_of_false id fun h => h.elim fun m hm => hd (hm.1 ▸ hm.2)
  | wait n =>
    cases late <;> cases he <;> exact Iff.rfl
  | waitGet1 n | lastGet1 n | lastGet2 n =>
    cases he
    exact Iff.rfl
  | waitGet2 n state =>
    simp only [Exchange.exchange] at he
    split at he <;> cases he <;> exact Iff.rfl
  | cancel n =>
    simp only [Exchange.exchange, Slot.compareAndSet] at he
    by_cases hd : data = Slot.set n .WAITING
    · rw [if_pos hd] at he
      cases he
      exact iff_of_false id fun h => h.elim fun m hm => hother (by decide) (hd.symm.trans hm)
    · rw [if_neg hd] at he
      cases he
      exact Iff.rfl
  | reset n other =>
    cases he
    have hdata : data = Slot.set other .BUSY := hf
    refine ⟨fun h => ?_, fun h => ?_⟩
    · obtain ⟨m, rfl⟩ := Option.ne_none_iff_exists'.mp h
      exact ⟨m, hdata⟩
    · obtain ⟨m, h⟩ := h
      obtain rfl := (Slot.set_inj (hdata.symm.trans h)).1
      exact Option.some_ne_none m

end Exchanging

/-! ### A pop without company -/

/-- The thread is inside `pop`. -/
def Pc.Popping : Pc → Prop
  | .popTest | .popLoad _ | .popNext _ _ | .popCas _ _ _ | .popRet _ | .visit none _
  | .exchange none _ _ _ => True
  | _ => False

/-- The thread is inside `exchange`. -/
def Pc.Exchanging : Pc → Prop
  | .exchange _ _ _ _ => True
  | _ => False

variable {T : Type*} [DecidableEq T]

/-- An execution in which only `t` takes steps, until its call has a result, and the clock
lets each of its exchanges end. -/
structure Alone (maxrange : UInt32) (t : T) (f : ℕ → State T) : Prop where
  step : ∀ n, (∃ slot late, exec maxrange (f n) t slot late = some (f (n + 1))) ∨
    ((f n).pc t).result ≠ none ∧ f (n + 1) = f n
  ends : ∀ n, ∃ m, n ≤ m ∧ ¬ ((f m).pc t).Exchanging

section Step
variable {maxrange : UInt32} {s u : State T} {t : T} {slot : ℕ} {late : Bool} {g : UInt32} {i : ℕ}
  {x : Exchange.Pc}

/-- A step of a pop in its exchange: it leaves, or it takes a step there. -/
theorem exec_exchange (hp : s.pc t = .exchange none g i x) (hu : exec maxrange s t slot late = some u) :
    (∃ other, (x = .returned other ∨ x = .threw ∧ other = none) ∧
      u = s.goto t (afterVisit none g other)) ∨
    ∃ r, Exchange.exchange (s.exchanger i) late x = some r ∧ u = exchanged s t none g i r := by
  cases x with
  | returned other =>
    simp only [exec, hp, Option.some.injEq] at hu
    exact .inl ⟨other, .inl rfl, hu.symm⟩
  | threw =>
    simp only [exec, hp, Option.some.injEq] at hu
    exact .inl ⟨none, .inr ⟨rfl, rfl⟩, hu.symm⟩
  | _ =>
    simp only [exec, hp, Option.map_eq_some_iff] at hu
    obtain ⟨r, hr, rfl⟩ := hu
    exact .inr ⟨r, hr, rfl⟩

theorem exchanged_pc_self (s : State T) (t : T) (n : Option Node) (g : UInt32) (i : ℕ)
    (r : UInt64 × Exchange.Pc) : (exchanged s t n g i r).pc t = .exchange n g i r.2 :=
  Function.update_self ..

theorem exchanged_exchanger_self (s : State T) (t : T) (n : Option Node) (g : UInt32) (i : ℕ)
    (r : UInt64 × Exchange.Pc) : (exchanged s t n g i r).exchanger i = r.1 :=
  Function.update_self ..

omit [DecidableEq T] in
/-- Whoever stands in the exchanger `i` fits its word. -/
theorem Inv.fits (hi : Inv s) (hp : s.pc t = .exchange none g i x) : x.Fits (s.exchanger i) := by
  have hf := (hi.slot i).fits t
  simpa only [hp, Pc.at, if_true] using hf

theorem Pc.Popping.exec (hpop : (s.pc t).Popping) (hu : exec maxrange s t slot late = some u) :
    (u.pc t).Popping := by
  cases hp : s.pc t with
  | popTest | popLoad g | popCas g n x =>
    simp only [EliminationStack.exec, hp] at hu
    split at hu <;> cases hu <;> (rw [goto_pc_self]; trivial)
  | popNext g n =>
    simp only [EliminationStack.exec, hp, Option.some.injEq] at hu
    subst hu
    rw [goto_pc_self]
    trivial
  | visit n g =>
    rw [hp] at hpop
    simp only [EliminationStack.exec, hp, Option.ite_none_right_eq_some, Option.some.injEq] at hu
    obtain ⟨-, rfl⟩ := hu
    rw [goto_pc_self]
    cases n with
    | none => trivial
    | some n => exact hpop.elim
  | exchange n g i x =>
    rw [hp] at hpop
    cases n with
    | some n => exact hpop.elim
    | none =>
      rcases exec_exchange hp hu with ⟨other, -, rfl⟩ | ⟨r, -, rfl⟩
      · rw [goto_pc_self]
        cases other <;> trivial
      · rw [exchanged_pc_self]
        trivial
  | popRet r => simp [EliminationStack.exec, hp] at hu
  | _ =>
    rw [hp] at hpop
    exact hpop.elim

end Step

namespace Alone
variable {maxrange : UInt32} {t : T} {f : ℕ → State T} {n : ℕ} {g : UInt32} {h : Node}

theorem exec (ha : Alone maxrange t f) (hp : ((f n).pc t).result = none) :
    ∃ slot late, EliminationStack.exec maxrange (f n) t slot late = some (f (n + 1)) :=
  (ha.step n).resolve_right fun hr => hr.1 hp

theorem inv (ha : Alone maxrange t f) (hi : Inv (f 0)) (hpop : ((f 0).pc t).Popping) (n : ℕ) :
    Inv (f n) ∧ ((f n).pc t).Popping := by
  induction n with
  | zero => exact ⟨hi, hpop⟩
  | succ n ih =>
    rcases ha.step n with ⟨slot, late, hu⟩ | ⟨-, he⟩
    · exact ⟨ih.1.exec hu, ih.2.exec hu⟩
    · rwa [he]

/-- What holds in an exchange until something else does: something else does. -/
theorem leads {J Q : State T → Prop} (ha : Alone maxrange t f) (hn : J (f n))
    (hex : ∀ s, J s → (s.pc t).Exchanging)
    (hstep : ∀ s u slot late, J s → EliminationStack.exec maxrange s t slot late = some u → J u ∨ Q u) :
    ∃ m, Q (f m) := by
  by_contra hnot
  have hJ : ∀ k, n ≤ k → J (f k) := by
    intro k hk
    induction k, hk using Nat.le_induction with
    | base => exact hn
    | succ k _ ih =>
      have hres : ((f k).pc t).result = none := by
        have h := hex _ ih
        generalize (f k).pc t = p at h
        cases p <;> first | rfl | exact h.elim
      obtain ⟨slot, late, hu⟩ := ha.exec hres
      exact (hstep _ _ slot late ih hu).resolve_right fun hq => hnot ⟨k + 1, hq⟩
  obtain ⟨m, hm, hout⟩ := ha.ends n
  exact hout (hex _ (hJ m hm))

/-- With a node on the stack a pop that begins its attempt takes it. -/
theorem returns_of_load (ha : Alone maxrange t f) (hp : (f n).pc t = .popLoad g)
    (hh : (f n).headNext = some h) : ∃ m r, (f m).pc t = .popRet r := by
  obtain ⟨slot, late, h1⟩ := ha.exec (by rw [hp]; rfl)
  simp only [EliminationStack.exec, hp, hh, Option.some.injEq] at h1
  have hp1 : (f (n + 1)).pc t = .popNext g h := by rw [← h1, goto_pc_self]
  obtain ⟨slot, late, h2⟩ := ha.exec (by rw [hp1]; rfl)
  simp only [EliminationStack.exec, hp1, Option.some.injEq] at h2
  have hp2 : (f (n + 1 + 1)).pc t = .popCas g h ((f (n + 1)).next h) := by rw [← h2, goto_pc_self]
  have hh2 : (f (n + 1 + 1)).headNext = some h := by
    rw [← h2, ← h1]
    exact hh
  obtain ⟨slot, late, h3⟩ := ha.exec (by rw [hp2]; rfl)
  simp only [EliminationStack.exec, hp2, hh2, if_true, Option.some.injEq] at h3
  exact ⟨n + 1 + 1 + 1, some h, by rw [← h3]; exact goto_pc_self ..⟩

/-- A pop leaves its exchange with a node, or begins another attempt. -/
theorem returns_of_exchange {i : ℕ} {x : Exchange.Pc} (ha : Alone maxrange t f)
    (hp : (f n).pc t = .exchange none g i x) (hh : (f n).headNext = some h) :
    ∃ m r, (f m).pc t = .popRet r := by
  refine Exists.elim (ha.leads (n := n)
    (J := fun s => s.headNext = some h ∧ ∃ g i x, s.pc t = .exchange none g i x)
    (Q := fun s => s.headNext = some h ∧ ((∃ g, s.pc t = .popLoad g) ∨ ∃ r, s.pc t = .popRet r))
    ⟨hh, g, i, x, hp⟩ (fun s ⟨_, g, i, x, hs⟩ => by rw [hs]; trivial) ?_) ?_
  · rintro s u slot late ⟨hh, g, i, x, hs⟩ hu
    rcases exec_exchange hs hu with ⟨other, -, rfl⟩ | ⟨r, -, rfl⟩
    · refine .inr ⟨hh, ?_⟩
      rw [goto_pc_self]
      cases other with
      | none => exact .inl ⟨g * 2, rfl⟩
      | some r => exact .inr ⟨some r, rfl⟩
    · exact .inl ⟨hh, g, i, r.2, exchanged_pc_self ..⟩
  · rintro m ⟨hh, ⟨g, hp⟩ | ⟨r, hp⟩⟩
    · exact ha.returns_of_load hp hh
    · exact ⟨m, r, hp⟩

/-- With a node on the stack a pop returns, wherever it stands. -/
theorem returns_of_head (ha : Alone maxrange t f) (hpop : ((f n).pc t).Popping)
    (hh : (f n).headNext = some h) : ∃ m r, (f m).pc t = .popRet r := by
  have hcas : ∀ {n g a x}, (f n).pc t = .popCas g a x → (f n).headNext = some h →
      ∃ m r, (f m).pc t = .popRet r := by
    intro n g a x hp hh
    obtain ⟨slot, late, hu⟩ := ha.exec (by rw [hp]; rfl)
    simp only [EliminationStack.exec, hp] at hu
    split at hu <;> simp only [Option.some.injEq] at hu
    · exact ⟨n + 1, some a, by rw [← hu]; exact goto_pc_self ..⟩
    · exact ha.returns_of_load (n := n + 1) (by rw [← hu, goto_pc_self]) (by rw [← hu]; exact hh)
  cases hp : (f n).pc t with
  | popRet r => exact ⟨n, r, hp⟩
  | popLoad g => exact ha.returns_of_load hp hh
  | popCas g a x => exact hcas hp hh
  | exchange m g i x =>
    rw [hp] at hpop
    cases m with
    | none => exact ha.returns_of_exchange hp hh
    | some m => exact hpop.elim
  | popTest =>
    obtain ⟨slot, late, hu⟩ := ha.exec (by rw [hp]; rfl)
    simp only [EliminationStack.exec, hp, hh, Option.some.injEq] at hu
    exact ha.returns_of_load (n := n + 1) (by rw [← hu, goto_pc_self]) (by rw [← hu]; exact hh)
  | popNext g a =>
    obtain ⟨slot, late, hu⟩ := ha.exec (by rw [hp]; rfl)
    simp only [EliminationStack.exec, hp, Option.some.injEq] at hu
    exact hcas (n := n + 1) (by rw [← hu, goto_pc_self]) (by rw [← hu]; exact hh)
  | visit m g =>
    rw [hp] at hpop
    cases m with
    | some m => exact hpop.elim
    | none =>
      obtain ⟨slot, late, hu⟩ := ha.exec (by rw [hp]; rfl)
      simp only [EliminationStack.exec, hp, Option.ite_none_right_eq_some, Option.some.injEq] at hu
      exact ha.returns_of_exchange (n := n + 1) (by rw [← hu.2, goto_pc_self]) (by rw [← hu.2]; exact hh)
  | _ =>
    rw [hp] at hpop
    exact hpop.elim

/-- A pop that gets a node in its exchange returns it. -/
theorem returns_of_gets {i : ℕ} {x : Exchange.Pc} (ha : Alone maxrange t f) (hi : Inv (f n))
    (hp : (f n).pc t = .exchange none g i x) (hg : Gets ((f n).exchanger i) x) :
    ∃ m r, (f m).pc t = .popRet r := by
  refine ha.leads (n := n) (Q := fun s => ∃ r, s.pc t = .popRet r)
    (J := fun s => Inv s ∧ ∃ g i x, s.pc t = .exchange none g i x ∧ Gets (s.exchanger i) x)
    ⟨hi, g, i, x, hp, hg⟩ (fun s ⟨_, g, i, x, hs, _⟩ => by rw [hs]; trivial) ?_
  rintro s u slot late ⟨hi, g, i, x, hs, hg⟩ hu
  rcases exec_exchange hs hu with ⟨other, hx, rfl⟩ | ⟨r, hr, rfl⟩
  · rcases hx with rfl | ⟨rfl, -⟩
    · obtain ⟨r, rfl⟩ := Option.ne_none_iff_exists'.mp hg
      exact .inr ⟨some r, goto_pc_self ..⟩
    · exact hg.elim
  · refine .inl ⟨hi.exchanged hs hr, g, i, r.2, exchanged_pc_self .., ?_⟩
    rw [exchanged_exchanger_self]
    refine (gets_iff (hi.carries t none g i x hs) (hi.fits hs) (.inr ?_) hr).mpr hg
    rintro n rfl
    exact hg

end Alone

/-! ### The execution in which time is always up -/

section Hurry
variable {maxrange : UInt32} {s u : State T} {t : T} {g : UInt32} {i : ℕ} {x : Exchange.Pc}

/-- `t` takes a step: a slot it draws is the first, and a clock it reads says that it is late. -/
def hurry (maxrange : UInt32) (t : T) (s : State T) : State T := (exec maxrange s t 0 true).getD s

/-- A pop that has no result can take this step. -/
theorem exec_isSome (hm : 0 < maxrange) (hi : Inv s) (hpop : (s.pc t).Popping)
    (hres : (s.pc t).result = none) : ∃ u, exec maxrange s t 0 true = some u := by
  cases hp : s.pc t with
  | idle | pushLoad n g | pushStore n g x | pushCas n g x | pushRet =>
    rw [hp] at hpop
    exact hpop.elim
  | popRet r =>
    rw [hp] at hres
    cases hres
  | popTest | popLoad g | popCas g n x =>
    simp only [exec, hp]
    split <;> exact ⟨_, rfl⟩
  | popNext g n =>
    simp only [exec, hp]
    exact ⟨_, rfl⟩
  | visit n g =>
    simp only [exec, hp]
    exact ⟨_, if_pos ⟨Nat.zero_le _, UInt32.lt_iff_toNat_lt.mp hm⟩⟩
  | exchange n g i x =>
    have hc := hi.carries t n g i x hp
    cases x with
    | idle => exact hc.elim
    | returned other | threw =>
      simp only [exec, hp]
      exact ⟨_, rfl⟩
    | casEmpty m other | casWaiting m other | cancel m =>
      simp only [exec, hp, Exchange.exchange]
      split <;> exact ⟨_, rfl⟩
    | _ =>
      simp only [exec, hp]
      exact ⟨_, rfl⟩

theorem hurry_exec (hm : 0 < maxrange) (hi : Inv s) (hpop : (s.pc t).Popping)
    (hres : (s.pc t).result = none) : exec maxrange s t 0 true = some (hurry maxrange t s) := by
  obtain ⟨u, hu⟩ := exec_isSome hm hi hpop hres
  rw [hurry, hu, Option.getD_some]

theorem hurry_of_result (hres : (s.pc t).result ≠ none) : hurry maxrange t s = s := by
  cases hp : s.pc t with
  | pushRet | popRet r => simp only [hurry, exec, hp, Option.getD_none]
  | _ =>
    rw [hp] at hres
    exact absurd rfl hres

theorem hurry_inv (hm : 0 < maxrange) (h : Inv s ∧ (s.pc t).Popping) :
    Inv (hurry maxrange t s) ∧ ((hurry maxrange t s).pc t).Popping := by
  by_cases hres : (s.pc t).result = none
  · have hu := hurry_exec hm h.1 h.2 hres
    exact ⟨h.1.exec hu, h.2.exec hu⟩
  · rwa [hurry_of_result hres]

theorem iterate_inv (hm : 0 < maxrange) (h : Inv s ∧ (s.pc t).Popping) (n : ℕ) :
    Inv ((hurry maxrange t)^[n] s) ∧ (((hurry maxrange t)^[n] s).pc t).Popping := by
  induction n with
  | zero => exact h
  | succ n ih =>
    rw [Function.iterate_succ_apply']
    exact hurry_inv hm ih

/-- Each exchange ends soon. -/
theorem exists_left (hm : 0 < maxrange) (h : Inv s ∧ (s.pc t).Popping)
    (hp : s.pc t = .exchange none g i x) : ∃ k, ¬ (((hurry maxrange t)^[k] s).pc t).Exchanging := by
  induction hd : stepsLeft x using Nat.strong_induction_on generalizing s x with
  | _ d ih =>
    have hu := hurry_exec hm h.1 h.2 (by rw [hp]; rfl)
    rcases exec_exchange hp hu with ⟨other, -, he⟩ | ⟨r, hr, he⟩
    · refine ⟨1, ?_⟩
      show ¬ ((hurry maxrange t s).pc t).Exchanging
      rw [he, goto_pc_self]
      cases other <;> exact id
    · obtain ⟨k, hk⟩ := ih (stepsLeft r.2) (hd ▸ stepsLeft_lt hr) (hurry_inv hm h)
        (by rw [he, exchanged_pc_self]) rfl
      exact ⟨k + 1, hk⟩

/-- From every state there is an execution in which the pop is alone. -/
theorem alone_hurry (hm : 0 < maxrange) (h : Inv s ∧ (s.pc t).Popping) :
    Alone maxrange t fun n => (hurry maxrange t)^[n] s := by
  refine ⟨fun n => ?_, fun n => ?_⟩
  · have hn := iterate_inv hm h n
    simp only [Function.iterate_succ_apply']
    by_cases hres : (((hurry maxrange t)^[n] s).pc t).result = none
    · exact .inl ⟨0, true, hurry_exec hm hn.1 hn.2 hres⟩
    · exact .inr ⟨hres, hurry_of_result hres⟩
  · have hn := iterate_inv hm h n
    cases hp : ((hurry maxrange t)^[n] s).pc t with
    | exchange m g i x =>
      have hpop := hn.2
      rw [hp] at hpop
      cases m with
      | some m => exact hpop.elim
      | none =>
        obtain ⟨k, hk⟩ := exists_left hm hn hp
        refine ⟨k + n, Nat.le_add_left n k, ?_⟩
        rwa [Function.iterate_add_apply]
    | _ => exact ⟨n, le_rfl, by rw [hp]; exact id⟩

end Hurry

/-- The pop has its one test before it, or its result, or gets one in its exchange. -/
def Pc.Settles (exchanger : ℕ → UInt64) : Pc → Prop
  | .popTest | .popRet _ => True
  | .exchange _ _ i x => Gets (exchanger i) x
  | _ => False

section Unsettled
variable {maxrange : UInt32} {s u : State T} {t : T}

/-- A pop that has found the chain empty after its test and gets nothing is no further after
a step in which time is up. -/
theorem unsettled_exec (h : Inv s ∧ (s.pc t).Popping) (hh : s.headNext = none)
    (hs : ¬ (s.pc t).Settles s.exchanger) (hu : exec maxrange s t 0 true = some u) :
    u.headNext = none ∧ ¬ (u.pc t).Settles u.exchanger := by
  obtain ⟨hi, hpop⟩ := h
  have hgoto : ∀ {p : Pc}, ¬ p.Settles s.exchanger → (s.goto t p).headNext = none ∧
      ¬ ((s.goto t p).pc t).Settles (s.goto t p).exchanger := by
    intro p hp
    refine ⟨hh, ?_⟩
    rwa [goto_pc_self]
  cases hp : s.pc t with
  | popLoad g =>
    simp only [exec, hp, hh, Option.some.injEq] at hu
    exact hu ▸ hgoto id
  | popNext g n =>
    simp only [exec, hp, Option.some.injEq] at hu
    exact hu ▸ hgoto id
  | popCas g n x =>
    simp only [exec, hp, hh, reduceCtorEq, if_false, Option.some.injEq] at hu
    exact hu ▸ hgoto id
  | visit n g =>
    simp only [exec, hp, Option.ite_none_right_eq_some, Option.some.injEq] at hu
    exact hu.2 ▸ hgoto id
  | exchange n g i x =>
    rw [hp] at hs hpop
    cases n with
    | some n => exact hpop.elim
    | none =>
      rcases exec_exchange hp hu with ⟨other, hx, rfl⟩ | ⟨r, hr, rfl⟩
      · obtain rfl : other = none := by
          rcases hx with rfl | ⟨-, rfl⟩
          · by_contra hne
            exact hs hne
          · rfl
        exact hgoto id
      · refine ⟨hh, ?_⟩
        rw [exchanged_pc_self]
        show ¬ Gets ((exchanged s t none g i r).exchanger i) r.2
        rwa [exchanged_exchanger_self, gets_iff (hi.carries t none g i x hp) (hi.fits hp) (.inl rfl) hr]
  | popTest | popRet r =>
    rw [hp] at hs
    exact absurd trivial hs
  | _ =>
    rw [hp] at hpop
    exact hpop.elim

theorem unsettled_iterate (hm : 0 < maxrange) (h : Inv s ∧ (s.pc t).Popping) (hh : s.headNext = none)
    (hs : ¬ (s.pc t).Settles s.exchanger) (n : ℕ) :
    ((hurry maxrange t)^[n] s).headNext = none ∧
      ¬ (((hurry maxrange t)^[n] s).pc t).Settles ((hurry maxrange t)^[n] s).exchanger := by
  induction n with
  | zero => exact ⟨hh, hs⟩
  | succ n ih =>
    rw [Function.iterate_succ_apply']
    have hn := iterate_inv hm h n
    have hres : (((hurry maxrange t)^[n] s).pc t).result = none := by
      obtain ⟨-, hpop⟩ := hn
      have hs := ih.2
      generalize ((hurry maxrange t)^[n] s).pc t = p at hpop hs
      cases p <;> first | rfl | exact hpop.elim | exact absurd trivial hs
    exact unsettled_exec hn ih.1 ih.2 (hurry_exec hm hn.1 hn.2 hres)

/-- Such a pop may go on for ever. -/
theorem exists_alone_endless (hm : 0 < maxrange) (h : Inv s ∧ (s.pc t).Popping) (hh : s.headNext = none)
    (hs : ¬ (s.pc t).Settles s.exchanger) :
    ∃ f, f 0 = s ∧ Alone maxrange t f ∧ ∀ n r, (f n).pc t ≠ .popRet r := by
  refine ⟨_, rfl, alone_hurry hm h, fun n r hp => ?_⟩
  have hn := (unsettled_iterate hm h hh hs n).2
  rw [hp] at hn
  exact hn trivial

end Unsettled

/-! ### When a pop ends -/

/-- A node is offered to the pop of `t`: it has one already, or a push waits with one. -/
def Offered (s : State T) (t : T) : Prop :=
  (∃ n, s.core.view t = .popped (some n)) ∨ ∃ i n, s.exchanger i = Slot.set (some n) .WAITING

section Ends
variable {maxrange : UInt32} {s : State T} {t : T} {g : UInt32} {i : ℕ} {x : Exchange.Pc}

omit [DecidableEq T] in
theorem offered_of_gets (hp : s.pc t = .exchange none g i x) (hg : Gets (s.exchanger i) x) :
    Offered s t := by
  have hview : s.core.view t = visiting none (stage (s.exchanger i) x) := by
    simp only [State.core, hp, Pc.view]
  have hwait : ∀ m, s.exchanger i = Slot.set (some m) .WAITING → Offered s t :=
    fun m h => .inr ⟨i, m, h⟩
  cases x with
  | get1 n =>
    obtain ⟨m, h⟩ := hg
    exact hwait m h
  | get2 n state =>
    obtain ⟨-, m, h⟩ := hg
    exact hwait m h
  | casWaiting n other =>
    obtain ⟨m, -, h⟩ := hg
    exact hwait m h
  | returned other =>
    obtain ⟨m, rfl⟩ := Option.ne_none_iff_exists'.mp hg
    exact .inl ⟨m, hview⟩
  | idle | top n | casEmpty n other | threw => exact hg.elim
  | _ =>
    obtain ⟨m, h⟩ := hg
    refine .inl ⟨m, ?_⟩
    rw [hview, h]
    simp only [stage, Slot.getState_set, Slot.getItem_set, if_true, visiting, settled]

/-- On an empty chain, too, such a pop returns, and what it returns was offered to it. -/
theorem Alone.returns_of_settles {f : ℕ → State T} (ha : Alone maxrange t f) (hi : Inv (f 0))
    (hpop : ((f 0).pc t).Popping) (hh : (f 0).headNext = none)
    (hs : ((f 0).pc t).Settles (f 0).exchanger) :
    ∃ n r, (f n).pc t = .popRet r ∧ (¬ Offered (f 0) t → r = none) := by
  cases hp : (f 0).pc t with
  | popTest =>
    obtain ⟨slot, late, hu⟩ := ha.exec (n := 0) (by rw [hp]; rfl)
    simp only [EliminationStack.exec, hp, hh, Option.some.injEq] at hu
    exact ⟨1, none, by rw [← hu]; exact goto_pc_self .., fun _ => rfl⟩
  | popRet r =>
    refine ⟨0, r, hp, fun hoff => ?_⟩
    cases r with
    | none => rfl
    | some m => exact absurd (.inl ⟨m, congrArg (Pc.view (f 0).exchanger) hp⟩) hoff
  | exchange m g i x =>
    rw [hp] at hs hpop
    cases m with
    | some m => exact hpop.elim
    | none =>
      obtain ⟨n, r, hr⟩ := ha.returns_of_gets hi hp hs
      exact ⟨n, r, hr, fun hoff => absurd (offered_of_gets hp hs) hoff⟩
  | _ =>
    rw [hp] at hs
    exact hs.elim

end Ends

/-- In every reachable state a pop that is left alone returns, and returns the null pointer if
the chain is empty and nothing is offered to it, if and only if the chain is not empty, or the
pop has its one test of that before it, or it has its result or gets one in its exchange. -/
theorem pop_alone_iff {maxrange : UInt32} (hm : 0 < maxrange) {next : Node → Option Node}
    {h : List (Event T (Op Node) (Res Node))} {s : State T}
    (hr : Run (eliminationStack maxrange) Free (initial next) h s) {t : T} (hpop : (s.pc t).Popping) :
    (∀ f, f 0 = s → Alone maxrange t f →
      ∃ n r, (f n).pc t = .popRet r ∧ (s.headNext = none → ¬ Offered s t → r = none)) ↔
    s.headNext ≠ none ∨ (s.pc t).Settles s.exchanger := by
  obtain ⟨hi, -⟩ := run_core (E := Free) hr fun _ _ _ _ _ => trivial
  constructor
  · intro hall
    by_contra hnot
    obtain ⟨hh, hs⟩ := not_or.mp hnot
    obtain ⟨f, hf, ha, hne⟩ := exists_alone_endless hm ⟨hi, hpop⟩ (not_not.mp hh) hs
    obtain ⟨n, r, hp, -⟩ := hall f hf ha
    exact hne n r hp
  · rintro hcond f rfl ha
    cases hh : (f 0).headNext with
    | some a =>
      obtain ⟨n, r, hp⟩ := ha.returns_of_head hpop hh
      exact ⟨n, r, hp, nofun⟩
    | none =>
      obtain ⟨n, r, hp, hnone⟩ := ha.returns_of_settles hi hpop hh (hcond.resolve_left fun h => h hh)
      exact ⟨n, r, hp, fun _ => hnone⟩

/-- A pop that is left alone before its test of an empty stack ends. -/
theorem pop_alone_iff_test : ∃ (h : List (Event (Fin 2) (Op Node) (Res Node))) (s : State (Fin 2)),
    Run (eliminationStack 100) Free (initial fun _ => none) h s ∧ s.pc 0 = .popTest ∧
      ∀ f, f 0 = s → Alone 100 0 f → ∃ n, (f n).pc 0 = .popRet none := by
  have hr := Run.single (P := eliminationStack 100) (C := Free) (s := (initial fun _ => none : State (Fin 2)))
    (a := .call 0 .pop) trivial rfl
  refine ⟨_, _, hr, rfl, fun f hf ha => ?_⟩
  obtain ⟨n, r, hp, hnone⟩ := (pop_alone_iff (t := 0) (by decide) hr trivial).mpr (.inr trivial) f hf ha
  have hoff : ¬ Offered ((initial fun _ => none : State (Fin 2)).goto 0 .popTest) 0 := by
    rintro (⟨m, hm⟩ | ⟨i, m, hm⟩)
    · cases hm
    · exact absurd (Slot.set_inj (Slot.set_none_empty.trans hm)).2 (by decide)
  rw [hnone rfl hoff] at hp
  exact ⟨n, hp⟩

/-- A pop that has seen a node and lost it to another pop goes round for ever on the empty
stack, with nothing offered to it. -/
theorem pop_alone_endless : ∃ (h : List (Event (Fin 2) (Op Node) (Res Node))) (s : State (Fin 2)),
    Run (eliminationStack 100) Free (initial fun _ => none) h s ∧ (s.pc 1).Popping ∧
      s.headNext = none ∧ ¬ Offered s 1 ∧
      ∃ f, f 0 = s ∧ Alone 100 1 f ∧ ∀ n r, (f n).pc 1 ≠ .popRet r := by
  obtain ⟨h, s, hr, ht⟩ := exists_run_of_exec (P := eliminationStack 100) (C := Free)
    (s := (initial fun _ => none : State (Fin 2)))
    [.call 0 (.push ⟨64, rfl, by decide⟩), .exec 0 0 false, .exec 0 0 false, .exec 0 0 false, .ret 0,
      .call 1 .pop, .exec 1 0 false, .call 0 .pop, .exec 0 0 false, .exec 0 0 false, .exec 0 0 false,
      .exec 0 0 false]
    (fun _ s => decide (s.headNext = none ∧ s.pc 0 = .popRet (some ⟨64, rfl, by decide⟩) ∧
      s.pc 1 = .popLoad 2)) (by decide)
  rw [decide_eq_true_iff] at ht
  obtain ⟨hh, hp0, hp⟩ := ht
  obtain ⟨hi, -⟩ := run_core (E := Free) hr fun _ _ _ _ _ => trivial
  have hpop : (s.pc 1).Popping := by
    rw [hp]
    trivial
  have hoff : ¬ Offered s 1 := by
    rintro (⟨n, hn⟩ | ⟨i, n, hn⟩)
    · simp only [State.core, hp, Pc.view] at hn
      cases hn
    · -- nobody stands in an exchanger
      have hnone : ∀ t, ¬ ((s.pc t).at i).Waits := by
        refine Fin.forall_fin_two.mpr ⟨?_, ?_⟩
        · rw [hp0]
          exact id
        · rw [hp]
          exact id
      rw [(hi.slot i).empty.resolve_right fun h => h.elim hnone, ← Slot.set_none_empty] at hn
      exact absurd (Slot.set_inj hn).2 (by decide)
  exact ⟨h, s, hr, hpop, hh, hoff,
    exists_alone_endless (by decide) ⟨hi, hpop⟩ hh (by rw [hp]; exact id)⟩

end Multicore.Stacks.EliminationStack
