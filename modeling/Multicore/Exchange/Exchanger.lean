import Multicore.Exchange.Rendezvous

/-! `Exchanger` of project 3. A slot is one 64-bit word that packs the address of a
node with a state in its two low bits. The first thread to come puts its item there
and waits; the second swaps in its own and takes the first's. The waiter then finds
the slot busy, takes the item and empties the slot; if its time runs out first it
takes its own item back. `get` reads the word twice, once for the state and once for
the item, and the word may change in between. Every clock test may go either way. -/

namespace Multicore.Exchange

open Runs

/-- The address of a node. A `Node *` is an `Option Node`. -/
structure Node where
  address : UInt64
  aligned : address &&& 3 = 0
  nonnull : address ≠ 0
  deriving DecidableEq

inductive ExchangeState
  | EMPTY | WAITING | BUSY
  deriving DecidableEq

def ExchangeState.bits : ExchangeState → UInt64
  | .EMPTY => 0
  | .WAITING => 1
  | .BUSY => 2

/-- `(uint64_t)n` -/
def address : Option Node → UInt64
  | none => 0
  | some n => n.address

theorem and_or_distrib (a b c : UInt64) : (a ||| b) &&& c = a &&& c ||| b &&& c :=
  UInt64.toBitVec_inj.mp BitVec.and_or_distrib_right

theorem and_not_three (w : UInt64) : (w &&& ~~~3) &&& 3 = 0 := by
  rw [UInt64.and_assoc, UInt64.not_and_self, UInt64.and_zero]

theorem and_not_three_of_aligned {w : UInt64} (hw : w &&& 3 = 0) : w &&& ~~~3 = w :=
  calc w &&& ~~~3 = (w &&& 3) ||| (w &&& ~~~3) := by rw [hw, UInt64.zero_or]
    _ = w &&& (3 ||| ~~~3) := (UInt64.toBitVec_inj.mp BitVec.and_or_distrib_left).symm
    _ = w := by rw [UInt64.or_not_self, UInt64.and_neg_one]

theorem address_aligned (n : Option Node) : address n &&& 3 = 0 := by
  cases n with
  | none => rfl
  | some n => exact n.aligned

/-! ### The slot -/

namespace Slot

/-- The word that `set` stores. -/
def set (n : Option Node) (state : ExchangeState) : UInt64 := address n ||| (state.bits &&& 3)

/-- The first read of `get`. The value 3 names no state. -/
def getState (data : UInt64) : Option ExchangeState :=
  if data &&& 3 = 0 then some .EMPTY
  else if data &&& 3 = 1 then some .WAITING
  else if data &&& 3 = 2 then some .BUSY
  else none

/-- The second read of `get`. -/
def getItem (data : UInt64) : Option Node :=
  if h : data &&& ~~~3 = 0 then none else some ⟨data &&& ~~~3, and_not_three data, h⟩

/-- The word after `compareAndSet`, if it succeeds. -/
def compareAndSet (data : UInt64) (oldN newN : Option Node) (oldState newState : ExchangeState) :
    Option UInt64 :=
  if data = set oldN oldState then some (set newN newState) else none

variable {n m : Option Node} {state : ExchangeState} {data : UInt64}

theorem set_and_three (n : Option Node) (state : ExchangeState) : set n state &&& 3 = state.bits := by
  rw [set, and_or_distrib, address_aligned, UInt64.zero_or]
  cases state <;> rfl

theorem set_and_not_three (n : Option Node) (state : ExchangeState) :
    set n state &&& ~~~3 = address n := by
  rw [set, and_or_distrib, and_not_three_of_aligned (address_aligned n)]
  cases state <;> exact UInt64.or_zero

@[simp] theorem getState_set (n : Option Node) (state : ExchangeState) :
    getState (set n state) = some state := by
  unfold getState
  rw [set_and_three]
  cases state <;> rfl

@[simp] theorem getItem_set (n : Option Node) (state : ExchangeState) : getItem (set n state) = n := by
  unfold getItem
  cases n with
  | none => exact dif_pos (set_and_not_three none state)
  | some n =>
    have h := set_and_not_three (some n) state
    rw [dif_neg (h ▸ n.nonnull)]
    simp only [h]
    rfl

@[simp] theorem set_none_empty : set none .EMPTY = 0 := rfl

/-- The word says which item it packs and in which state. -/
theorem set_inj {state' : ExchangeState} (h : set n state = set m state') : n = m ∧ state = state' := by
  refine ⟨?_, ?_⟩
  · rw [← getItem_set n state, h, getItem_set]
  · have hs := getState_set n state
    rw [h, getState_set] at hs
    exact (Option.some.inj hs).symm

end Slot

/-! ### The calls of `exchange` -/

/-- Where a thread stands in `exchange(n)`. -/
inductive Pc
  | idle
  -- the outer loop and its tests of the clock and of the state
  | top (n : Option Node) | get1 (n : Option Node) | get2 (n : Option Node) (state : Option ExchangeState)
  | casEmpty (n otheritem : Option Node) | casWaiting (n otheritem : Option Node)
  -- the item is in the slot: the inner loop, the cancelling swap, the last `get`
  | wait (n : Option Node) | waitGet1 (n : Option Node)
  | waitGet2 (n : Option Node) (state : Option ExchangeState)
  | cancel (n : Option Node) | lastGet1 (n : Option Node) | lastGet2 (n : Option Node)
  | reset (n otheritem : Option Node)
  | returned (otheritem : Option Node) | threw
  deriving DecidableEq

/-- One step of a thread in `exchange` on the word of the slot. `late` is the outcome of
the clock test, where the step makes one. -/
def exchange (data : UInt64) (late : Bool) : Pc → Option (UInt64 × Pc)
  | .top n => some (data, if late then .threw else .get1 n)
  | .get1 n => some (data, .get2 n (Slot.getState data))
  | .get2 n state => some (data, match state with
    | some .EMPTY => .casEmpty n (Slot.getItem data)
    | some .WAITING => .casWaiting n (Slot.getItem data)
    | some .BUSY | none => .top n)
  | .casEmpty n otheritem => match Slot.compareAndSet data otheritem n .EMPTY .WAITING with
    | some data' => some (data', .wait n)
    | none => some (data, .top n)
  | .casWaiting n otheritem => match Slot.compareAndSet data otheritem n .WAITING .BUSY with
    | some data' => some (data', .returned otheritem)
    | none => some (data, .top n)
  | .wait n => some (data, if late then .cancel n else .waitGet1 n)
  | .waitGet1 n => some (data, .waitGet2 n (Slot.getState data))
  | .waitGet2 n state =>
    some (data, if state = some .BUSY then .reset n (Slot.getItem data) else .wait n)
  | .cancel n => match Slot.compareAndSet data n none .WAITING .EMPTY with
    | some data' => some (data', .threw)
    | none => some (data, .lastGet1 n)
  | .lastGet1 n => some (data, .lastGet2 n)
  | .lastGet2 n => some (data, .reset n (Slot.getItem data))
  | .reset _ otheritem => some (Slot.set none .EMPTY, .returned otheritem)
  | .idle | .returned _ | .threw => none

/-! ### The slot and its waiter -/

/-- The thread has put its item into the slot and not yet emptied it. -/
def Pc.Waits : Pc → Prop
  | .wait _ | .waitGet1 _ | .waitGet2 _ _ | .cancel _ | .lastGet1 _ | .lastGet2 _ | .reset _ _ => True
  | _ => False

/-- What a waiter knows of the word: its item is there, or a partner has come. -/
def Pc.Fits (data : UInt64) : Pc → Prop
  | .wait n | .waitGet1 n | .cancel n => data = Slot.set n .WAITING ∨ ∃ r, data = Slot.set r .BUSY
  | .waitGet2 n state =>
    (data = Slot.set n .WAITING ∧ state ≠ some .BUSY) ∨ ∃ r, data = Slot.set r .BUSY
  | .lastGet1 _ | .lastGet2 _ => ∃ r, data = Slot.set r .BUSY
  | .reset _ otheritem => data = Slot.set otheritem .BUSY
  | _ => True

/-- The stage of the rendezvous at which a thread stands. A waiter is owed an item as
soon as a partner has put it into the slot. -/
def stage (data : UInt64) : Pc → Stage (Option Node)
  | .idle => .idle
  | .top n | .get1 n | .get2 n _ | .casEmpty n _ | .casWaiting n _ => .offering n
  | .wait n | .waitGet1 n | .waitGet2 n _ | .cancel n | .lastGet1 n | .lastGet2 n | .reset n _ =>
    if Slot.getState data = some .BUSY then .owed (Slot.getItem data) else .offering n
  | .returned otheritem => .owed otheritem
  | .threw => .failed

variable {T : Type*}

def stages (data : UInt64) (v : T → Pc) : T → Stage (Option Node) := fun t => stage data (v t)

/-- The word is 0 when nobody waits, and it fits the one waiter when somebody does. -/
structure SlotInv (data : UInt64) (v : T → Pc) : Prop where
  alone : ∀ t u, (v t).Waits → (v u).Waits → t = u
  empty : data = 0 ∨ ∃ t, (v t).Waits
  fits : ∀ t, (v t).Fits data

/-- What a step of `t` from `pc` on the word `data` may do to the stages of all threads. -/
inductive Change [DecidableEq T] (data : UInt64) (pc : Pc) (t : T) (v : T → Stage (Option Node)) :
    (T → Stage (Option Node)) → Prop
  | silent : Change data pc t v v
  | met {u : T} {x y n : Option Node} : t ≠ u → v t = .offering x → v u = .offering y →
      pc = .casWaiting n y → data = Slot.set y .WAITING → Change data pc t v (meet v t u x y)
  | failed {x : Option Node} : v t = .offering x → Change data pc t v (Function.update v t .failed)

namespace Pc
variable {pc : Pc} {data data' : UInt64} {n otheritem : Option Node}

/-- Only a waiter depends on the word. -/
theorem fits_of_not_waits (h : ¬ pc.Waits) : pc.Fits data := by
  cases pc <;> first | trivial | exact absurd trivial h

theorem stage_of_not_waits (h : ¬ pc.Waits) : stage data pc = stage data' pc := by
  cases pc <;> first | rfl | exact absurd trivial h

theorem Fits.waiting_or_busy (hf : pc.Fits data) (hw : pc.Waits) :
    (∃ n, data = Slot.set n .WAITING) ∨ ∃ r, data = Slot.set r .BUSY := by
  cases pc with
  | wait n | waitGet1 n | cancel n => exact hf.imp_left fun h => ⟨n, h⟩
  | waitGet2 n state => exact hf.imp_left fun h => ⟨n, h.1⟩
  | lastGet1 n | lastGet2 n => exact .inr hf
  | reset n other => exact .inr ⟨other, hf⟩
  | _ => exact hw.elim

/-- While somebody waits the slot is not empty. -/
theorem Fits.ne_empty (hf : pc.Fits data) (hw : pc.Waits) : data ≠ Slot.set n .EMPTY := by
  rintro rfl
  rcases hf.waiting_or_busy hw with ⟨m, h⟩ | ⟨m, h⟩ <;> exact absurd (Slot.set_inj h).2 (by decide)

/-- A waiter whose item is still there offers it, and may find a partner's. -/
theorem Fits.partner (hf : pc.Fits (Slot.set otheritem .WAITING)) (hw : pc.Waits) :
    stage (Slot.set otheritem .WAITING) pc = .offering otheritem ∧ pc.Fits (Slot.set n .BUSY) ∧
      stage (Slot.set n .BUSY) pc = .owed n := by
  have hbusy : ∀ r, Slot.set otheritem .WAITING ≠ Slot.set r .BUSY := fun r h =>
    absurd (Slot.set_inj h).2 (by decide)
  have hstage : ∀ m : Option Node, Slot.set otheritem .WAITING = Slot.set m .WAITING → m = otheritem :=
    fun m h => (Slot.set_inj h).1.symm
  cases pc with
  | wait m | waitGet1 m | cancel m =>
    rcases hf with h | ⟨r, h⟩
    · rw [hstage m h]
      exact ⟨by simp [stage], .inr ⟨n, rfl⟩, by simp [stage]⟩
    · exact absurd h (hbusy r)
  | waitGet2 m state =>
    rcases hf with ⟨h, -⟩ | ⟨r, h⟩
    · rw [hstage m h]
      exact ⟨by simp [stage], .inr ⟨n, rfl⟩, by simp [stage]⟩
    · exact absurd h (hbusy r)
  | lastGet1 m | lastGet2 m =>
    obtain ⟨r, h⟩ := hf
    exact absurd h (hbusy r)
  | reset m other => exact absurd hf (hbusy other)
  | _ => exact hw.elim

end Pc

namespace SlotInv
variable {data : UInt64} {v : T → Pc} {t : T} {pc : Pc} {late : Bool} {n otheritem : Option Node}

theorem initial : SlotInv 0 fun _ : T => .idle :=
  ⟨fun _ _ h => h.elim, .inl rfl, fun _ => trivial⟩

variable [DecidableEq T]

theorem stages_update (data : UInt64) (v : T → Pc) (t : T) (pc : Pc) :
    stages data (Function.update v t pc) = Function.update (stages data v) t (stage data pc) :=
  Function.comp_update (stage data) v t pc

/-- A step that leaves the word alone. -/
theorem move (hs : SlotInv data v) (hw : pc.Waits ↔ (v t).Waits) (hf : pc.Fits data) :
    SlotInv data (Function.update v t pc) := by
  have hwaits : ∀ u, (Function.update v t pc u).Waits ↔ (v u).Waits := by
    intro u
    by_cases hu : u = t
    · subst hu
      rwa [Function.update_self]
    · rw [Function.update_of_ne hu]
  refine ⟨?_, ?_, ?_⟩
  · intro u w hu hw'
    exact hs.alone u w ((hwaits u).mp hu) ((hwaits w).mp hw')
  · exact hs.empty.imp_right fun ⟨u, hu⟩ => ⟨u, (hwaits u).mpr hu⟩
  · intro u
    by_cases hu : u = t
    · subst hu
      rwa [Function.update_self]
    · rw [Function.update_of_ne hu]
      exact hs.fits u

/-- A step that leaves the word and the stage of the thread alone. -/
theorem silent {pc₀ : Pc} (hs : SlotInv data v) (hw : pc.Waits ↔ (v t).Waits) (hf : pc.Fits data)
    (hst : stage data pc = stage data (v t)) :
    SlotInv data (Function.update v t pc) ∧
      Change data pc₀ t (stages data v) (stages data (Function.update v t pc)) := by
  refine ⟨hs.move hw hf, ?_⟩
  have h : stages data (Function.update v t pc) = stages data v := by
    rw [stages_update, hst]
    exact Function.update_eq_self t (stages data v)
  rw [h]
  exact .silent

/-- The first thread puts its item into the empty slot. -/
theorem offer {pc₀ : Pc} (hs : SlotInv (Slot.set otheritem .EMPTY) v) (ht : v t = .casEmpty n otheritem) :
    SlotInv (Slot.set n .WAITING) (Function.update v t (.wait n)) ∧
      Change (Slot.set otheritem .EMPTY) pc₀ t (stages (Slot.set otheritem .EMPTY) v)
        (stages (Slot.set n .WAITING) (Function.update v t (.wait n))) := by
  have hnone : ∀ u, ¬ (v u).Waits := fun u hu => (hs.fits u).ne_empty hu rfl
  refine ⟨⟨?_, .inr ⟨t, ?_⟩, ?_⟩, ?_⟩
  · have hone : ∀ u, (Function.update v t (Pc.wait n) u).Waits → u = t := by
      intro u hu
      by_contra hut
      rw [Function.update_of_ne hut] at hu
      exact hnone u hu
    exact fun u w hu hw => (hone u hu).trans (hone w hw).symm
  · rw [Function.update_self]
    trivial
  · intro u
    by_cases hu : u = t
    · subst hu
      rw [Function.update_self]
      exact .inl rfl
    · rw [Function.update_of_ne hu]
      exact Pc.fits_of_not_waits (hnone u)
  · have h : stages (Slot.set n .WAITING) (Function.update v t (.wait n)) =
        stages (Slot.set otheritem .EMPTY) v := by
      rw [stages_update]
      funext u
      by_cases hu : u = t
      · subst hu
        rw [Function.update_self]
        simp [stages, stage, ht]
      · rw [Function.update_of_ne hu]
        exact Pc.stage_of_not_waits (hnone u)
    rw [h]
    exact .silent

/-- The second thread takes the item out and leaves its own. -/
theorem partner (hs : SlotInv (Slot.set otheritem .WAITING) v) (ht : v t = .casWaiting n otheritem) :
    SlotInv (Slot.set n .BUSY) (Function.update v t (.returned otheritem)) ∧
      Change (Slot.set otheritem .WAITING) (.casWaiting n otheritem) t (stages (Slot.set otheritem .WAITING) v)
        (stages (Slot.set n .BUSY) (Function.update v t (.returned otheritem))) := by
  obtain ⟨u, hu⟩ : ∃ u, (v u).Waits := by
    refine hs.empty.resolve_left fun h => ?_
    rw [← Slot.set_none_empty] at h
    exact absurd (Slot.set_inj h).2 (by decide)
  have htw : ¬ (v t).Waits := by rw [ht]; exact id
  have hut : t ≠ u := by
    rintro rfl
    exact htw hu
  have hnot : ∀ w, w ≠ u → ¬ (v w).Waits := fun w hw h => hw (hs.alone w u h hu)
  obtain ⟨hstage, hfits, hstage'⟩ := (hs.fits u).partner (n := n) hu
  refine ⟨⟨?_, .inr ⟨u, ?_⟩, ?_⟩, ?_⟩
  · have hone : ∀ w, (Function.update v t (Pc.returned otheritem) w).Waits → w = u := by
      intro w hw
      by_contra hwu
      by_cases hwt : w = t
      · subst hwt
        rw [Function.update_self] at hw
        exact hw
      · rw [Function.update_of_ne hwt] at hw
        exact hnot w hwu hw
    exact fun a b ha hb => (hone a ha).trans (hone b hb).symm
  · rwa [Function.update_of_ne hut.symm]
  · intro w
    by_cases hwt : w = t
    · subst hwt
      rw [Function.update_self]
      trivial
    · rw [Function.update_of_ne hwt]
      by_cases hwu : w = u
      · rwa [hwu]
      · exact Pc.fits_of_not_waits (hnot w hwu)
  · have h : stages (Slot.set n .BUSY) (Function.update v t (.returned otheritem)) =
        meet (stages (Slot.set otheritem .WAITING) v) t u n otheritem := by
      rw [stages_update]
      funext w
      unfold meet
      by_cases hwu : w = u
      · subst hwu
        rw [Function.update_of_ne hut.symm, Function.update_self]
        exact hstage'
      · rw [Function.update_of_ne hwu]
        by_cases hwt : w = t
        · subst hwt
          rw [Function.update_self, Function.update_self]
          rfl
        · rw [Function.update_of_ne hwt, Function.update_of_ne hwt]
          exact Pc.stage_of_not_waits (hnot w hwu)
    rw [h]
    exact .met hut (by simp [stages, stage, ht]) hstage rfl rfl

/-- The waiter empties the slot. -/
theorem clear (hs : SlotInv data v) (ht : (v t).Waits) (pc : Pc) (hpc : ¬ pc.Waits) :
    SlotInv 0 (Function.update v t pc) ∧
      stages 0 (Function.update v t pc) = Function.update (stages data v) t (stage data pc) := by
  have hnot : ∀ w, w ≠ t → ¬ (v w).Waits := fun w hw h => hw (hs.alone w t h ht)
  have hnone : ∀ w, ¬ (Function.update v t pc w).Waits := by
    intro w
    by_cases hw : w = t
    · subst hw
      rwa [Function.update_self]
    · rw [Function.update_of_ne hw]
      exact hnot w hw
  refine ⟨⟨fun a _ ha => absurd ha (hnone a), .inl rfl, fun w => Pc.fits_of_not_waits (hnone w)⟩, ?_⟩
  rw [← stages_update]
  funext w
  exact Pc.stage_of_not_waits (hnone w)

/-- Every step keeps the invariant of the slot and is silent, a meeting or a failure. -/
theorem exchange {r : UInt64 × Pc} (hs : SlotInv data v) (hp : v t = pc)
    (he : Exchange.exchange data late pc = some r) :
    SlotInv r.1 (Function.update v t r.2) ∧
      Change data pc t (stages data v) (stages r.1 (Function.update v t r.2)) := by
  have hf := hs.fits t
  cases pc with
  | idle | returned m | threw => simp [Exchange.exchange] at he
  | top n =>
    simp only [Exchange.exchange, Option.some.injEq] at he
    subst he
    cases late with
    | true =>
      refine ⟨hs.move (by rw [hp]; exact Iff.rfl) trivial, ?_⟩
      rw [if_pos rfl, stages_update]
      exact .failed (x := n) (by simp [stages, hp, stage])
    | false => exact hs.silent (by rw [hp]; exact Iff.rfl) trivial (by rw [hp]; rfl)
  | get1 n =>
    simp only [Exchange.exchange, Option.some.injEq] at he
    subst he
    exact hs.silent (by rw [hp]; exact Iff.rfl) trivial (by rw [hp]; rfl)
  | get2 n state =>
    simp only [Exchange.exchange, Option.some.injEq] at he
    subst he
    rcases state with - | - | - | - <;>
      exact hs.silent (by rw [hp]; exact Iff.rfl) trivial (by rw [hp]; rfl)
  | casEmpty n other =>
    simp only [Exchange.exchange, Slot.compareAndSet] at he
    by_cases hd : data = Slot.set other .EMPTY
    · rw [if_pos hd] at he
      cases he
      subst hd
      exact hs.offer hp
    · rw [if_neg hd] at he
      cases he
      exact hs.silent (by rw [hp]; exact Iff.rfl) trivial (by rw [hp]; rfl)
  | casWaiting n other =>
    simp only [Exchange.exchange, Slot.compareAndSet] at he
    by_cases hd : data = Slot.set other .WAITING
    · rw [if_pos hd] at he
      cases he
      subst hd
      exact hs.partner hp
    · rw [if_neg hd] at he
      cases he
      exact hs.silent (by rw [hp]; exact Iff.rfl) trivial (by rw [hp]; rfl)
  | wait n =>
    simp only [Exchange.exchange, Option.some.injEq] at he
    subst he
    rw [hp] at hf
    cases late <;> exact hs.silent (by rw [hp]; exact Iff.rfl) hf (by rw [hp]; rfl)
  | waitGet1 n =>
    simp only [Exchange.exchange, Option.some.injEq] at he
    subst he
    rw [hp] at hf
    refine hs.silent (by rw [hp]; exact Iff.rfl) ?_ (by rw [hp]; rfl)
    exact hf.imp_left fun h => ⟨h, by rw [h, Slot.getState_set]; decide⟩
  | waitGet2 n state =>
    simp only [Exchange.exchange, Option.some.injEq] at he
    subst he
    rw [hp] at hf
    by_cases hst : state = some .BUSY
    · -- the state was read before the item, but a busy slot is busy until the reset
      obtain ⟨r, hr⟩ := hf.resolve_left fun h => h.2 hst
      rw [if_pos hst]
      subst hr
      exact hs.silent (by rw [hp]; exact Iff.rfl) (by simp [Pc.Fits]) (by rw [hp]; rfl)
    · rw [if_neg hst]
      exact hs.silent (by rw [hp]; exact Iff.rfl) (hf.imp_left And.left) (by rw [hp]; rfl)
  | cancel n =>
    simp only [Exchange.exchange, Slot.compareAndSet] at he
    rw [hp] at hf
    by_cases hd : data = Slot.set n .WAITING
    · rw [if_pos hd] at he
      cases he
      obtain ⟨hs', hst⟩ := hs.clear (t := t) (by rw [hp]; trivial) .threw id
      refine ⟨hs', ?_⟩
      rw [Slot.set_none_empty, hst]
      exact .failed (x := n) (by simp [stages, hp, stage, hd])
    · rw [if_neg hd] at he
      cases he
      exact hs.silent (by rw [hp]; exact Iff.rfl) (hf.resolve_left hd) (by rw [hp]; rfl)
  | lastGet1 n =>
    simp only [Exchange.exchange, Option.some.injEq] at he
    subst he
    rw [hp] at hf
    exact hs.silent (by rw [hp]; exact Iff.rfl) hf (by rw [hp]; rfl)
  | lastGet2 n =>
    simp only [Exchange.exchange, Option.some.injEq] at he
    subst he
    rw [hp] at hf
    obtain ⟨r, rfl⟩ := hf
    exact hs.silent (by rw [hp]; exact Iff.rfl) (by simp [Pc.Fits]) (by rw [hp]; rfl)
  | reset n other =>
    simp only [Exchange.exchange, Option.some.injEq] at he
    subst he
    rw [hp] at hf
    obtain ⟨hs', hst⟩ := hs.clear (t := t) (by rw [hp]; trivial) (.returned other) id
    refine ⟨hs', ?_⟩
    -- the item in the slot is the one that was read from it
    have howed : stage data (.returned other) = stages data v t := by
      rw [show data = Slot.set other .BUSY from hf]
      simp [stages, hp, stage]
    rw [Slot.set_none_empty, hst, howed, Function.update_eq_self]
    exact .silent

end SlotInv

/-! ### Any number of threads on one exchanger -/

structure State (T : Type*) where
  data : UInt64
  pc : T → Pc

inductive Action (T : Type*)
  | call (t : T) (n : Option Node) | exec (t : T) (late : Bool) | ret (t : T)

/-- How the call of a thread is about to end. -/
def Pc.outcome : Pc → Option (Outcome (Option Node))
  | .returned otheritem => some (.returned otheritem)
  | .threw => some .threw
  | _ => none

section Exchanger
variable [DecidableEq T]

def State.step (s : State T) : Action T → Option (State T)
  | .call t n => if s.pc t = .idle then some { s with pc := Function.update s.pc t (.top n) } else none
  | .exec t late => (Exchange.exchange s.data late (s.pc t)).map fun r =>
      ⟨r.1, Function.update s.pc t r.2⟩
  | .ret t => (s.pc t).outcome.map fun _ => { s with pc := Function.update s.pc t .idle }

def State.shows (s : State T) : Action T → List (Event T (Option Node) (Outcome (Option Node)))
  | .call t n => [.call t n]
  | .exec _ _ => []
  | .ret t => ((s.pc t).outcome.map (Event.ret t)).toList

def exchanger (T : Type*) [DecidableEq T] :
    Program (State T) (Action T) (Event T (Option Node) (Outcome (Option Node))) :=
  ⟨State.step, State.shows⟩

def initial (T : Type*) : State T := ⟨0, fun _ => .idle⟩

/-- The rendezvous stands at `v` when the exchanger is in `s`. -/
structure Sim (s : State T) (v : T → Stage (Option Node)) : Prop where
  slot : SlotInv s.data s.pc
  same : v = stages s.data s.pc

omit [DecidableEq T] in
theorem stage_outcome (data : UInt64) {pc : Pc} {o : Outcome (Option Node)} (h : pc.outcome = some o) :
    (stage data pc).outcome = some o ∧ ¬ pc.Waits := by
  cases pc <;> cases h <;> exact ⟨rfl, id⟩

/-- A change of the stages is an action of the rendezvous, or none. -/
theorem Change.run {data : UInt64} {pc : Pc} {t : T} {v w : T → Stage (Option Node)}
    (hc : Change data pc t v w) :
    Run (rendezvous T (Option Node)) Free v [] w := by
  cases hc with
  | silent => exact .refl
  | met htu ht hu _ _ => exact rendezvous_meet htu ht hu
  | failed ht => exact rendezvous_fail ht

theorem Sim.step {s s' : State T} {v : T → Stage (Option Node)} {a : Action T} (hs : Sim s v)
    (ha : s.step a = some s') :
    ∃ w, Run (rendezvous T (Option Node)) Free v (s.shows a) w ∧ Sim s' w := by
  obtain ⟨hslot, rfl⟩ := hs
  cases a with
  | call t n =>
    simp only [State.step, Option.ite_none_right_eq_some, Option.some.injEq] at ha
    obtain ⟨ht, rfl⟩ := ha
    refine ⟨_, ?_, hslot.move (by rw [ht]; exact Iff.rfl) trivial, rfl⟩
    rw [SlotInv.stages_update]
    exact rendezvous_call (by simp only [stages, ht, stage]) n
  | exec t late =>
    simp only [State.step, Option.map_eq_some_iff] at ha
    obtain ⟨r, hr, rfl⟩ := ha
    obtain ⟨hslot', hc⟩ := hslot.exchange rfl hr
    exact ⟨_, hc.run, hslot', rfl⟩
  | ret t =>
    simp only [State.step, Option.map_eq_some_iff] at ha
    obtain ⟨o, ho, rfl⟩ := ha
    obtain ⟨hst, hw⟩ := stage_outcome s.data ho
    refine ⟨_, ?_, hslot.move (iff_of_false id hw) trivial, rfl⟩
    rw [SlotInv.stages_update]
    simp only [State.shows, ho]
    exact rendezvous_ret hst

/-- Every run of the exchanger is followed by the rendezvous. -/
theorem Sim.run {s s' : State T} {v : T → Stage (Option Node)} {h : List (Event T (Option Node)
    (Outcome (Option Node)))} (hs : Sim s v) (hr : Run (exchanger T) Free s h s') :
    ∃ w, Run (rendezvous T (Option Node)) Free v h w ∧ Sim s' w :=
  hr.simulate Sim hs fun _ _ _ _ hx _ ha => hx.step ha

omit [DecidableEq T] in
theorem Sim.initial : Sim (initial T) fun _ => .idle := ⟨.initial, rfl⟩

/-- The calls of `exchange` that return normally fall into pairs of overlapping calls,
each of which returns, or is owed and in no continuation returns anything but, the item
of the other; a call that throws is in no pair. -/
theorem exchange_pairs_calls {h : List (Event T (Option Node) (Outcome (Option Node)))} {s : State T}
    (hr : Run (exchanger T) Free (initial T) h s) :
    ∃ mate, Matching h mate ∧
      (∀ p q t x u y, mate p = some q → Open h p t x → h[q]? = some (.call u y) →
        stage s.data (s.pc t) = .owed y) ∧
      ∀ h' s', Run (exchanger T) Free s h' s' →
        ∃ mate', Matching (h ++ h') mate' ∧ ∀ p q, mate p = some q → mate' p = some q := by
  obtain ⟨v, hv, hs⟩ := Sim.initial.run hr
  obtain ⟨mate, hm, -⟩ := Matched.initial.run hv
  rw [List.nil_append] at hm
  refine ⟨mate, hm.matching, ?_, ?_⟩
  · intro p q t x u y hpq hp hq
    rw [← hm.owed hpq hp hq, hs.same]
    rfl
  · intro h' s' hr'
    obtain ⟨w, hw, -⟩ := hs.run hr'
    obtain ⟨mate', hm', hle⟩ := hm.run hw
    exact ⟨mate', hm'.matching, hle⟩

/-- A waiter, a partner that has returned, and a third call that came too late and threw. -/
theorem exchange_pairs_calls_late : ∃ (h : List (Event (Fin 3) (Option Node) (Outcome (Option Node))))
    (s : State (Fin 3)) (mate : ℕ → Option ℕ), Run (exchanger (Fin 3)) Free (initial (Fin 3)) h s ∧
      h = [.call 0 none, .call 1 (some ⟨64, rfl, by decide⟩), .ret 1 (.returned none), .call 2 none,
        .ret 2 .threw] ∧ mate 1 = some 0 ∧ mate 3 = none := by
  obtain ⟨h, s, hr, ht⟩ := exists_run_of_exec (P := exchanger (Fin 3)) (C := Free) (s := initial (Fin 3))
    [.call 0 none, .exec 0 false, .exec 0 false, .exec 0 false, .exec 0 false,
      .call 1 (some ⟨64, rfl, by decide⟩), .exec 1 false, .exec 1 false, .exec 1 false, .exec 1 false,
      .ret 1, .call 2 none, .exec 2 true, .ret 2]
    (fun h _ => h == [.call 0 none, .call 1 (some ⟨64, rfl, by decide⟩), .ret 1 (.returned none),
      .call 2 none, .ret 2 .threw]) (by decide)
  rw [beq_iff_eq] at ht
  obtain ⟨mate, hm, -, -⟩ := exchange_pairs_calls hr
  have h1 : Returns h 1 1 2 (.returned none) := by
    rw [ht]
    exact ⟨by decide, rfl, ⟨_, rfl⟩, by omega⟩
  have h3 : Returns h 2 3 4 .threw := by
    rw [ht]
    exact ⟨by decide, rfl, ⟨none, rfl⟩, by omega⟩
  refine ⟨h, s, mate, hr, ht, ?_, hm.threw 2 3 4 h3⟩
  obtain ⟨q, hq⟩ := Option.ne_none_iff_exists'.mp (hm.returned 1 1 2 none h1)
  obtain ⟨t, x, u, y, htu, hp, hcall, hret⟩ := hm.pair 1 q hq
  have hcall1 : h[1]? = some (.call 1 (some ⟨64, rfl, by decide⟩)) := by rw [ht]; rfl
  obtain ⟨rfl, -⟩ := call_inj hp hcall1
  have hlt := (hret 2 _ h1).1
  have hne : q ≠ 1 := fun h => htu (call_inj hp (h ▸ hcall)).1
  rw [hq, Option.some.injEq]
  omega

end Exchanger

end Multicore.Exchange
