import Multicore.Exchange.Exchanger

/-! Every way out of `exchange` gives the slot back. Whoever swaps an item into the
empty slot is alone with the duty to empty it again, by the store or by the
cancelling swap, and until then nobody else can empty it or offer an item in it. A
ledger beside the exchanger notes which call wrote the item that is in the slot and
which calls threw; no call is both. -/

namespace Multicore.Exchange

open Runs

/-- The thread is in the outer loop and has not put its item anywhere. -/
def Pc.Offers : Pc → Prop
  | .top _ | .get1 _ | .get2 _ _ | .casEmpty _ _ | .casWaiting _ _ => True
  | _ => False

namespace Pc
variable {pc : Pc}

theorem Offers.not_waits (h : pc.Offers) : ¬ pc.Waits := by
  cases pc <;> first | exact id | exact h.elim

theorem Waits.not_offers (h : pc.Waits) : ¬ pc.Offers := fun ho => ho.not_waits h

end Pc

/-- What a step of `exchange` from `pc` on the word `data` may do. -/
inductive Access (data : UInt64) : Pc → UInt64 × Pc → Prop
  | looks {pc pc' : Pc} : pc.Offers → (pc'.Offers ∨ pc' = .threw) → Access data pc (data, pc')
  | waits {pc pc' : Pc} : pc.Waits → pc'.Waits → Access data pc (data, pc')
  | installs {n otheritem : Option Node} : data = Slot.set otheritem .EMPTY →
      Access data (.casEmpty n otheritem) (Slot.set n .WAITING, .wait n)
  | joins {n otheritem : Option Node} : data = Slot.set otheritem .WAITING →
      Access data (.casWaiting n otheritem) (Slot.set n .BUSY, .returned otheritem)
  | clears {pc pc' : Pc} : pc.Waits → (pc' = .threw ∨ ∃ otheritem, pc' = .returned otheritem) →
      Access data pc (0, pc')

theorem exchange_access {data : UInt64} {late : Bool} {pc : Pc} {r : UInt64 × Pc}
    (he : exchange data late pc = some r) : Access data pc r := by
  cases pc with
  | idle | returned m | threw => simp [exchange] at he
  | top n =>
    simp only [exchange, Option.some.injEq] at he
    subst he
    cases late with
    | true => exact .looks trivial (.inr rfl)
    | false => exact .looks trivial (.inl trivial)
  | get1 n =>
    simp only [exchange, Option.some.injEq] at he
    subst he
    exact .looks trivial (.inl trivial)
  | get2 n state =>
    simp only [exchange, Option.some.injEq] at he
    subst he
    rcases state with - | - | - | - <;> exact .looks trivial (.inl trivial)
  | casEmpty n other =>
    simp only [exchange, Slot.compareAndSet] at he
    by_cases hd : data = Slot.set other .EMPTY
    · rw [if_pos hd] at he
      cases he
      exact .installs hd
    · rw [if_neg hd] at he
      cases he
      exact .looks trivial (.inl trivial)
  | casWaiting n other =>
    simp only [exchange, Slot.compareAndSet] at he
    by_cases hd : data = Slot.set other .WAITING
    · rw [if_pos hd] at he
      cases he
      exact .joins hd
    · rw [if_neg hd] at he
      cases he
      exact .looks trivial (.inl trivial)
  | wait n =>
    simp only [exchange, Option.some.injEq] at he
    subst he
    cases late <;> exact .waits trivial trivial
  | waitGet1 n | lastGet1 n | lastGet2 n =>
    simp only [exchange, Option.some.injEq] at he
    subst he
    exact .waits trivial trivial
  | waitGet2 n state =>
    simp only [exchange, Option.some.injEq] at he
    subst he
    by_cases hst : state = some .BUSY
    · rw [if_pos hst]
      exact .waits trivial trivial
    · rw [if_neg hst]
      exact .waits trivial trivial
  | cancel n =>
    simp only [exchange, Slot.compareAndSet] at he
    by_cases hd : data = Slot.set n .WAITING
    · rw [if_pos hd] at he
      cases he
      exact .clears trivial (.inl rfl)
    · rw [if_neg hd] at he
      cases he
      exact .waits trivial trivial
  | reset n other =>
    simp only [exchange, Option.some.injEq] at he
    subst he
    exact .clears trivial (.inr ⟨other, rfl⟩)

/-! ### Who holds the slot -/

namespace SlotInv
variable {T : Type*} {data : UInt64} {v : T → Pc} {t : T}

theorem ne_zero (hs : SlotInv data v) (ht : (v t).Waits) : data ≠ 0 := by
  rw [← Slot.set_none_empty]
  exact (hs.fits t).ne_empty ht

/-- The word is not 0 exactly while one thread waits. -/
theorem ne_zero_iff (hs : SlotInv data v) : data ≠ 0 ↔ ∃! t, (v t).Waits := by
  constructor
  · intro hd
    obtain ⟨t, ht⟩ := hs.empty.resolve_left hd
    exact ⟨t, ht, fun u hu => hs.alone u t hu ht⟩
  · rintro ⟨t, ht, -⟩
    exact hs.ne_zero ht

/-- Nobody waits on a word that says empty, and so it is 0. -/
theorem eq_zero (hs : SlotInv data v) {n : Option Node} (hd : data = Slot.set n .EMPTY) : data = 0 :=
  hs.empty.resolve_right fun ⟨t, ht⟩ => (hs.fits t).ne_empty ht hd

theorem getState_ne_empty_iff (hs : SlotInv data v) : Slot.getState data ≠ some .EMPTY ↔ data ≠ 0 := by
  constructor
  · rintro hd rfl
    exact hd (Slot.getState_set none .EMPTY)
  · intro hd
    obtain ⟨t, ht⟩ := hs.empty.resolve_left hd
    rcases (hs.fits t).waiting_or_busy ht with ⟨n, rfl⟩ | ⟨n, rfl⟩ <;>
      rw [Slot.getState_set] <;> decide

end SlotInv

section Exchanger
variable {T : Type*} [DecidableEq T]

/-- The slot changes hands: what the step `a` from `s` to `u` may do to it and to who waits. -/
structure Hands (s : State T) (a : Action T) (u : State T) : Prop where
  /-- A thread begins to wait by its swap from `EMPTY` to `WAITING`. -/
  taken : ∀ t, ¬ (s.pc t).Waits → (u.pc t).Waits → ∃ n otheritem late, a = .exec t late ∧
    s.pc t = .casEmpty n otheritem ∧ s.data = 0 ∧ u.data = Slot.set n .WAITING
  /-- It ceases to by its own store or cancelling swap, which empties the slot. -/
  given : ∀ t, (s.pc t).Waits → ¬ (u.pc t).Waits → ∃ late, a = .exec t late ∧ u.data = 0
  /-- Until then the others can only swap an item into the place of the one that is offered. -/
  kept : ∀ t, (s.pc t).Waits → (u.pc t).Waits → u.data = s.data ∨
    ∃ n r, s.data = Slot.set n .WAITING ∧ u.data = Slot.set r .BUSY

omit [DecidableEq T] in
/-- A step that lets everybody wait on who waits. -/
theorem Hands.of_iff {s u : State T} {a : Action T} (hw : ∀ t, (u.pc t).Waits ↔ (s.pc t).Waits)
    (hd : u.data = s.data ∨ ∃ n r, s.data = Slot.set n .WAITING ∧ u.data = Slot.set r .BUSY) :
    Hands s a u :=
  ⟨fun t h h' => absurd ((hw t).mp h') h, fun t h h' => absurd ((hw t).mpr h) h', fun _ _ _ => hd⟩

theorem waits_update {v : T → Pc} {t : T} {pc : Pc} (h : pc.Waits ↔ (v t).Waits) (u : T) :
    (Function.update v t pc u).Waits ↔ (v u).Waits := by
  by_cases hu : u = t
  · subst hu
    rwa [Function.update_self]
  · rw [Function.update_of_ne hu]

theorem SlotInv.hands {s u : State T} {a : Action T} (hs : SlotInv s.data s.pc)
    (ha : s.step a = some u) : Hands s a u := by
  cases a with
  | call t n =>
    simp only [State.step, Option.ite_none_right_eq_some, Option.some.injEq] at ha
    obtain ⟨ht, rfl⟩ := ha
    exact .of_iff (waits_update (by rw [ht]; exact Iff.rfl)) (.inl rfl)
  | ret t =>
    simp only [State.step, Option.map_eq_some_iff] at ha
    obtain ⟨o, ho, rfl⟩ := ha
    exact .of_iff (waits_update (iff_of_false id (stage_outcome s.data ho).2)) (.inl rfl)
  | exec t late =>
    simp only [State.step, Option.map_eq_some_iff] at ha
    obtain ⟨r, hr, rfl⟩ := ha
    have hacc := exchange_access hr
    generalize hp : s.pc t = pc at hacc
    cases hacc with
    | @looks pc pc' ho ho' =>
      refine .of_iff (waits_update ?_) (.inl rfl)
      rw [hp]
      refine iff_of_false ?_ ho.not_waits
      rcases ho' with ho' | rfl
      · exact ho'.not_waits
      · exact id
    | waits hw hw' => exact .of_iff (waits_update (iff_of_true hw' (hp ▸ hw))) (.inl rfl)
    | joins hd =>
      exact .of_iff (waits_update (by rw [hp]; exact Iff.rfl)) (.inr ⟨_, _, hd, rfl⟩)
    | @installs n other hd =>
      have hnone : ∀ u, ¬ (s.pc u).Waits := fun u hu => (hs.fits u).ne_empty hu hd
      refine ⟨?_, fun u hu => absurd hu (hnone u), fun u hu => absurd hu (hnone u)⟩
      intro u hu hu'
      by_cases hut : u = t
      · subst hut
        exact ⟨n, other, late, rfl, hp, hs.eq_zero hd, rfl⟩
      · simp only [Function.update_of_ne hut] at hu'
        exact absurd hu' hu
    | @clears pc pc' hw hw' =>
      have hpc' : ¬ pc'.Waits := by rcases hw' with rfl | ⟨o, rfl⟩ <;> exact id
      have hone : ∀ u, (s.pc u).Waits → u = t := fun u hu => hs.alone u t hu (hp ▸ hw)
      refine ⟨?_, ?_, ?_⟩
      · intro u hu hu'
        by_cases hut : u = t
        · subst hut
          exact absurd (hp ▸ hw) hu
        · simp only [Function.update_of_ne hut] at hu'
          exact absurd hu' hu
      · intro u hu _
        obtain rfl := hone u hu
        exact ⟨late, rfl, rfl⟩
      · intro u hu hu'
        obtain rfl := hone u hu
        simp only [Function.update_self] at hu'
        exact absurd hu' hpc'

/-! ### The ledger -/

/-- The number of the present call of each thread, the call that wrote the item in the
slot, and the calls that threw. -/
structure Ledger (T : Type*) where
  calls : T → ℕ
  writer : Option (T × ℕ)
  thrown : List (T × ℕ)

def Ledger.initial (T : Type*) : Ledger T := ⟨fun _ => 0, none, []⟩

def Ledger.next (l : Ledger T) (s : State T) (a : Action T) (u : State T) : Ledger T :=
  match a with
  | .call t _ => { l with calls := Function.update l.calls t (l.calls t + 1) }
  | .exec t _ => {
      calls := l.calls
      writer := if u.data = s.data then l.writer else if u.data = 0 then none else some (t, l.calls t)
      thrown := if u.pc t = .threw then (t, l.calls t) :: l.thrown else l.thrown }
  | .ret _ => l

/-- A call that wrote the item in the slot is past its swap; one that threw is at its end. -/
structure Ledger.Inv (data : UInt64) (v : T → Pc) (l : Ledger T) : Prop where
  writer : data = 0 ↔ l.writer = none
  wrote : ∀ t k, l.writer = some (t, k) → k ≤ l.calls t ∧ (k = l.calls t → ¬ (v t).Offers)
  threw : ∀ t k, (t, k) ∈ l.thrown → k ≤ l.calls t ∧ (k = l.calls t → v t = .threw ∨ v t = .idle)
  apart : ∀ c ∈ l.thrown, l.writer ≠ some c

namespace Ledger.Inv
variable {data data' : UInt64} {v : T → Pc} {l : Ledger T} {t : T} {pc : Pc}

omit [DecidableEq T] in
theorem initial : Inv 0 (fun _ : T => .idle) (Ledger.initial T) :=
  ⟨iff_of_true rfl rfl, fun _ _ h => (nomatch h), fun _ _ h => (nomatch h), fun _ h => (nomatch h)⟩

omit [DecidableEq T] in
theorem not_wrote (hl : Inv data v l) (ht : (v t).Offers) : l.writer ≠ some (t, l.calls t) :=
  fun h => (hl.wrote t _ h).2 rfl ht

omit [DecidableEq T] in
theorem not_thrown (hl : Inv data v l) (ht : (v t).Offers ∨ (v t).Waits) :
    (t, l.calls t) ∉ l.thrown := by
  intro h
  rcases (hl.threw t _ h).2 rfl with hp | hp <;> rw [hp] at ht <;> exact ht.elim id id

/-- A step of the present call of `t`, which may become the writer, or throw, but not both. -/
theorem move {w : Option (T × ℕ)} {th : List (T × ℕ)} (hl : Inv data v l) (hd : data' = 0 ↔ w = none)
    (hw : ∀ c, w = some c → l.writer = some c ∨ c = (t, l.calls t))
    (hth : ∀ c ∈ th, c ∈ l.thrown ∨ c = (t, l.calls t))
    (hwt : w = some (t, l.calls t) → ¬ pc.Offers)
    (htt : (t, l.calls t) ∈ th → (pc = .threw ∨ pc = .idle) ∧ w ≠ some (t, l.calls t)) :
    Inv data' (Function.update v t pc) ⟨l.calls, w, th⟩ := by
  have hold : ∀ u k, (u, k) ≠ (t, l.calls t) → k = l.calls u → u ≠ t := by
    rintro u k hne rfl rfl
    exact hne rfl
  refine ⟨hd, ?_, ?_, ?_⟩
  · intro u k hk
    by_cases hc : (u, k) = (t, l.calls t)
    · obtain ⟨rfl, rfl⟩ := Prod.mk.inj hc
      rw [Function.update_self]
      exact ⟨Nat.le_refl _, fun _ => hwt hk⟩
    · have h := hl.wrote u k ((hw _ hk).resolve_right hc)
      refine ⟨h.1, fun he => ?_⟩
      rw [Function.update_of_ne (hold u k hc he)]
      exact h.2 he
  · intro u k hk
    by_cases hc : (u, k) = (t, l.calls t)
    · obtain ⟨rfl, rfl⟩ := Prod.mk.inj hc
      rw [Function.update_self]
      exact ⟨Nat.le_refl _, fun _ => (htt hk).1⟩
    · have h := hl.threw u k ((hth _ hk).resolve_right hc)
      refine ⟨h.1, fun he => ?_⟩
      rw [Function.update_of_ne (hold u k hc he)]
      exact h.2 he
  · intro c hc hwc
    by_cases hct : c = (t, l.calls t)
    · subst hct
      exact (htt hc).2 hwc
    · exact hl.apart c ((hth c hc).resolve_right hct) ((hw c hwc).resolve_right hct)

/-- A new call has written nothing and not thrown. -/
theorem call (hl : Inv data v l) (n : Option Node) :
    Inv data (Function.update v t (.top n)) { l with calls := Function.update l.calls t (l.calls t + 1) } := by
  have hcalls : ∀ u, l.calls u ≤ Function.update l.calls t (l.calls t + 1) u ∧
      (u = t → l.calls u < Function.update l.calls t (l.calls t + 1) u) := by
    intro u
    by_cases hut : u = t
    · subst hut
      rw [Function.update_self]
      exact ⟨Nat.le_succ _, fun _ => Nat.lt_succ_self _⟩
    · rw [Function.update_of_ne hut]
      exact ⟨Nat.le_refl _, fun h => absurd h hut⟩
  refine ⟨hl.writer, ?_, ?_, hl.apart⟩
  · intro u k hk
    obtain ⟨hle, hoff⟩ := hl.wrote u k hk
    refine ⟨Nat.le_trans hle (hcalls u).1, fun he => ?_⟩
    by_cases hut : u = t
    · exact absurd he (Nat.ne_of_lt (Nat.lt_of_le_of_lt hle ((hcalls u).2 hut)))
    · simp only [Function.update_of_ne hut] at he ⊢
      exact hoff he
  · intro u k hk
    obtain ⟨hle, hend⟩ := hl.threw u k hk
    refine ⟨Nat.le_trans hle (hcalls u).1, fun he => ?_⟩
    by_cases hut : u = t
    · exact absurd he (Nat.ne_of_lt (Nat.lt_of_le_of_lt hle ((hcalls u).2 hut)))
    · simp only [Function.update_of_ne hut] at he ⊢
      exact hend he

theorem ret (hl : Inv data v l) : Inv data (Function.update v t .idle) l := by
  refine hl.move (t := t) hl.writer (fun _ => .inl) (fun _ => .inl) (fun _ => id) fun h => ?_
  exact ⟨.inr rfl, hl.apart _ h⟩

theorem exec {r : UInt64 × Pc} {s : State T} (late : Bool) (hl : Inv s.data s.pc l)
    (hs : SlotInv s.data s.pc) (ha : Access s.data (s.pc t) r) :
    Inv r.1 (Function.update s.pc t r.2)
      (l.next s (.exec t late) ⟨r.1, Function.update s.pc t r.2⟩) := by
  have hzero : ∀ n, Slot.set n .WAITING ≠ 0 ∧ Slot.set n .BUSY ≠ 0 := by
    intro n
    rw [← Slot.set_none_empty]
    exact ⟨fun h => absurd (Slot.set_inj h).2 (by decide), fun h => absurd (Slot.set_inj h).2 (by decide)⟩
  simp only [Ledger.next, Function.update_self]
  generalize hp : s.pc t = pc at ha
  cases ha with
  | @looks pc pc' ho ho' =>
    rw [if_pos rfl]
    have hnew : ¬ (l.writer = some (t, l.calls t)) := hl.not_wrote (hp ▸ ho)
    have hth : (t, l.calls t) ∉ l.thrown := hl.not_thrown (.inl (hp ▸ ho))
    refine hl.move hl.writer (fun _ => .inl) ?_ (fun h => absurd h hnew) ?_
    · intro c hc
      split at hc
      · exact (List.mem_cons.mp hc).symm
      · exact .inl hc
    · intro h
      split at h
      · exact ⟨.inl ‹_›, hnew⟩
      · exact absurd h hth
  | @waits pc pc' hw hw' =>
    have hth : (t, l.calls t) ∉ l.thrown := hl.not_thrown (.inr (hp ▸ hw))
    have hne : pc' ≠ .threw := by
      rintro rfl
      exact hw'
    rw [if_pos rfl, if_neg hne]
    exact hl.move hl.writer (fun _ => .inl) (fun _ => .inl) (fun _ => hw'.not_offers)
      fun h => absurd h hth
  | @installs n other hd =>
    have hth : (t, l.calls t) ∉ l.thrown := hl.not_thrown (.inl (by rw [hp]; trivial))
    have hne : Slot.set n .WAITING ≠ s.data := by
      rw [hs.eq_zero hd]
      exact (hzero n).1
    rw [if_neg hne, if_neg (hzero n).1, if_neg (by nofun)]
    exact hl.move (iff_of_false (hzero n).1 nofun) (fun _ h => .inr (Option.some.inj h).symm)
      (fun _ => .inl) (fun _ => id) fun h => absurd h hth
  | @joins n other hd =>
    have hth : (t, l.calls t) ∉ l.thrown := hl.not_thrown (.inl (by rw [hp]; trivial))
    have hne : Slot.set n .BUSY ≠ s.data := by
      rw [hd]
      exact fun h => absurd (Slot.set_inj h).2 (by decide)
    rw [if_neg hne, if_neg (hzero n).2, if_neg (by nofun)]
    exact hl.move (iff_of_false (hzero n).2 nofun) (fun _ h => .inr (Option.some.inj h).symm)
      (fun _ => .inl) (fun _ => id) fun h => absurd h hth
  | @clears pc pc' hw hw' =>
    have hth : (t, l.calls t) ∉ l.thrown := hl.not_thrown (.inr (hp ▸ hw))
    have hne : 0 ≠ s.data := (hs.ne_zero (hp ▸ hw : (s.pc t).Waits)).symm
    rw [if_neg hne, if_pos rfl]
    refine hl.move (iff_of_true rfl rfl) (fun _ h => (nomatch h)) ?_ (fun h => (nomatch h)) ?_
    · intro c hc
      split at hc
      · exact (List.mem_cons.mp hc).symm
      · exact .inl hc
    · intro h
      split at h
      · exact ⟨.inl ‹_›, fun h => (nomatch h)⟩
      · exact absurd h hth

end Ledger.Inv

/-- The slot and the ledger of a state of the exchanger are in order. -/
structure Settled (x : State T × Ledger T) : Prop where
  slot : SlotInv x.1.data x.1.pc
  ledger : Ledger.Inv x.1.data x.1.pc x.2

theorem Settled.step {x y : State T × Ledger T} {a : Action T} (hx : Settled x)
    (ha : ((exchanger T).ghost Ledger.next).step x a = some y) : Settled y := by
  obtain ⟨s, l⟩ := x
  obtain ⟨u, k⟩ := y
  obtain ⟨hslot, hl⟩ := hx
  obtain ⟨hu, hk⟩ := ghost_step ha
  obtain rfl : k = l.next s a u := hk
  obtain ⟨_, -, hs'⟩ := (Sim.mk hslot rfl).step hu
  refine ⟨hs'.slot, ?_⟩
  cases a with
  | call t n =>
    simp only [exchanger, State.step, Option.ite_none_right_eq_some, Option.some.injEq] at hu
    obtain ⟨-, rfl⟩ := hu
    exact hl.call n
  | exec t late =>
    simp only [exchanger, State.step, Option.map_eq_some_iff] at hu
    obtain ⟨r, hr, rfl⟩ := hu
    exact hl.exec late hslot (exchange_access hr)
  | ret t =>
    simp only [exchanger, State.step, Option.map_eq_some_iff] at hu
    obtain ⟨o, -, rfl⟩ := hu
    exact hl.ret

theorem Settled.run {h : List (Event T (Option Node) (Outcome (Option Node)))} {s : State T} {l : Ledger T}
    (hr : Run ((exchanger T).ghost Ledger.next) Free (initial T, Ledger.initial T) h (s, l)) :
    Settled (s, l) :=
  hr.always (I := Settled) ⟨.initial, .initial⟩ fun _ _ _ hx _ ha => hx.step ha

/-- All runs of the exchanger are runs with a ledger. -/
theorem exists_ledger_iff {h : List (Event T (Option Node) (Outcome (Option Node)))} {s : State T} :
    (∃ l, Run ((exchanger T).ghost Ledger.next) Free (initial T, Ledger.initial T) h (s, l)) ↔
      Run (exchanger T) Free (initial T) h s := Run.ghost_iff

/-- In every state of an exchanger the slot is not empty exactly while one thread waits in
it; the slot changes hands only as that thread puts it; a call that threw has not written
the item in the slot; and when no call is in progress the word is 0. -/
theorem exchange_gives_slot_back {h : List (Event T (Option Node) (Outcome (Option Node)))} {s : State T}
    {l : Ledger T}
    (hr : Run ((exchanger T).ghost Ledger.next) Free (initial T, Ledger.initial T) h (s, l)) :
    (Slot.getState s.data ≠ some .EMPTY ↔ ∃! t, (s.pc t).Waits) ∧
      (∀ a u, s.step a = some u → Hands s a u) ∧
      (s.data = 0 ↔ l.writer = none) ∧ (∀ c ∈ l.thrown, l.writer ≠ some c) ∧
      ((∀ t, s.pc t = .idle) → s.data = 0) := by
  obtain ⟨hslot, hl⟩ := Settled.run hr
  refine ⟨hslot.getState_ne_empty_iff.trans hslot.ne_zero_iff, fun a u => hslot.hands, hl.writer,
    hl.apart, ?_⟩
  intro hidle
  refine hslot.empty.resolve_right ?_
  rintro ⟨t, ht⟩
  rw [hidle t] at ht
  exact ht

/-- A call puts its node into the slot and waits there; it is left alone and cancels, and the slot is
empty when it is back. -/
theorem exchange_gives_slot_back_cancelled :
    ∃ (h k : List (Event (Fin 2) (Option Node) (Outcome (Option Node)))) (s u : State (Fin 2))
      (l m : Ledger (Fin 2)), Run ((exchanger (Fin 2)).ghost Ledger.next) Free
        (initial (Fin 2), Ledger.initial (Fin 2)) h (s, l) ∧
      s.data = Slot.set (some ⟨64, rfl, by decide⟩) .WAITING ∧ l.writer = some (0, 1) ∧ (∃! t, (s.pc t).Waits) ∧
      Run ((exchanger (Fin 2)).ghost Ledger.next) Free (s, l) k (u, m) ∧
      m.thrown = [(0, 1)] ∧ m.writer ≠ some (0, 1) ∧ (∀ t, u.pc t = .idle) ∧ u.data = 0 := by
  obtain ⟨h, ⟨s, l⟩, hr, ht⟩ := exists_run_of_exec (P := (exchanger (Fin 2)).ghost Ledger.next) (C := Free)
    (s := (initial (Fin 2), Ledger.initial (Fin 2)))
    [.call 0 (some ⟨64, rfl, by decide⟩), .exec 0 false, .exec 0 false, .exec 0 false, .exec 0 false]
    (fun _ (x : State (Fin 2) × Ledger (Fin 2)) =>
      (x.1.data == Slot.set (some ⟨64, rfl, by decide⟩) .WAITING && x.2.writer == some (0, 1)) &&
        (((exchanger (Fin 2)).ghost Ledger.next).exec Free x [.exec 0 true, .exec 0 true, .ret 0]).any
          fun (_, (x : State (Fin 2) × Ledger (Fin 2))) =>
            x.2.thrown == [(0, 1)] && decide (∀ t, x.1.pc t = .idle)) (by decide)
  simp only [Bool.and_eq_true, beq_iff_eq] at ht
  obtain ⟨⟨hdata, hwriter⟩, hcancel⟩ := ht
  obtain ⟨k, ⟨u, m⟩, hu, hend⟩ := exists_run_of_exec _ (fun _ (x : State (Fin 2) × Ledger (Fin 2)) =>
    x.2.thrown == [(0, 1)] && decide (∀ t, x.1.pc t = .idle)) hcancel
  rw [Bool.and_eq_true, beq_iff_eq, decide_eq_true_iff] at hend
  have hone := (exchange_gives_slot_back hr).1.mp (by rw [hdata, Slot.getState_set]; decide)
  obtain ⟨-, -, -, hw, hidle⟩ := exchange_gives_slot_back (hr.trans hu)
  exact ⟨h, k, s, u, l, m, hr, hdata, hwriter, hone, hu, hend.1,
    hw _ (by rw [hend.1]; exact List.mem_singleton.mpr rfl), hend.2, hidle hend.2⟩

end Exchanger

end Multicore.Exchange
