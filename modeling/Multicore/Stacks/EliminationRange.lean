import Multicore.Stacks.EliminationStack
import Mathlib.Algebra.Order.Ring.Int
import Mathlib.Data.Nat.Cast.Order.Ring
import Mathlib.Tactic.Ring

/-! The search width of the elimination array. `push` and `pop` begin with the range 2 and
double it after every visit that settles nothing, without an upper end; `visit` takes the
minimum with the number of exchangers and draws from the closed interval up to it. A
ledger beside the stack keeps the widths of the earlier visits of each call. -/

namespace Multicore.Stacks.EliminationStack

open Runs Exchange

namespace EliminationArray

/-- The width that `visit` computes in an array of `m` exchangers. -/
def width (m : Int32) (range : UInt32) : UInt32 := EliminationArray.min range m.toUInt32

/-- What `dist(0, min(range, maxrange))` may return: any `int` of the closed interval. -/
def Draws (m : Int32) (range : UInt32) (slot : ℤ) : Prop :=
  0 ≤ slot ∧ slot ≤ (width m range).toInt32.toInt

end EliminationArray

open EliminationArray (width Draws)

section Width
variable {m : Int32} {range : UInt32}

theorem toNat_width (m : Int32) (range : UInt32) :
    (width m range).toNat = min range.toNat m.toUInt32.toNat := by
  unfold width EliminationArray.min
  split
  · rename_i h
    exact (min_eq_left (UInt32.le_iff_toNat_le.mp h)).symm
  · rename_i h
    rw [UInt32.le_iff_toNat_le] at h
    exact (min_eq_right (Nat.le_of_not_le h)).symm

/-- The number of exchangers, as the `uint32_t` that it is compared as. -/
theorem toNat_maxrange (hm : 1 ≤ m) : (m.toUInt32.toNat : ℤ) = m.toInt ∧ m.toUInt32.toNat < 2 ^ 31 := by
  have hpos : 1 ≤ m.toInt := Int32.le_iff_toInt_le.mp hm
  have hlt : m.toInt < 2 ^ 31 := Int32.toInt_lt m
  have hint : m.toInt = (m.toUInt32.toNat : ℤ).bmod (2 ^ 32) := BitVec.toInt_eq_toNat_bmod m.toBitVec
  have hnat : m.toUInt32.toNat < 2 ^ 32 := UInt32.toNat_lt _
  rw [Int.bmod_def] at hint
  omega

/-- The upper end of the interval is not negative as an `int`. -/
theorem toInt_width (hm : 1 ≤ m) (range : UInt32) :
    (width m range).toInt32.toInt = min (range.toNat : ℤ) m.toInt := by
  obtain ⟨hint, hlt⟩ := toNat_maxrange hm
  have hw : (width m range).toNat < 2 ^ 31 := by
    rw [toNat_width]
    exact lt_of_le_of_lt (min_le_right _ _) hlt
  have hsmall : (width m range).toInt32.toInt = (width m range).toNat := by
    show (width m range).toBitVec.toInt = _
    rw [BitVec.toInt_eq_toNat_of_lt (by rw [UInt32.toNat_toBitVec]; omega), UInt32.toNat_toBitVec]
  rw [hsmall, toNat_width, ← hint]
  exact Nat.cast_min _ _

/-- The closed interval stays inside the array exactly if the range does not reach its end. -/
theorem draws_lt_iff (hm : 1 ≤ m) :
    (∀ slot, Draws m range slot → slot < m.toInt) ↔ (range.toNat : ℤ) < m.toInt := by
  have hpos : 1 ≤ m.toInt := Int32.le_iff_toInt_le.mp hm
  simp only [Draws, toInt_width hm]
  constructor
  · intro h
    have hlast := h (min (range.toNat : ℤ) m.toInt) ⟨by omega, le_rfl⟩
    omega
  · rintro h slot ⟨-, hslot⟩
    omega

end Width

/-- The variable `range` after `k` visits. -/
def rangeAfter : ℕ → Int32
  | 0 => 2
  | k + 1 => rangeAfter k * 2

/-- The widths of the first `k` visits, the last first. -/
def widths (m : Int32) : ℕ → List UInt32
  | 0 => []
  | k + 1 => width m (rangeAfter k).toUInt32 :: widths m k

section Range
variable {m : Int32} {k : ℕ}

theorem toNat_rangeAfter (k : ℕ) : (rangeAfter k).toUInt32.toNat = 2 ^ (k + 1) % 2 ^ 32 := by
  induction k with
  | zero => rfl
  | succ k ih =>
    have hmul : (rangeAfter (k + 1)).toUInt32 = (rangeAfter k).toUInt32 * 2 := Int32.toUInt32_mul ..
    rw [hmul, UInt32.toNat_mul, ih, pow_succ 2 (k + 1)]
    exact (Nat.mod_mul_mod _ _ _)

theorem toNat_rangeAfter_of_le (h : k ≤ 30) : (rangeAfter k).toUInt32.toNat = 2 ^ (k + 1) := by
  rw [toNat_rangeAfter]
  exact Nat.mod_eq_of_lt (Nat.pow_lt_pow_right (by decide) (by omega))

/-- From the 32nd visit on the range is 0. -/
theorem toNat_rangeAfter_of_lt (h : 30 < k) : (rangeAfter k).toUInt32.toNat = 0 := by
  rw [toNat_rangeAfter]
  exact Nat.mod_eq_zero_of_dvd (Nat.pow_dvd_pow 2 (by omega))

/-- The width is what the doubling means it to be until the range wraps to 0. -/
theorem width_eq_iff (hm : 1 ≤ m) (k : ℕ) :
    ((width m (rangeAfter k).toUInt32).toNat : ℤ) = min (2 ^ (k + 1)) m.toInt ↔ k ≤ 30 := by
  have hpos : 1 ≤ m.toInt := Int32.le_iff_toInt_le.mp hm
  have hpow : (1 : ℤ) ≤ 2 ^ (k + 1) := one_le_pow₀ (by decide)
  have hint := (toNat_maxrange hm).1
  rw [toNat_width]
  rcases Nat.lt_or_ge 30 k with hk | hk
  · rw [toNat_rangeAfter_of_lt hk, Nat.zero_min]
    omega
  · rw [toNat_rangeAfter_of_le hk, ← hint]
    refine iff_of_true ?_ hk
    rw [Nat.cast_min, Nat.cast_pow, Nat.cast_ofNat]

/-- Up to there the widths grow. -/
theorem width_mono {j : ℕ} (hj : j ≤ k) (hk : k ≤ 30) :
    width m (rangeAfter j).toUInt32 ≤ width m (rangeAfter k).toUInt32 := by
  rw [UInt32.le_iff_toNat_le, toNat_width, toNat_width, toNat_rangeAfter_of_le hk,
    toNat_rangeAfter_of_le (hj.trans hk)]
  exact min_le_min_right _ (Nat.pow_le_pow_right (by decide) (by omega))

theorem mem_widths {w : UInt32} (h : w ∈ widths m k) : ∃ j < k, w = width m (rangeAfter j).toUInt32 := by
  induction k with
  | zero => exact absurd h List.not_mem_nil
  | succ k ih =>
    rcases List.mem_cons.mp h with rfl | h
    · exact ⟨k, Nat.lt_succ_self k, rfl⟩
    · obtain ⟨j, hj, hw⟩ := ih h
      exact ⟨j, Nat.lt_succ_of_lt hj, hw⟩

end Range

/-! ### The visits of a call -/

/-- The variable `range` of a call that has one. -/
def Pc.range : Pc → Option UInt32
  | .pushLoad _ g | .pushStore _ g _ | .pushCas _ g _ | .popLoad g | .popNext g _ | .popCas g _ _
  | .visit _ g | .exchange _ g _ _ => some g
  | .idle | .pushRet | .popTest | .popRet _ => none

variable {T : Type*} [DecidableEq T]

/-- The widths of the visits that each call has made so far, the last first. -/
def visited (m : Int32) (l : T → List UInt32) (s : State T) (a : Action T) (_ : State T) :
    T → List UInt32 :=
  match a with
  | .call t _ => Function.update l t []
  | .exec t _ _ => match s.pc t with
    | .exchange _ g _ (.returned _) | .exchange _ g _ .threw => Function.update l t (width m g :: l t)
    | _ => l
  | .ret _ => l

/-- The stack over `m` exchangers with the widths of the visits. -/
abbrev searching (m : Int32) (T : Type*) [DecidableEq T] :
    Program (State T × (T → List UInt32)) (Action T) (Event T (Op Node) (Res Node)) :=
  (eliminationStack m.toUInt32).ghost (visited m)

/-- The range of a call is 2, doubled once for every visit. -/
structure Doubled (m : Int32) (p : Pc) (ws : List UInt32) : Prop where
  test : p = .popTest → ws = []
  range : ∀ g, p.range = some g → g = (rangeAfter ws.length).toUInt32 ∧ ws = widths m ws.length

namespace Doubled
variable {m : Int32} {p q : Pc} {ws : List UInt32} {v : T → Pc} {l : T → List UInt32} {t : T}

omit [DecidableEq T] in
theorem of_range_none (hp : p.range = none) (ht : p ≠ .popTest) : Doubled m p ws :=
  ⟨fun h => absurd h ht, fun g hg => by rw [hp] at hg; cases hg⟩

/-- A step that keeps the range. -/
theorem keep (h : Doubled m p ws) (hq : q.range = p.range) (ht : q ≠ .popTest) : Doubled m q ws :=
  ⟨fun h => absurd h ht, fun g hg => h.range g (hq ▸ hg)⟩

theorem first (m : Int32) (p : Pc) (ht : p.range = some 2) : Doubled m p [] := by
  refine ⟨fun _ => rfl, fun g hg => ?_⟩
  rw [ht, Option.some.injEq] at hg
  exact ⟨hg.symm, rfl⟩

/-- A visit doubles the range. -/
theorem afterVisit {n : Option Node} {g : UInt32} {i : ℕ} {x : Exchange.Pc}
    (h : Doubled m (.exchange n g i x) ws) (other : Option Node) :
    Doubled m (afterVisit n g other) (width m g :: ws) := by
  obtain ⟨hg, hws⟩ := h.range g rfl
  have hnext : g * 2 = (rangeAfter (width m g :: ws).length).toUInt32 ∧
      width m g :: ws = widths m (width m g :: ws).length := by
    rw [List.length_cons, widths, ← hg, ← hws]
    refine ⟨?_, rfl⟩
    rw [hg]
    exact (Int32.toUInt32_mul ..).symm
  refine ⟨?_, fun g' hg' => ?_⟩
  · cases n <;> cases other <;> nofun
  · rcases n with - | n <;> rcases other with - | r <;> cases hg'
    · exact hnext
    · exact hnext

theorem update (hl : ∀ w, Doubled m (v w) (l w)) (h : Doubled m p ws) (w : T) :
    Doubled m (Function.update v t p w) (Function.update l t ws w) := by
  by_cases hw : w = t
  · subst hw
    rwa [Function.update_self, Function.update_self]
  · rw [Function.update_of_ne hw, Function.update_of_ne hw]
    exact hl w

theorem move (hl : ∀ w, Doubled m (v w) (l w)) (h : Doubled m p (l t)) (w : T) :
    Doubled m (Function.update v t p w) (l w) := by
  have hu := update (t := t) hl h w
  rwa [Function.update_eq_self] at hu

end Doubled

section Runs
variable {m : Int32} {s u : State T} {l k : T → List UInt32} {t : T} {slot : ℕ} {late : Bool}

theorem doubled_exec (hl : ∀ w, Doubled m (s.pc w) (l w))
    (hu : exec m.toUInt32 s t slot late = some u) :
    ∀ w, Doubled m (u.pc w) (visited m l s (.exec t slot late) u w) := by
  have ht := hl t
  cases hp : s.pc t with
  | idle | pushRet | popRet r => simp [exec, hp] at hu
  | pushLoad n g | pushStore n g x | popNext g n =>
    simp only [exec, hp, Option.some.injEq] at hu
    subst hu
    simp only [visited, hp]
    exact Doubled.move hl ((hp ▸ ht).keep rfl (by simp))
  | pushCas n g x =>
    simp only [exec, hp] at hu
    simp only [visited, hp]
    split at hu <;> simp only [Option.some.injEq] at hu <;> subst hu
    · exact Doubled.move hl (.of_range_none rfl (by simp))
    · exact Doubled.move hl ((hp ▸ ht).keep rfl (by simp))
  | popTest =>
    simp only [exec, hp] at hu
    simp only [visited, hp]
    split at hu <;> simp only [Option.some.injEq] at hu <;> subst hu
    · exact Doubled.move hl (.of_range_none rfl (by simp))
    · refine Doubled.move hl ?_
      rw [ht.test hp]
      exact .first m _ rfl
  | popLoad g =>
    simp only [exec, hp] at hu
    simp only [visited, hp]
    split at hu <;> simp only [Option.some.injEq] at hu <;> subst hu <;>
      exact Doubled.move hl ((hp ▸ ht).keep rfl (by simp))
  | popCas g n x =>
    simp only [exec, hp] at hu
    simp only [visited, hp]
    split at hu <;> simp only [Option.some.injEq] at hu <;> subst hu
    · exact Doubled.move hl (.of_range_none rfl (by simp))
    · exact Doubled.move hl ((hp ▸ ht).keep rfl (by simp))
  | visit n g =>
    simp only [exec, hp, Option.ite_none_right_eq_some, Option.some.injEq] at hu
    obtain ⟨-, rfl⟩ := hu
    simp only [visited, hp]
    exact Doubled.move hl ((hp ▸ ht).keep rfl (by simp))
  | exchange n g i x =>
    rw [hp] at ht
    cases x with
    | returned other =>
      simp only [exec, hp, Option.some.injEq] at hu
      subst hu
      simp only [visited, hp]
      exact Doubled.update hl (ht.afterVisit other)
    | threw =>
      simp only [exec, hp, Option.some.injEq] at hu
      subst hu
      simp only [visited, hp]
      exact Doubled.update hl (ht.afterVisit n)
    | _ =>
      simp only [exec, hp, Option.map_eq_some_iff] at hu
      obtain ⟨r, -, rfl⟩ := hu
      simp only [visited, hp]
      exact Doubled.move hl (ht.keep rfl (by simp))

theorem doubled_step {a : Action T} {x y : State T × (T → List UInt32)}
    (hx : ∀ w, Doubled m (x.1.pc w) (x.2 w)) (ha : (searching m T).step x a = some y) :
    ∀ w, Doubled m (y.1.pc w) (y.2 w) := by
  obtain ⟨s, l⟩ := x
  obtain ⟨u, k⟩ := y
  obtain ⟨hu, hk⟩ := ghost_step ha
  obtain rfl : k = visited m l s a u := hk
  cases a with
  | call t op =>
    simp only [eliminationStack, step, Option.ite_none_right_eq_some, Option.some.injEq] at hu
    obtain ⟨-, rfl⟩ := hu
    refine Doubled.update hx ?_
    cases op with
    | push n => exact .first m _ rfl
    | pop => exact ⟨fun _ => rfl, fun g hg => by cases hg⟩
  | exec t slot late => exact doubled_exec hx hu
  | ret t =>
    simp only [eliminationStack, step, Option.map_eq_some_iff] at hu
    obtain ⟨r, -, rfl⟩ := hu
    exact Doubled.move hx (.of_range_none rfl (by simp))

theorem doubled_run {next : Node → Option Node} {h : List (Event T (Op Node) (Res Node))}
    (hr : Run (searching m T) Free (initial next, fun _ => []) h (s, l)) (w : T) :
    Doubled m (s.pc w) (l w) :=
  hr.always (I := fun x => ∀ w, Doubled m (x.1.pc w) (x.2 w))
    (fun _ => Doubled.of_range_none (p := .idle) rfl (by simp)) (fun _ _ _ hx _ ha => doubled_step hx ha) w

variable {next : Node → Option Node} {h : List (Event T (Op Node) (Res Node))} {n : Option Node}
  {g : UInt32}

/-- All runs of the stack are runs with the widths. -/
theorem exists_searching_iff : (∃ l, Run (searching m T) Free (initial next, fun _ => []) h (s, l)) ↔
    Run (eliminationStack m.toUInt32) Free (initial next) h s := Run.ghost_iff

/-- At every visit of every run, each slot that may be drawn is inside the array if and only
if the range, doubled once for each earlier visit of the call, is less than its length. -/
theorem slot_in_bounds_iff (hm : 1 ≤ m)
    (hr : Run (searching m T) Free (initial next, fun _ => []) h (s, l)) (ht : s.pc t = .visit n g) :
    (∀ slot, Draws m g slot → slot < m.toInt) ↔ 2 ^ ((l t).length + 1) % 2 ^ 32 < m.toInt := by
  obtain ⟨rfl, -⟩ := (doubled_run hr t).range g (by rw [ht]; rfl)
  rw [draws_lt_iff hm, toNat_rangeAfter]
  exact Eq.to_iff (by push_cast; rfl)

/-- At every visit of every run the width is the power of two that the earlier visits of the
call have led to, or the length of the array, and no earlier width was greater, if and only
if there have been at most 30. -/
theorem search_width_iff (hm : 1 ≤ m)
    (hr : Run (searching m T) Free (initial next, fun _ => []) h (s, l)) (ht : s.pc t = .visit n g) :
    (((width m g).toNat : ℤ) = min (2 ^ ((l t).length + 1)) m.toInt ∧ ∀ w ∈ l t, w ≤ width m g) ↔
      (l t).length ≤ 30 := by
  obtain ⟨rfl, hws⟩ := (doubled_run hr t).range g (by rw [ht]; rfl)
  rw [width_eq_iff hm]
  refine ⟨And.left, fun hk => ⟨hk, fun w hw => ?_⟩⟩
  rw [hws] at hw
  obtain ⟨j, hj, rfl⟩ := mem_widths hw
  exact width_mono hj.le hk

/-! ### A pop that nobody answers -/

/-- A pop on an empty stack visits the first exchanger in vain. -/
theorem run_vain (hm : 1 ≤ m) (hs : s.headNext = none) (ht : s.pc t = .popLoad g) :
    Run (searching m T) Free (s, l) []
      (s.goto t (.popLoad (g * 2)), Function.update l t (width m g :: l t)) := by
  have hpos : 0 < m.toUInt32.toNat := by
    have hint := (toNat_maxrange hm).1
    have hone : 1 ≤ m.toInt := Int32.le_iff_toInt_le.mp hm
    omega
  have step : ∀ {s u : State T} {l k : T → List UInt32} (late : Bool),
      exec m.toUInt32 s t 0 late = some u → visited m l s (.exec t 0 late) u = k →
      Run (searching m T) Free (s, l) [] (u, k) := by
    intro s u l k late hu hk
    refine Run.single (P := searching m T) (a := .exec t 0 late) trivial ?_
    simp only [searching, Program.ghost, eliminationStack, step, hu, hk, Option.map_some]
  have h1 : Run (searching m T) Free (s, l) [] (s.goto t (.visit none g), l) :=
    step false (by simp only [exec, ht, hs]) (by simp only [visited, ht])
  have h2 : Run (searching m T) Free (s.goto t (.visit none g), l) []
      (s.goto t (.exchange none g 0 (.top none)), l) := by
    refine step false ?_ (by simp only [visited, goto_pc_self])
    simp only [exec, goto_pc_self, goto_goto]
    exact if_pos ⟨Nat.zero_le _, hpos⟩
  have h3 : Run (searching m T) Free (s.goto t (.exchange none g 0 (.top none)), l) []
      (s.goto t (.exchange none g 0 .threw), l) := by
    refine step true ?_ (by simp only [visited, goto_pc_self])
    simp only [exec, goto_pc_self, goto_goto, Exchange.exchange, Option.map_some, if_true]
    simp only [State.goto, Function.update_eq_self]
  have h4 : Run (searching m T) Free (s.goto t (.exchange none g 0 .threw), l) []
      (s.goto t (.popLoad (g * 2)), Function.update l t (width m g :: l t)) :=
    step false (by simp only [exec, goto_pc_self, goto_goto, afterVisit])
      (by simp only [visited, goto_pc_self])
  exact ((h1.trans h2).trans h3).trans h4

/-- It does so as often as one likes. -/
theorem run_vain_many (hm : 1 ≤ m) (hs : s.headNext = none) (ht : s.pc t = .popLoad 2) (hl : l t = []) :
    ∀ k, ∃ u j, Run (searching m T) Free (s, l) [] (u, j) ∧ u.headNext = none ∧
      u.pc t = .popLoad (rangeAfter k).toUInt32 ∧ (j t).length = k
  | 0 => ⟨s, l, .refl, hs, ht, by rw [hl]; rfl⟩
  | k + 1 => by
    obtain ⟨u, j, hr, hu, hp, hj⟩ := run_vain_many hm hs ht hl k
    refine ⟨_, _, hr.trans (run_vain hm hu hp), hu, ?_, ?_⟩
    · rw [goto_pc_self]
      exact congrArg Pc.popLoad (Int32.toUInt32_mul ..).symm
    · rw [Function.update_self, List.length_cons, hj]

end Runs

/-- A pop may see a node on the stack of 100 exchangers, lose it to another pop, and then
visit the array in vain any number of times. -/
theorem exists_visit (k : ℕ) : ∃ (h : List (Event (Fin 2) (Op Node) (Res Node))) (s : State (Fin 2))
    (l : Fin 2 → List UInt32),
    Run (searching 100 (Fin 2)) Free (initial fun _ => none, fun _ => []) h (s, l) ∧
      s.pc 1 = .visit none (rangeAfter k).toUInt32 ∧ (l 1).length = k := by
  obtain ⟨h, ⟨s, l⟩, hr, ht⟩ := exists_run_of_exec (P := searching 100 (Fin 2)) (C := Free)
    (s := (initial fun _ => none, fun _ => []))
    [.call 0 (.push ⟨64, rfl, by decide⟩), .exec 0 0 false, .exec 0 0 false, .exec 0 0 false, .ret 0,
      .call 1 .pop, .exec 1 0 false, .call 0 .pop, .exec 0 0 false, .exec 0 0 false, .exec 0 0 false,
      .exec 0 0 false]
    (fun _ x => decide (x.1.headNext = none ∧ x.1.pc 1 = .popLoad 2 ∧ x.2 1 = [])) (by decide)
  rw [decide_eq_true_iff] at ht
  obtain ⟨hs, hp, hl⟩ := ht
  obtain ⟨u, j, hu, hnone, hpu, hj⟩ := run_vain_many (m := 100) (by decide) hs hp hl k
  have hload : (searching 100 (Fin 2)).step (u, j) (.exec 1 0 false) =
      some (u.goto 1 (.visit none (rangeAfter k).toUInt32), j) := by
    simp only [searching, Program.ghost, eliminationStack, step, exec, visited, hpu, hnone,
      Option.map_some]
  exact ⟨_, _, _, (hr.trans hu).tail trivial hload, goto_pc_self .., hj⟩

/-- The sixth visit is the last one in bounds: it draws 0 to 64. -/
theorem slot_in_bounds_iff_sixth : ∃ (h : List (Event (Fin 2) (Op Node) (Res Node))) (s : State (Fin 2))
    (l : Fin 2 → List UInt32),
    Run (searching 100 (Fin 2)) Free (initial fun _ => none, fun _ => []) h (s, l) ∧
      s.pc 1 = .visit none 64 ∧ (l 1).length = 5 ∧ Draws 100 64 64 ∧
      ∀ slot, Draws 100 64 slot → slot < (100 : Int32).toInt := by
  obtain ⟨h, s, l, hr, ht, hl⟩ := exists_visit 5
  exact ⟨h, s, l, hr, ht, hl, ⟨by decide, by decide⟩,
    (slot_in_bounds_iff (by decide) hr ht).mpr (by rw [hl]; decide)⟩

/-- The seventh visit to 100 exchangers may draw the slot 100. -/
theorem slot_out_of_bounds : ∃ (h : List (Event (Fin 2) (Op Node) (Res Node))) (s : State (Fin 2))
    (l : Fin 2 → List UInt32),
    Run (searching 100 (Fin 2)) Free (initial fun _ => none, fun _ => []) h (s, l) ∧
      s.pc 1 = .visit none 128 ∧ Draws 100 128 100 ∧ ¬ 100 < (100 : Int32).toInt := by
  obtain ⟨h, s, l, hr, ht, -⟩ := exists_visit 6
  exact ⟨h, s, l, hr, ht, ⟨by decide, by decide⟩, by decide⟩

/-- The thirty-first visit is the last one before the range wraps: it searches all slots. -/
theorem search_width_iff_thirty : ∃ (h : List (Event (Fin 2) (Op Node) (Res Node))) (s : State (Fin 2))
    (l : Fin 2 → List UInt32),
    Run (searching 100 (Fin 2)) Free (initial fun _ => none, fun _ => []) h (s, l) ∧
      s.pc 1 = .visit none 0x80000000 ∧ (l 1).length = 30 ∧
      ((width 100 0x80000000).toNat : ℤ) = min (2 ^ (30 + 1)) (100 : Int32).toInt ∧
      ∀ w ∈ l 1, w ≤ width 100 0x80000000 := by
  obtain ⟨h, s, l, hr, ht, hl⟩ := exists_visit 30
  obtain ⟨hwidth, hgrows⟩ := (search_width_iff (by decide) hr ht).mpr (by rw [hl])
  rw [hl] at hwidth
  exact ⟨h, s, l, hr, ht, hl, hwidth, hgrows⟩

/-- After 31 visits in vain the width is 0, and it was 100 before. -/
theorem search_width_collapses : ∃ (h : List (Event (Fin 2) (Op Node) (Res Node))) (s : State (Fin 2))
    (l : Fin 2 → List UInt32),
    Run (searching 100 (Fin 2)) Free (initial fun _ => none, fun _ => []) h (s, l) ∧
      s.pc 1 = .visit none 0 ∧ (l 1).length = 31 ∧
      ((width 100 0).toNat : ℤ) ≠ min (2 ^ (31 + 1)) (100 : Int32).toInt ∧
      ∃ w ∈ l 1, width 100 0 < w := by
  obtain ⟨h, s, l, hr, ht, hl⟩ := exists_visit 31
  have hws := ((doubled_run hr 1).range _ (by rw [ht]; rfl)).2
  refine ⟨h, s, l, hr, ht, hl, by decide, 100, ?_, by decide⟩
  rw [hws, hl]
  exact List.mem_cons_self ..

end Multicore.Stacks.EliminationStack
