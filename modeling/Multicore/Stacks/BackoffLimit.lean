import Multicore.Stacks.LockFreeStack
import Mathlib.Data.Fintype.Card
import Mathlib.Algebra.Order.Group.Nat

/-! The backoff limit of `LockFreeStack`. All pushers share it, and `backoff` doubles it and
reduces it in two statements. It is a power of two: the reduction by 1023 takes ten off
its exponent, since 1024 leaves 1, and every doubling adds one. A delay that is drawn
between the doubling and the reduction of another push may therefore be drawn from a larger
range, and if many doublings come in a row the limit is lost. -/

namespace Multicore.Stacks.LockFreeStack

open Runs

variable {T N : Type*}

/-- Inside one of the statements `limit *= 2` and `limit %= 1023`. -/
def Pc.Updating : Pc N → Prop
  | .doubleStore _ _ | .modStore _ _ => True
  | _ => False

/-- Between the statements `limit *= 2` and `limit %= 1023`. -/
def Pc.Doubled : Pc N → Prop
  | .backoffMod _ | .modStore _ _ => True
  | _ => False

instance : DecidablePred (Pc.Updating (N := N))
  | .doubleStore _ _ | .modStore _ _ => .isTrue trivial
  | .idle | .pushLoad _ | .pushStore _ _ | .pushCas _ _ | .backoffDist _ | .backoffDouble _
  | .backoffMod _ | .pushRet | .popTest | .popLoad | .popNext _ | .popCas _ _ | .popRet _ => .isFalse id

instance : DecidablePred (Pc.Doubled (N := N))
  | .backoffMod _ | .modStore _ _ => .isTrue trivial
  | .idle | .pushLoad _ | .pushStore _ _ | .pushCas _ _ | .backoffDist _ | .backoffDouble _
  | .doubleStore _ _ | .pushRet | .popTest | .popLoad | .popNext _ | .popCas _ _ | .popRet _ => .isFalse id

/-- The statements on the limit are taken as one step each. -/
def Whole : Guard (State T N) (Action T N) := fun s a => ∀ u, (s.pc u).Updating → a.thread = u

/-- A delay is drawn only while nobody is between its doubling and its reduction, and a doubling
comes only while at most 21 others are. So many never lose the limit, whose exponent is at most nine
before the first of them; where it was lower some more would not lose it either. -/
def Settled : Guard (State T N) (Action T N) := fun s a =>
  match s.pc a.thread with
  | .backoffDist _ => ∀ u, ¬ (s.pc u).Doubled
  | .doubleStore _ _ => ∀ A : Finset T, (∀ u ∈ A, (s.pc u).Doubled) → A.card ≤ 21
  | _ => True

/-- The limits from which delays are drawn. -/
def drawn (s : State T N) : Action T N → List UInt32
  | .exec t => match s.pc t with
    | .backoffDist _ => [s.limit]
    | _ => []
  | .call _ _ | .ret _ => []

/-! ### The exponent -/

theorem two_pow_mod (k : ℕ) : 2 ^ k % 1023 = 2 ^ (k % 10) := by
  have hlt : 2 ^ (k % 10) < 1023 := by
    have : 2 ^ (k % 10) ≤ 2 ^ 9 := Nat.pow_le_pow_right (by decide) (by omega)
    omega
  calc 2 ^ k % 1023 = (2 ^ 10) ^ (k / 10) * 2 ^ (k % 10) % 1023 := by
        rw [← Nat.pow_mul, ← Nat.pow_add, Nat.div_add_mod]
    _ = 2 ^ (k % 10) := by
        rw [Nat.mul_mod, Nat.pow_mod, show 2 ^ 10 % 1023 = 1 from rfl, Nat.one_pow, Nat.one_mod, Nat.one_mul,
          Nat.mod_mod, Nat.mod_eq_of_lt hlt]

/-- The limit is a power of two, and what its exponent is above nine is due to threads that have
doubled it and not reduced it yet. -/
structure Bounded (s : State T N) : Prop where
  pow : ∃ (A : Finset T) (k : ℕ), (∀ u ∈ A, (s.pc u).Doubled) ∧ s.limit.toNat = 2 ^ k ∧ k ≤ 9 + A.card
  store : ∀ u n limit, s.pc u = .doubleStore n limit ∨ s.pc u = .modStore n limit → limit = s.limit

section Step
variable [DecidableEq T] {s u : State T N} {t : T} {p : Pc N} {n : N} {a : Action T N}

omit [DecidableEq T] in
theorem Bounded.initial (next : N → Option N) : Bounded (initial next : State T N) :=
  ⟨⟨∅, 0, by simp, rfl, by simp⟩, by simp [LockFreeStack.initial]⟩

/-- A thread moves on, and leaves the limit as it is. -/
theorem Bounded.move (hs : Bounded s) (hu : u.pc = Function.update s.pc t p) (hl : u.limit = s.limit)
    (hd : (s.pc t).Doubled → p.Doubled)
    (hp : ∀ n limit, p = .doubleStore n limit ∨ p = .modStore n limit → limit = s.limit) : Bounded u := by
  obtain ⟨⟨A, k, hA, hk, hle⟩, hst⟩ := hs
  refine ⟨⟨A, k, fun v hv => ?_, by rw [hl, hk], hle⟩, fun v n limit hv => ?_⟩
  · rw [hu]
    by_cases hvt : v = t
    · rw [hvt, Function.update_self]
      exact hd (hvt ▸ hA v hv)
    · rw [Function.update_of_ne hvt]
      exact hA v hv
  · rw [hl]
    rw [hu] at hv
    by_cases hvt : v = t
    · rw [hvt, Function.update_self] at hv
      exact hp n limit hv
    · rw [Function.update_of_ne hvt] at hv
      exact hst v n limit hv

/-- Nobody else is inside a statement on the limit. -/
theorem Bounded.store_of_whole (hw : ∀ v, (s.pc v).Updating → t = v) (hp : ¬ p.Updating) (limit : UInt32) :
    ∀ v n k, Function.update s.pc t p v = .doubleStore n k ∨ Function.update s.pc t p v = .modStore n k →
      k = limit := by
  intro v n k hv
  by_cases hvt : v = t
  · rw [hvt, Function.update_self] at hv
    rcases hv with rfl | rfl <;> exact absurd trivial hp
  · rw [Function.update_of_ne hvt] at hv
    refine absurd (hw v ?_).symm hvt
    rcases hv with hv | hv <;> rw [hv] <;> trivial

theorem Bounded.double (hs : Bounded s) (hw : ∀ v, (s.pc v).Updating → t = v) {limit : UInt32}
    (hp : s.pc t = .doubleStore n limit)
    (hA : ∀ A : Finset T, (∀ u ∈ A, (s.pc u).Doubled) → A.card ≤ 21) :
    Bounded { s.goto t (.backoffMod n) with limit := limit * 2 } := by
  obtain ⟨⟨A, k, hdoubled, hk, hle⟩, hst⟩ := hs
  have hlim : limit = s.limit := hst t n limit (.inl hp)
  have ht : t ∉ A := fun ht => by
    have hd := hdoubled t ht
    rw [hp] at hd
    exact hd
  refine ⟨⟨insert t A, k + 1, fun v hv => ?_, ?_, ?_⟩, Bounded.store_of_whole hw id _⟩
  · show (Function.update s.pc t (.backoffMod n) v).Doubled
    rcases Finset.mem_insert.mp hv with rfl | hmem
    · rw [Function.update_self]
      trivial
    · have hvt : v ≠ t := by
        rintro rfl
        exact ht hmem
      rw [Function.update_of_ne hvt]
      exact hdoubled v hmem
  · -- the exponent is at most 31 after the doubling
    have hlt : 2 ^ (k + 1) < 2 ^ 32 := Nat.pow_lt_pow_right (by decide) (by have := hA A hdoubled; omega)
    show (limit * 2).toNat = _
    rw [hlim, UInt32.toNat_mul, hk]
    exact Nat.mod_eq_of_lt hlt
  · rw [Finset.card_insert_of_notMem ht]
    omega

theorem Bounded.reduce (hs : Bounded s) (hw : ∀ v, (s.pc v).Updating → t = v) {limit : UInt32}
    (hp : s.pc t = .modStore n limit) : Bounded { s.goto t (.pushLoad n) with limit := limit % 1023 } := by
  obtain ⟨⟨A, k, -, hk, -⟩, hst⟩ := hs
  have hlim : limit = s.limit := hst t n limit (.inr hp)
  refine ⟨⟨∅, k % 10, by simp, ?_, ?_⟩, Bounded.store_of_whole hw id _⟩
  · show (limit % 1023).toNat = _
    rw [hlim, UInt32.toNat_mod, hk]
    exact two_pow_mod k
  · rw [Finset.card_empty]
    omega

omit [DecidableEq T] in
/-- When nobody is between its doubling and its reduction the limit is in its range. -/
theorem Bounded.range (hs : Bounded s) (hd : ∀ u, ¬ (s.pc u).Doubled) : 1 ≤ s.limit ∧ s.limit ≤ 512 := by
  obtain ⟨A, k, hA, hk, hle⟩ := hs.pow
  obtain rfl : A = ∅ := Finset.eq_empty_of_forall_notMem fun u hu => hd u (hA u hu)
  rw [Finset.card_empty] at hle
  rw [UInt32.le_iff_toNat_le, UInt32.le_iff_toNat_le, hk]
  exact ⟨Nat.one_le_two_pow, Nat.pow_le_pow_right (by decide) hle⟩

variable [DecidableEq N]

theorem Bounded.step (hs : Bounded s) (hw : Whole s a) (hc : Settled s a) (hu : step s a = some u) :
    Bounded u := by
  cases a with
  | call t op =>
    simp only [LockFreeStack.step, Option.ite_none_right_eq_some, Option.some.injEq] at hu
    obtain ⟨hp, rfl⟩ := hu
    refine hs.move rfl rfl (by rw [hp]; exact False.elim) ?_
    cases op <;> simp [Pc.enter]
  | ret t =>
    simp only [LockFreeStack.step, Option.map_eq_some_iff] at hu
    obtain ⟨r, hr, rfl⟩ := hu
    refine hs.move (p := .idle) rfl rfl (fun hd => ?_) (by simp)
    cases hp : s.pc t <;> rw [hp] at hr hd <;> first | exact hd | cases hr
  | exec t =>
    have hu : exec s t = some u := hu
    cases hp : s.pc t with
    | idle | pushRet | popRet r => simp [exec, hp] at hu
    | backoffDouble n | backoffMod n =>
      simp only [exec, hp, Option.some.injEq] at hu
      subst hu
      refine hs.move rfl rfl (by rw [hp]; exact id) ?_
      rintro m limit (⟨⟨⟩⟩ | ⟨⟨⟩⟩)
      rfl
    | doubleStore n limit =>
      simp only [exec, hp, Option.some.injEq] at hu
      subst hu
      have hc : ∀ A : Finset T, (∀ u ∈ A, (s.pc u).Doubled) → A.card ≤ 21 := by
        simpa only [Settled, Action.thread, hp] using hc
      exact hs.double hw hp hc
    | modStore n limit =>
      simp only [exec, hp, Option.some.injEq] at hu
      subst hu
      exact hs.reduce hw hp
    | _ =>
      simp only [exec, hp] at hu
      repeat' split at hu
      all_goals cases hu
      all_goals exact hs.move rfl rfl (by rw [hp]; exact id) (by simp)

end Step

section Run
variable [DecidableEq T] [DecidableEq N]

/-- As long as delays are drawn only while nobody is between its doubling and its reduction, and
no doubling comes while more than 21 others are, every delay is drawn from a range that ends
between 1 and 512. -/
theorem limit_in_range {next : N → Option N} {h : List UInt32} {s : State T N}
    (hr : Run (lockFreeStack.observe drawn) (fun s a => Whole s a ∧ Settled s a) (initial next) h s) :
    ∀ limit ∈ h, 1 ≤ limit ∧ limit ≤ 512 := by
  refine (hr.invariant (I := fun h s => Bounded s ∧ ∀ limit ∈ h, 1 ≤ limit ∧ limit ≤ 512)
    ⟨.initial next, by simp⟩ ?_).2
  rintro h s a u ⟨hs, hh⟩ ⟨hw, hc⟩ hu
  refine ⟨hs.step hw hc hu, fun limit hlimit => ?_⟩
  rcases List.mem_append.mp hlimit with hlimit | hlimit
  · exact hh limit hlimit
  · cases a with
    | call t op | ret t => cases hlimit
    | exec t =>
      simp only [Program.observe, drawn] at hlimit
      split at hlimit
      · rename_i n hp
        rw [List.mem_singleton] at hlimit
        subst hlimit
        have hd : ∀ u, ¬ (s.pc u).Doubled := by simpa only [Settled, Action.thread, hp] using hc
        exact hs.range hd
      · cases hlimit

end Run

instance [Fintype T] [DecidableEq T] (s : State T N) (a : Action T N) : Decidable (Whole s a) :=
  inferInstanceAs (Decidable (∀ u, (s.pc u).Updating → a.thread = u))

/-- The next step draws a delay. -/
def Pc.draws : Pc N → Bool
  | .backoffDist _ => true
  | _ => false

/-- Two pushes race, and the loser draws its delay from a range of one, doubles the limit and reduces
it; it loses again, and draws from a range of two. -/
theorem limit_in_range_race : ∃ (h : List UInt32) (s : State (Fin 2) (Fin 3)),
    Run (lockFreeStack.observe drawn) (fun s a => Whole s a ∧ Settled s a) (initial fun _ => none) h s ∧
      h = [1, 2] ∧ s.limit = 4 ∧ ∀ limit ∈ h, 1 ≤ limit ∧ limit ≤ 512 := by
  have hsettled : ∀ (s : State (Fin 2) (Fin 3)) a,
      ((s.pc a.thread).draws = false ∨ ∀ u, ¬ (s.pc u).Doubled) → Settled s a := by
    intro s a hd
    unfold Settled
    split
    · rename_i n hp
      rw [hp] at hd
      exact hd.resolve_left (by simp [Pc.draws])
    · exact fun A _ => (Finset.card_le_univ A).trans (by decide)
    · trivial
  obtain ⟨h, s, hr, ht⟩ := exists_run_of_exec (P := lockFreeStack.observe drawn)
    (C := fun s a => Whole s a ∧ ((s.pc a.thread).draws = false ∨ ∀ u, ¬ (s.pc u).Doubled))
    (s := (initial (fun _ => none) : State (Fin 2) (Fin 3)))
    (List.flatten [[.call 0 (.push 0), .call 1 (.push 1)], List.replicate 2 (.exec 1),
      List.replicate 3 (.exec 0), List.replicate 8 (.exec 1), [.ret 0, .call 0 (.push 2)],
      List.replicate 3 (.exec 0), List.replicate 6 (.exec 1)])
    (fun h s => h == [1, 2] && s.limit == 4) (by decide +kernel)
  have hr := hr.mono (D := fun s a => Whole s a ∧ Settled s a) fun s a hc => ⟨hc.1, hsettled s a hc.2⟩
  simp only [Bool.and_eq_true, beq_iff_eq] at ht
  exact ⟨h, s, hr, ht.1, ht.2, limit_in_range hr⟩

/-- Twelve threads push, and one of them wins. Nine of the others back off one after the other,
and the limit is 512; the next one doubles it, and the last one draws its delay from a range
that ends at 1024. -/
theorem limit_out_of_range : ∃ (h : List UInt32) (s : State (Fin 12) (Fin 12)),
    Run (lockFreeStack.observe drawn) (fun s a => Whole s a ∧ Fresh s a) (initial fun _ => none) h s ∧
      ¬ ∀ limit ∈ h, 1 ≤ limit ∧ limit ≤ 512 := by
  obtain ⟨h, s, hr, ht⟩ := exists_run_of_exec (P := lockFreeStack.observe drawn)
    (C := fun s a => Whole s a ∧ Unseen s a) (s := (initial (fun _ => none) : State (Fin 12) (Fin 12)))
    (List.flatten [(List.finRange 12).flatMap fun t => [.call t (.push t), .exec t, .exec t],
      (List.finRange 12).reverse.map .exec,
      (List.finRange 9).flatMap fun t => List.replicate 5 (.exec (t.castAdd 3)),
      [.exec 9, .exec 9, .exec 9, .exec 10]])
    (fun h _ => h.contains 1024) (by decide +kernel)
  refine ⟨h, s, hr.mono fun s a hc => ⟨hc.1, hc.2.fresh⟩, fun hall => ?_⟩
  exact absurd (hall 1024 (by simpa using ht)).2 (by decide)

end Multicore.Stacks.LockFreeStack
