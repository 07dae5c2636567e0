import Mathlib.Algebra.BigOperators.Group.Finset.Piecewise
import Mathlib.Algebra.Order.BigOperators.Group.Finset
import Mathlib.Data.Fintype.Card
import Mathlib.Data.Nat.ModEq
import Mathlib.Tactic.Common

/-! Totals over the threads of a program. One thread at a time changes what it contributes,
and events that are counted thread by thread are all counted. A total that wraps is exact
modulo its size once every thread has added what it counted. -/

namespace Multicore.Runs

variable {T E : Type*} [Fintype T] [DecidableEq T] [DecidableEq E]

/-- A sum grows by what one of its terms grows. -/
theorem sum_add_at {f f' : T → ℕ} {k : ℕ} (t : T) (ht : f' t = f t + k) (hv : ∀ v, v ≠ t → f' v = f v) :
    ∑ v, f' v = ∑ v, f v + k := by
  rw [← Finset.add_sum_erase _ f' (Finset.mem_univ t), ← Finset.add_sum_erase _ f (Finset.mem_univ t), ht,
    Finset.sum_congr rfl fun v h => hv v (Finset.ne_of_mem_erase h)]
  exact Nat.add_right_comm ..

/-- A sum in which one term changes. -/
theorem sum_change (f g : T → ℕ) (t : T) (hv : ∀ v, v ≠ t → g v = f v) :
    ∑ v, g v + f t = ∑ v, f v + g t := by
  have hrest : ∑ v ∈ Finset.univ.erase t, g v = ∑ v ∈ Finset.univ.erase t, f v :=
    Finset.sum_congr rfl fun v h => hv v (Finset.ne_of_mem_erase h)
  rw [← Finset.add_sum_erase _ g (Finset.mem_univ t), ← Finset.add_sum_erase _ f (Finset.mem_univ t), hrest]
  omega

/-- One thread spends a unit of its account; what it and the others are paid for it is counted. -/
theorem sum_spend {f g : T → ℕ} (own others : ℕ) (t : T) (ht : g t + 1 ≤ f t + own)
    (hv : ∀ v, v ≠ t → g v ≤ f v + others) :
    ∑ v, g v + 1 ≤ ∑ v, f v + (own + (Fintype.card T - 1) * others) := by
  have hrest : ∑ v ∈ Finset.univ.erase t, g v ≤
      ∑ v ∈ Finset.univ.erase t, f v + (Fintype.card T - 1) * others := by
    have hle := Finset.sum_le_sum (s := Finset.univ.erase t) fun v hmem => hv v (Finset.ne_of_mem_erase hmem)
    rwa [Finset.sum_add_distrib, Finset.sum_const, Finset.card_erase_of_mem (Finset.mem_univ t),
      Finset.card_univ, Nat.nsmul_eq_mul] at hle
  rw [← Finset.add_sum_erase _ g (Finset.mem_univ t), ← Finset.add_sum_erase _ f (Finset.mem_univ t)]
  omega

/-- The events of one kind, counted thread by thread. -/
theorem sum_count {f : T → E} (hf : Function.Injective f) {b : E → Bool}
    (hb : ∀ e, b e = true ↔ ∃ t, f t = e) (h : List E) : ∑ t, h.count (f t) = h.countP b := by
  induction h with
  | nil => simp
  | cons e h ih =>
    simp only [List.count_cons, List.countP_cons, Finset.sum_add_distrib, ih, beq_iff_eq]
    congr 1
    by_cases he : b e = true
    · obtain ⟨t, rfl⟩ := (hb e).mp he
      simp [he, hf.eq_iff]
    · have hne : ∀ t, e ≠ f t := fun t ht => he ((hb e).mpr ⟨t, ht.symm⟩)
      simp [he, hne]

/-! ### Totals that wrap -/

/-- The total wraps at `m`; with what the threads have still to add it comes to `n`. -/
structure Settles (m total : ℕ) (due : T → ℕ) (n : ℕ) : Prop where
  lt : total < m
  sum : total + ∑ t, due t ≡ n [MOD m]

namespace Settles
variable {m total n k : ℕ} {due due' : T → ℕ}

omit [DecidableEq T] in
theorem initial (hm : 0 < m) (h : ∀ t, due t = 0) : Settles m 0 due 0 := by
  refine ⟨hm, ?_⟩
  rw [Finset.sum_eq_zero fun t _ => h t]
  rfl

/-- A thread counts `k` more. -/
theorem earn (hs : Settles m total due n) (t : T) (ht : due' t ≡ due t + k [MOD m])
    (hv : ∀ v, v ≠ t → due' v = due v) : Settles m total due' (n + k) := by
  refine ⟨hs.lt, ?_⟩
  have hrest : ∑ v ∈ Finset.univ.erase t, due' v = ∑ v ∈ Finset.univ.erase t, due v :=
    Finset.sum_congr rfl fun v h => hv v (Finset.ne_of_mem_erase h)
  have hsum : total + ∑ v, due' v ≡ total + (due t + k + ∑ v ∈ Finset.univ.erase t, due v) [MOD m] := by
    rw [← Finset.add_sum_erase _ due' (Finset.mem_univ t), hrest]
    exact (ht.add_right _).add_left _
  have hsplit : total + (due t + k + ∑ v ∈ Finset.univ.erase t, due v) = total + ∑ v, due v + k := by
    rw [← Finset.add_sum_erase _ due (Finset.mem_univ t)]
    omega
  exact (hsplit ▸ hsum).trans (hs.sum.add_right k)

omit [DecidableEq T] in
theorem keep (hs : Settles m total due n) (hv : ∀ v, due' v = due v) : Settles m total due' n := by
  rwa [show due' = due from funext hv]

/-- A thread adds its count to the total. -/
theorem pay (hs : Settles m total due n) (t : T) (ht : due' t = 0)
    (hv : ∀ v, v ≠ t → due' v = due v) : Settles m ((total + due t) % m) due' n := by
  refine ⟨Nat.mod_lt _ (Nat.zero_lt_of_lt hs.lt), Nat.ModEq.trans ?_ hs.sum⟩
  have hrest : ∑ v ∈ Finset.univ.erase t, due' v = ∑ v ∈ Finset.univ.erase t, due v :=
    Finset.sum_congr rfl fun v h => hv v (Finset.ne_of_mem_erase h)
  rw [← Finset.add_sum_erase _ due' (Finset.mem_univ t), ← Finset.add_sum_erase _ due (Finset.mem_univ t),
    hrest, ht, Nat.zero_add, ← Nat.add_assoc]
  exact (Nat.mod_modEq _ m).add_right _

omit [DecidableEq T] in
theorem settled (hs : Settles m total due n) (hdue : ∀ t, due t = 0) : total = n % m := by
  have hsum : total + 0 ≡ n [MOD m] := Finset.sum_eq_zero (fun t _ => hdue t) ▸ hs.sum
  rw [← Nat.mod_eq_of_lt hs.lt]
  exact hsum

end Settles

end Multicore.Runs
