import Mathlib.Data.Nat.ModEq
import Mathlib.Tactic.Common

/-! Cyclic reuse of `N` cells by an unbounded counter: within a window of `N`
consecutive numbers each cell is used once. -/

namespace Multicore.Runs

/-- Two numbers of one window of `N` are equal when they use the same cell. -/
theorem eq_of_mod_eq {N a b : ℕ} (hab : a ≤ b) (hb : b < a + N) (h : b % N = a % N) : b = a := by
  have hd : N ∣ b - a := Nat.dvd_of_mod_eq_zero (Nat.sub_mod_eq_zero_of_mod_eq h)
  have h0 := Nat.eq_zero_of_dvd_of_lt hd (by omega)
  omega

theorem cell_ne {N a b : ℕ} (hab : a < b) (hb : b < a + N) : a % N ≠ b % N :=
  fun h => hab.ne' (eq_of_mod_eq hab.le hb h.symm)

/-- Stepping a stored cell agrees with stepping the counter. -/
theorem succ_mod_mod (N a : ℕ) : (a % N + 1) % N = (a + 1) % N := by
  rw [Nat.add_mod, Nat.mod_mod, ← Nat.add_mod]

end Multicore.Runs
