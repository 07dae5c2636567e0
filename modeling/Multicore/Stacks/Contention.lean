import Multicore.Stacks.LockFreeStack
import Multicore.Runs.Totals
import Mathlib.Algebra.Order.BigOperators.Group.Finset
import Mathlib.Data.Fintype.Card

/-! Why `LockFreeStack` is lock-free. A swap fails only if the head has changed since the
attempt read it, and the head changes only with a successful swap. An attempt is thus
charged to a success of another thread that falls between its read and its swap, and as the
attempts of one thread do not overlap, each success is charged at most once by each of the
other threads. -/

namespace Multicore.Stacks.LockFreeStack

open Runs

/-- The outcome of a swap of `trypush` or `trypop`. -/
inductive Swap (T : Type*)
  | succeeded (t : T) | failed (t : T)
  deriving DecidableEq

def Swap.isFailed {T : Type*} : Swap T → Bool
  | .failed _ => true
  | .succeeded _ => false

def Swap.isSucceeded {T : Type*} : Swap T → Bool
  | .succeeded _ => true
  | .failed _ => false

variable {T N : Type*} [DecidableEq T] [DecidableEq N]

/-- The swap that an action executes. -/
def swaps (s : State T N) : Action T N → List (Swap T)
  | .exec t =>
    match s.pc t with
    | .pushCas _ x => if s.headNext = x then [.succeeded t] else [.failed t]
    | .popCas n _ => if s.headNext = some n then [.succeeded t] else [.failed t]
    | _ => []
  | .call _ _ | .ret _ => []

/-- The value of the head that the attempt has read and will compare with. -/
def Pc.expects : Pc N → Option (Option N)
  | .pushStore _ x | .pushCas _ x => some x
  | .popNext n | .popCas n _ => some (some n)
  | _ => none

/-- 1 if the head has changed since the attempt read it. -/
def debt (head : Option N) (p : Pc N) : ℕ :=
  match p.expects with
  | some x => if head = x then 0 else 1
  | none => 0

section Debt
variable {head : Option N} {p q : Pc N}

theorem debt_le_one (head : Option N) (p : Pc N) : debt head p ≤ 1 := by
  unfold debt
  split
  · split <;> omega
  · omega

theorem debt_of_expects_none (h : p.expects = none) : debt head p = 0 := by rw [debt, h]

theorem debt_of_read (h : p.expects = some head) : debt head p = 0 := by
  rw [debt, h]
  exact if_pos rfl

theorem debt_of_changed {x : Option N} (h : p.expects = some x) (hx : head ≠ x) : debt head p = 1 := by
  rw [debt, h]
  exact if_neg hx

theorem debt_congr (h : p.expects = q.expects) : debt head p = debt head q := by rw [debt, debt, h]

end Debt

/-! ### One step -/

section Step
variable {s u : State T N} {a : Action T N} {t v : T} {p : Pc N}

/-- What a step adds to the account of `v`: its own swaps, and its debt. -/
def Charged (s u : State T N) (a : Action T N) (v : T) : Prop :=
  (swaps s a).count (.failed v) + (swaps s a).count (.succeeded v) + debt u.headNext (u.pc v) ≤
    debt s.headNext (s.pc v) + (swaps s a).countP Swap.isSucceeded

/-- A step of `t` that swaps nothing, after which `t` expects nothing, what it expected
before, or the head that it has just read. -/
theorem Charged.quiet (hu : u.pc = Function.update s.pc t p) (hh : u.headNext = s.headNext)
    (ha : swaps s a = [])
    (hp : p.expects = none ∨ p.expects = some s.headNext ∨ p.expects = (s.pc t).expects) :
    Charged s u a v := by
  have hdebt : debt u.headNext (u.pc v) ≤ debt s.headNext (s.pc v) := by
    rw [hu, hh]
    by_cases hv : v = t
    · subst hv
      rw [Function.update_self]
      rcases hp with hp | hp | hp
      · rw [debt_of_expects_none hp]
        exact Nat.zero_le _
      · rw [debt_of_read hp]
        exact Nat.zero_le _
      · exact (debt_congr hp).le
    · rw [Function.update_of_ne hv]
  rw [Charged, ha]
  simpa using hdebt

/-- A swap of `t` that finds the head as it was. -/
theorem Charged.succeeded (hu : u.pc t = p) (hp : p.expects = none) (ha : swaps s a = [.succeeded t]) :
    Charged s u a v := by
  rw [Charged, ha]
  by_cases hv : v = t
  · subst hv
    rw [hu, debt_of_expects_none hp]
    simp [Swap.isSucceeded]
  · have hle := debt_le_one u.headNext (u.pc v)
    have hne : Swap.succeeded t ≠ .succeeded v := fun h => hv (Swap.succeeded.inj h).symm
    simpa [List.count_cons, hne, Swap.isSucceeded] using hle.trans (Nat.le_add_left _ _)

/-- A swap of `t` that finds the head changed uses up the debt of `t`. -/
theorem Charged.failed {x : Option N} (hu : u.pc = Function.update s.pc t p)
    (hh : u.headNext = s.headNext) (hp : p.expects = none) (ha : swaps s a = [.failed t])
    (hx : (s.pc t).expects = some x) (hne : s.headNext ≠ x) : Charged s u a v := by
  rw [Charged, ha, hu, hh]
  by_cases hv : v = t
  · subst hv
    rw [Function.update_self, debt_of_expects_none hp, debt_of_changed hx hne]
    simp
  · rw [Function.update_of_ne hv]
    have hne' : Swap.failed t ≠ .failed v := fun h => hv (Swap.failed.inj h).symm
    simp [hne']

theorem Charged.step (hu : step s a = some u) (v : T) : Charged s u a v := by
  cases a with
  | call t op =>
    simp only [LockFreeStack.step, Option.ite_none_right_eq_some, Option.some.injEq] at hu
    obtain ⟨-, rfl⟩ := hu
    exact .quiet rfl rfl rfl (.inl (by cases op <;> rfl))
  | ret t =>
    simp only [LockFreeStack.step, Option.map_eq_some_iff] at hu
    obtain ⟨r, -, rfl⟩ := hu
    exact .quiet rfl rfl rfl (.inl rfl)
  | exec t =>
    cases hp : s.pc t with
    | idle | pushRet | popRet r => simp [LockFreeStack.step, exec, hp] at hu
    | pushLoad n =>
      simp only [LockFreeStack.step, exec, hp, Option.some.injEq] at hu
      subst hu
      exact .quiet rfl rfl (by simp only [swaps, hp]) (.inr (.inl rfl))
    | pushStore n x | popNext n =>
      simp only [LockFreeStack.step, exec, hp, Option.some.injEq] at hu
      subst hu
      exact .quiet rfl rfl (by simp only [swaps, hp]) (.inr (.inr (by rw [hp]; rfl)))
    | backoffDist n | backoffDouble n | doubleStore n limit | backoffMod n | modStore n limit =>
      simp only [LockFreeStack.step, exec, hp, Option.some.injEq] at hu
      subst hu
      exact .quiet rfl rfl (by simp only [swaps, hp]) (.inl rfl)
    | popTest =>
      simp only [LockFreeStack.step, exec, hp] at hu
      split at hu <;> cases hu <;> exact .quiet rfl rfl (by simp only [swaps, hp]) (.inl rfl)
    | popLoad =>
      simp only [LockFreeStack.step, exec, hp] at hu
      split at hu <;> cases hu
      · exact .quiet rfl rfl (by simp only [swaps, hp]) (.inl rfl)
      · rename_i n hn
        exact .quiet rfl rfl (by simp only [swaps, hp]) (.inr (.inl (by rw [hn]; rfl)))
    | pushCas n x =>
      simp only [LockFreeStack.step, exec, hp] at hu
      split at hu <;> cases hu <;> rename_i hx
      · exact .succeeded (Function.update_self ..) rfl (by simp only [swaps, hp, hx, if_true])
      · exact .failed rfl rfl rfl (by simp only [swaps, hp, if_neg hx]) (by rw [hp]; rfl) hx
    | popCas n x =>
      simp only [LockFreeStack.step, exec, hp] at hu
      split at hu <;> cases hu <;> rename_i hx
      · exact .succeeded (Function.update_self ..) rfl (by simp only [swaps, hp, hx, if_true])
      · exact .failed rfl rfl rfl (by simp only [swaps, hp, if_neg hx]) (by rw [hp]; rfl) hx

end Step

/-! ### Runs -/

variable {next : N → Option N} {h : List (Swap T)} {s : State T N}

/-- The failures and successes of a thread are not more than the successes of all. -/
theorem charged_of_run (hr : Run (lockFreeStack.observe swaps) Free (initial next) h s) (v : T) :
    h.count (.failed v) + h.count (.succeeded v) + debt s.headNext (s.pc v) ≤
      h.countP Swap.isSucceeded := by
  refine hr.invariant (I := fun h s => h.count (.failed v) + h.count (.succeeded v) +
    debt s.headNext (s.pc v) ≤ h.countP Swap.isSucceeded) (Nat.zero_le _) ?_
  intro h s a u hs _ hu
  have hc : Charged s u a v := Charged.step hu v
  rw [Charged] at hc
  simp only [List.count_append, List.countP_append]
  show h.count (.failed v) + (swaps s a).count (.failed v) +
    (h.count (.succeeded v) + (swaps s a).count (.succeeded v)) + debt u.headNext (u.pc v) ≤
      h.countP Swap.isSucceeded + (swaps s a).countP Swap.isSucceeded
  omega

variable [Fintype T]

theorem sum_count_failed (h : List (Swap T)) : ∑ t, h.count (.failed t) = h.countP Swap.isFailed :=
  sum_count (fun _ _ => Swap.failed.inj) (fun e => by cases e <;> simp [Swap.isFailed]) h

theorem sum_count_succeeded (h : List (Swap T)) :
    ∑ t, h.count (.succeeded t) = h.countP Swap.isSucceeded :=
  sum_count (fun _ _ => Swap.succeeded.inj) (fun e => by cases e <;> simp [Swap.isSucceeded]) h

/-- At every point of every run, the failed swaps are at most `T - 1` times the successful ones. -/
theorem lock_free_stack_failures_le
    (hr : Run (lockFreeStack.observe swaps) Free (initial next) h s) :
    h.countP Swap.isFailed ≤ (Fintype.card T - 1) * h.countP Swap.isSucceeded := by
  have hsum : ∑ t : T, (h.count (.failed t) + h.count (.succeeded t)) ≤
      ∑ _t : T, h.countP Swap.isSucceeded := by
    refine Finset.sum_le_sum fun t _ => ?_
    have ht := charged_of_run hr t
    omega
  rw [Finset.sum_add_distrib, sum_count_failed, sum_count_succeeded, Finset.sum_const,
    Finset.card_univ, Nat.nsmul_eq_mul] at hsum
  rw [Nat.sub_one_mul]
  omega

/-- Two pushes race: one swap fails and one succeeds. -/
theorem lock_free_stack_failures_le_race : ∃ (h : List (Swap (Fin 2))) (s : State (Fin 2) (Fin 2)),
    Run (lockFreeStack.observe swaps) Free (initial fun _ => none) h s ∧
      h = [.succeeded 0, .failed 1] ∧ h.countP Swap.isFailed ≤ 1 * h.countP Swap.isSucceeded := by
  obtain ⟨h, s, hr, ht⟩ := exists_run_of_exec (P := lockFreeStack.observe swaps) (C := Free)
    (s := (initial (fun _ => none) : State (Fin 2) (Fin 2)))
    [.call 0 (.push 0), .call 1 (.push 1), .exec 0, .exec 1, .exec 0, .exec 1, .exec 0, .exec 1]
    (fun h _ => h == [.succeeded 0, .failed 1]) (by decide)
  rw [beq_iff_eq] at ht
  exact ⟨h, s, hr, ht, lock_free_stack_failures_le hr⟩

end Multicore.Stacks.LockFreeStack
