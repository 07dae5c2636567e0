import Multicore.Stacks.Contention

/-! `LockFreeStack` is lock-free. Every thread has an account of the steps that it can
still take if the head stays as it is. A step spends a unit of it; only the end of a call
pays anything in, to its own thread for the next call and to the others for the attempts
that it has spoilt. So the threads cannot go on for long without a call that ends,
whichever of them take the steps. -/

namespace Multicore.Stacks.LockFreeStack

open Runs

/-- A step inside `push` or `pop`, and the end of such a call. -/
inductive Work
  | step | done
  deriving DecidableEq

variable {T N : Type*} [DecidableEq T] [DecidableEq N]

/-- The work that an action does: a step, and the end of its call if that is the last one. -/
def work (s : State T N) : Action T N → List Work
  | .exec t => match exec s t with
    | some u => if (u.pc t).result.isSome then [.step, .done] else [.step]
    | none => []
  | .call _ _ | .ret _ => []

/-- The steps that a thread can still take before its call ends, while the head stays as it
is. Between calls it holds the account of its next one. -/
def account (head : Option N) : Pc N → ℕ
  | .idle | .pushRet | .popRet _ => 4
  | .pushLoad _ => 3
  | .pushStore _ x => if head = x then 2 else 10
  | .pushCas _ x => if head = x then 1 else 9
  | .backoffDist _ => 8
  | .backoffDouble _ => 7
  | .doubleStore _ _ => 6
  | .backoffMod _ => 5
  | .modStore _ _ => 4
  | .popTest => if head = none then 1 else 4
  | .popLoad => if head = none then 2 else 3
  | .popNext n => if head = some n then 2 else 5
  | .popCas n _ => if head = some n then 1 else 4

section Account
variable {head head' : Option N} {p : Pc N}

theorem account_le (head : Option N) (p : Pc N) : account head p ≤ 10 := by
  cases p <;> simp only [account] <;> first | omega | (split <;> omega)

theorem account_pos (head : Option N) (p : Pc N) : 1 ≤ account head p := by
  cases p <;> simp only [account] <;> first | omega | (split <;> omega)

/-- What a change of the head can cost a thread. -/
theorem account_spoilt (head head' : Option N) (p : Pc N) : account head' p ≤ account head p + 8 := by
  cases p <;> simp only [account] <;> first | omega | (split <;> split <;> omega)

theorem account_of_result (h : p.result.isSome = true) : account head p = 4 := by
  cases p <;> first | rfl | cases h

theorem account_enter (head : Option N) (op : Op N) : account head (Pc.enter op) ≤ 4 := by
  cases op with
  | push n => exact Nat.le_succ 3
  | pop => simp only [Pc.enter, account]; split <;> omega

end Account

/-! ### One step -/

section Step
variable {s u : State T N} {t v : T}

omit [DecidableEq N] in
theorem goto_pc (s : State T N) (t v : T) (p : Pc N) :
    (s.goto t p).pc v = if v = t then p else s.pc v := Function.update_apply ..

/-- A step that does not end its call leaves the head and spends a unit. -/
theorem spends_of_exec (hu : exec s t = some u) (hdone : (u.pc t).result.isSome = false) :
    u.headNext = s.headNext ∧ account u.headNext (u.pc t) + 1 ≤ account s.headNext (s.pc t) := by
  cases hp : s.pc t with
  | idle | pushRet | popRet r => simp [exec, hp] at hu
  | pushLoad n =>
    simp only [exec, hp, Option.some.injEq] at hu
    subst hu
    simp [State.goto, account]
  | pushStore n x =>
    simp only [exec, hp, Option.some.injEq] at hu
    subst hu
    by_cases hx : s.headNext = x <;> simp [State.goto, account, hx]
  | pushCas n x =>
    simp only [exec, hp] at hu
    split at hu <;> rename_i hx <;> cases hu
    · simp [State.goto, Pc.result] at hdone
    · simp [State.goto, account, hx]
  | backoffDist n | backoffDouble n | doubleStore n limit | backoffMod n | modStore n limit =>
    simp only [exec, hp, Option.some.injEq] at hu
    subst hu
    simp [State.goto, account]
  | popTest =>
    simp only [exec, hp] at hu
    split at hu <;> rename_i hx <;> cases hu
    · simp [State.goto, Pc.result] at hdone
    · simp [State.goto, account, hx]
  | popLoad =>
    simp only [exec, hp] at hu
    split at hu <;> rename_i hx <;> cases hu <;> simp [State.goto, account, hx]
  | popNext n =>
    simp only [exec, hp, Option.some.injEq] at hu
    subst hu
    by_cases hx : s.headNext = some n <;> simp [State.goto, account, hx]
  | popCas n x =>
    simp only [exec, hp] at hu
    split at hu <;> rename_i hx <;> cases hu
    · simp [State.goto, Pc.result] at hdone
    · by_cases hnone : s.headNext = none <;> simp [State.goto, account, hx, hnone]

/-- What an action does to the accounts of all threads. -/
theorem spends_of_step [Fintype T] {a : Action T N} (hu : step s a = some u) :
    ∑ v, account u.headNext (u.pc v) + (work s a).count .step ≤
      ∑ v, account s.headNext (s.pc v) +
        (4 + (Fintype.card T - 1) * 8) * (work s a).count .done := by
  cases a with
  | call t op =>
    simp only [step, Option.ite_none_right_eq_some, Option.some.injEq] at hu
    obtain ⟨hp, rfl⟩ := hu
    refine Finset.sum_le_sum fun v _ => ?_
    by_cases hv : v = t
    · subst hv
      rw [hp, goto_pc, if_pos rfl]
      exact account_enter s.headNext op
    · rw [goto_pc, if_neg hv]
      exact le_rfl
  | ret t =>
    simp only [step, Option.map_eq_some_iff] at hu
    obtain ⟨r, hr, rfl⟩ := hu
    refine Finset.sum_le_sum fun v _ => ?_
    by_cases hv : v = t
    · subst hv
      rw [account_of_result (show (s.pc v).result.isSome = true by rw [hr]; rfl), goto_pc, if_pos rfl]
      exact le_rfl
    · rw [goto_pc, if_neg hv]
      exact le_rfl
  | exec t =>
    have hother : ∀ v, v ≠ t → u.pc v = s.pc v := fun v hv => step_pc_of_ne (c := .exec t) hu hv
    have hexec : exec s t = some u := hu
    cases hdone : (u.pc t).result.isSome with
    | true =>
      have hcount : work s (.exec t) = [.step, .done] := by simp only [work, hexec, hdone, if_true]
      have hspend := sum_spend (f := fun v => account s.headNext (s.pc v))
        (g := fun v => account u.headNext (u.pc v)) 4 8 t
        (by have := account_pos s.headNext (s.pc t); rw [account_of_result hdone]; omega)
        (fun v hv => by rw [hother v hv]; exact account_spoilt _ _ _)
      simpa [hcount] using hspend
    | false =>
      have hcount : work s (.exec t) = [.step] := by simp [work, hexec, hdone]
      obtain ⟨hh, hspent⟩ := spends_of_exec hexec hdone
      have hspend := sum_spend (f := fun v => account s.headNext (s.pc v))
        (g := fun v => account u.headNext (u.pc v)) 0 0 t hspent
        (fun v hv => by rw [hother v hv, hh]; exact le_rfl)
      simpa [hcount] using hspend

end Step

/-! ### Runs -/

variable [Fintype T] {s u : State T N} {h : List Work}

/-- The steps of a run are paid for by the accounts at its start and the calls that end in it. -/
theorem steps_of_run (hr : Run (lockFreeStack.observe work) Free s h u) :
    ∑ v, account u.headNext (u.pc v) + h.count .step ≤
      ∑ v, account s.headNext (s.pc v) + (4 + (Fintype.card T - 1) * 8) * h.count .done := by
  refine hr.invariant (I := fun h u => ∑ v, account u.headNext (u.pc v) + h.count .step ≤
    ∑ v, account s.headNext (s.pc v) + (4 + (Fintype.card T - 1) * 8) * h.count .done) le_rfl ?_
  intro h x a y hx _ hy
  have hstep := spends_of_step (s := x) (u := y) (a := a) hy
  show ∑ v, account y.headNext (y.pc v) + (h ++ work x a).count .step ≤
    ∑ v, account s.headNext (s.pc v) + (4 + (Fintype.card T - 1) * 8) * (h ++ work x a).count .done
  rw [List.count_append, List.count_append, Nat.mul_add]
  omega

/-- From whatever state, `T` threads together take at most `10 T` steps before a call ends, and
at most `8 T - 4` more for each call that ends. -/
theorem lock_free_stack_lock_free (hr : Run (lockFreeStack.observe work) Free s h u) :
    h.count .step ≤ 10 * Fintype.card T + (4 + (Fintype.card T - 1) * 8) * h.count .done := by
  have hsteps := steps_of_run hr
  have hstart : ∑ v, account s.headNext (s.pc v) ≤ ∑ _v : T, 10 :=
    Finset.sum_le_sum fun v _ => account_le _ _
  rw [Finset.sum_const, Finset.card_univ, Nat.nsmul_eq_mul] at hstart
  omega

/-- Two pushes race; the loser backs off and takes the most steps that a call can take here. -/
theorem lock_free_stack_lock_free_race : ∃ (h : List Work) (u : State (Fin 2) (Fin 2)),
    Run (lockFreeStack.observe work) Free (initial fun _ => none) h u ∧
      h.count .step = 14 ∧ h.count .done = 2 ∧ 14 ≤ 10 * 2 + 12 * h.count .done := by
  obtain ⟨h, u, hr, ht⟩ := exists_run_of_exec (P := lockFreeStack.observe work) (C := Free)
    (s := (initial (fun _ => none) : State (Fin 2) (Fin 2)))
    (List.flatten [[.call 0 (.push 0), .call 1 (.push 1)], List.replicate 2 (.exec 1),
      List.replicate 3 (.exec 0), List.replicate 9 (.exec 1)])
    (fun h _ => h.count .step == 14 && h.count .done == 2) (by decide)
  simp only [Bool.and_eq_true, beq_iff_eq] at ht
  exact ⟨h, u, hr, ht.1, ht.2, ht.1 ▸ lock_free_stack_lock_free hr⟩

end Multicore.Stacks.LockFreeStack
