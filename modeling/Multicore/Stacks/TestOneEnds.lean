import Multicore.Stacks.LockFreedom
import Multicore.Stacks.Sequential
import Multicore.Stacks.TestOneProgress

/-! `testone` ends over `LockFreeStack` and over `LockStack`. A thread inside `LockFreeStack` can always
go on, and its steps are paid for by the accounts of all threads; inside `LockStack` it can, or the one
that holds the mutex can, and each call has only so many steps. -/

namespace Multicore.Stacks.LockFreeStack

open Runs

variable {T N : Type*} [DecidableEq T] [DecidableEq N] [Fintype T] {s u : State T N} {t : T}

def Pc.working : Pc N → ℕ
  | .idle | .pushRet | .popRet _ => 0
  | _ => 1

/-- The accounts of all threads, with what the end of each call under way pays in. -/
def effort (s : State T N) : ℕ :=
  ∑ v, account s.headNext (s.pc v) + (4 + (Fintype.card T - 1) * 8) * ∑ v, (s.pc v).working

theorem effort_exec (hu : exec s t = some u) : effort u < effort s := by
  have hspend := spends_of_step (a := .exec t) hu
  have hsum := sum_change (fun v => (s.pc v).working) (fun v => (u.pc v).working) t fun v hv => by
    rw [step_pc_of_ne (c := .exec t) hu hv]
  have hwas : (s.pc t).working = 1 := by
    cases hp : s.pc t <;> first | rfl | simp [exec, hp] at hu
  simp only [hwas, work, hu] at hsum hspend
  simp only [effort]
  cases hr : (u.pc t).result.isSome with
  | true =>
    have hnow : (u.pc t).working = 0 := by
      cases hp : u.pc t <;> rw [hp] at hr <;> first | rfl | cases hr
    simp only [hr, hnow, if_true] at hsum hspend
    have hmul : (4 + (Fintype.card T - 1) * 8) * (∑ v, (u.pc v).working + 1) =
        (4 + (Fintype.card T - 1) * 8) * ∑ v, (s.pc v).working := by rw [hsum, Nat.add_zero]
    rw [Nat.mul_add] at hmul
    simp at hspend
    omega
  | false =>
    have hnow : (u.pc t).working ≤ 1 := by cases u.pc t <;> simp [Pc.working]
    have hmul := Nat.mul_le_mul_left (4 + (Fintype.card T - 1) * 8)
      (show ∑ v, (u.pc v).working ≤ ∑ v, (s.pc v).working by omega)
    simp [hr] at hspend
    omega

omit [Fintype T] in
/-- A thread in a call can go on, or return. -/
theorem exec_or_result (ht : s.pc t ≠ .idle) : (∃ u, exec s t = some u) ∨ ∃ r, (s.pc t).result = some r := by
  cases hp : s.pc t with
  | idle => exact absurd hp ht
  | pushRet | popRet r => exact .inr ⟨_, rfl⟩
  | pushCas n x | popTest | popLoad | popCas n x =>
    simp only [exec, hp]
    split <;> exact .inl ⟨_, rfl⟩
  | _ =>
    simp only [exec, hp]
    exact .inl ⟨_, rfl⟩

theorem lively {numthreads : ℕ} : TestOne.Lively
    (lockFreeStack (T := TestOne.Thread numthreads) (N := N)) Fresh
    (fun s x => ∃ l, Treiber s.core l ∧ x = s.core.atomic l) Action.thread effort where
  follow := TestOne.lockFreeStack_refines
  spend {s a u} hu hshow := by
    cases a with
    | call v op => cases hshow
    | exec v => exact effort_exec hu
    | ret v =>
      obtain ⟨r, hr, -⟩ := Option.map_eq_some_iff.mp hu
      simp [lockFreeStack, shows, hr] at hshow
  idle {s x v} hR hv := by
    obtain ⟨l, -, rfl⟩ := hR
    have hp : s.pc v = .idle := by
      change (s.pc v).view.status = .idle at hv
      cases hp : s.pc v <;> rw [hp] at hv <;> first | rfl | cases hv
    exact ⟨.call v .pop, _, rfl, trivial, by simp only [lockFreeStack, step, hp, if_true]; rfl, rfl⟩
  busy {s x v} hR hv := by
    obtain ⟨l, -, rfl⟩ := hR
    have hp : s.pc v ≠ .idle := fun hp => hv (by show (s.pc v).view.status = _; rw [hp]; rfl)
    obtain ⟨u, hu⟩ | ⟨r, hr⟩ := exec_or_result hp
    · exact .inl ⟨v, .exec v, u, rfl, trivial, hu, rfl⟩
    · refine .inr ⟨r, ?_, .ret v, _, rfl, trivial,
        by simp only [lockFreeStack, step, hr, Option.map_some]; rfl, ?_⟩
      · show (s.pc v).view.status = _
        cases hp : s.pc v <;> rw [hp] at hr <;> cases hr <;> rfl
      · simp [lockFreeStack, shows, hr]

end Multicore.Stacks.LockFreeStack

namespace Multicore.Stacks.LockStack

open Runs

variable {T N : Type*} [DecidableEq T] [DecidableEq N] {s u : State T N} {t : T}

theorem left_exec (hu : exec s t = some u) : (u.pc t).left < (s.pc t).left := by
  cases hp : s.pc t with
  | idle | pushRet | popRet node => simp [exec, hp] at hu
  | pushLock n | popLock =>
    simp only [exec, hp, State.lock] at hu
    split at hu <;> cases hu
    simp [State.goto, Pc.left]
  | popTest | popHead node =>
    simp only [exec, hp] at hu
    split at hu <;> cases hu <;> simp [State.goto, Pc.left]
  | pushNext n | pushHead n | pushUnlock | popNode | popUnlock node =>
    simp only [exec, hp, Option.some.injEq] at hu
    subst hu
    simp [State.goto, State.unlock, Pc.left]

theorem lively {numthreads : ℕ} : TestOne.Lively (lockStack (TestOne.Thread numthreads) N) Fresh
    (fun s x => ∃ l, Inv s l ∧ x = s.atomic l) Action.thread fun s => ∑ v, (s.pc v).left where
  follow := TestOne.lockStack_refines
  spend {s a u} hu hshow := by
    cases a with
    | call v op => cases hshow
    | exec v =>
      obtain ⟨p, hp⟩ := exec_pc hu
      have hsum := sum_change (fun v => (s.pc v).left) (fun v => (u.pc v).left) v fun w hw => by
        rw [hp, Function.update_of_ne hw]
      have hlt := left_exec hu
      omega
    | ret v =>
      obtain ⟨r, hr, -⟩ := Option.map_eq_some_iff.mp hu
      simp [lockStack, shows, hr] at hshow
  idle {s x v} hR hv := by
    obtain ⟨l, -, rfl⟩ := hR
    have hp : s.pc v = .idle := by
      change (s.pc v).status = .idle at hv
      cases hp : s.pc v <;> rw [hp] at hv <;> first | rfl | cases hv
    exact ⟨.call v .pop, _, rfl, trivial, by simp only [lockStack, step, hp, if_true]; rfl, rfl⟩
  busy {s x v} hR hv := by
    obtain ⟨l, hi, rfl⟩ := hR
    have hp : s.pc v ≠ .idle := fun hp => hv (by show (s.pc v).status = _; rw [hp]; rfl)
    obtain ⟨w, u, -, hu⟩ | ⟨r, hr⟩ := hi.next hp
    · exact .inl ⟨w, .exec w, u, rfl, trivial, hu, rfl⟩
    · refine .inr ⟨r, ?_, .ret v, _, rfl, trivial,
        by simp only [lockStack, step, hr, Option.map_some]; rfl, ?_⟩
      · show (s.pc v).status = _
        cases hp : s.pc v <;> rw [hp] at hr <;> cases hr <;> rfl
      · simp [lockStack, shows, hr]

end Multicore.Stacks.LockStack

namespace Multicore.Stacks.TestOne

open Runs

variable {numthreads : ℕ} {σ α : Type*}

/-- At time `m` every worker is done, the stack is empty and the main thread has printed one total, which
is 10000 for each worker if no worker has written a total between another's read and write of it. -/
structure Ends {N : Type*} (data : N → Int32) (P : Program σ α (Event (Thread numthreads) (Op N) (Res N)))
    (C : Guard σ α) (head : σ → Option N) (f : ℕ → Workers numthreads × σ)
    (act : ℕ → Option (Thread numthreads ⊕ α)) (m : ℕ) : Prop where
  workers : ∀ t, ((f m).1.worker t).isDone
  main : (f m).1.main = .returned
  emptied : head (f m).2 = none
  printed : ∃ total, Execution.history ((client numthreads data).driving P) f act m = [total] ∧
    ((∀ l a, act l = some a → Client.both Alone C (f l) a) → total.toNat = 10000 * numthreads)

theorem Lively.exists_ends {N : Type*} {data : N → Int32}
    {P : Program σ α (Event (Thread numthreads) (Op N) (Res N))} {C : Guard σ α}
    {R : σ → Atomic (Thread numthreads) (List N) (Op N) (Res N) → Prop}
    {thread : α → Thread numthreads} {μ : σ → ℕ} {s : σ} {head : σ → Option N} (hP : Lively P C R thread μ)
    (hhead : ∀ s x, R s x → x.obj = [] → head s = none) (hn : 0 < numthreads) (hlt : numthreads < 2 ^ 32)
    (hR : R s (Atomic.initial _ (lifo N)))
    {f : ℕ → Workers numthreads × σ} {act : ℕ → Option (Thread numthreads ⊕ α)}
    (he : Execution ((client numthreads data).driving P) (Client.both Free C) f act)
    (h0 : f 0 = (Workers.initial numthreads, s))
    (hfair : FairTo (actor thread) ((client numthreads data).driving P) (Client.both Free C) f act)
    (htoss : Tossed P f act) : ∃ m, Ends data P C head f act m := by
  obtain ⟨m, hdone, hmain, x, hx, hempty⟩ := hP.ends hn hR he h0 hfair htoss
  have hone := printed_of_run (h0 ▸ he.run_history m)
  rw [if_pos hmain] at hone
  obtain ⟨total, htotal⟩ := List.length_eq_one_iff.mp hone
  refine ⟨m, hdone, hmain, hhead _ _ hx hempty, total, htotal, fun halone => ?_⟩
  have hr := (he.restrict halone).run_history m
  rw [h0] at hr
  have hreports := reports_of_refines hlt hP.follow hhead hR hr
  exact hreports.printed total (by rw [htotal]; exact List.mem_singleton_self _)

/-- `testone` ends over `LockFreeStack` and over `LockStack`, with all their single steps: in every
execution in which each thread that could go on all the time goes on again, and no worker's coin falls
on tails for ever, all workers come to their end, the main thread empties the stack and prints once. -/
theorem testone_ends (hn : 0 < numthreads) (hlt : numthreads < 2 ^ 32) :
    (∀ (data : ℕ → Int32) (next : ℕ → Option ℕ) f act,
      Execution ((client numthreads data).driving LockFreeStack.lockFreeStack)
        (Client.both Free LockFreeStack.Fresh) f act →
      f 0 = (Workers.initial numthreads, LockFreeStack.initial next) →
      FairTo (actor LockFreeStack.Action.thread) ((client numthreads data).driving LockFreeStack.lockFreeStack)
        (Client.both Free LockFreeStack.Fresh) f act →
      Tossed LockFreeStack.lockFreeStack f act →
      ∃ m, Ends data LockFreeStack.lockFreeStack LockFreeStack.Fresh LockFreeStack.State.headNext f act m) ∧
    (∀ (data : ℕ → Int32) (next : ℕ → Option ℕ) f act,
      Execution ((client numthreads data).driving (LockStack.lockStack _ ℕ))
        (Client.both Free LockStack.Fresh) f act →
      f 0 = (Workers.initial numthreads, LockStack.initial next) →
      FairTo (actor LockStack.Action.thread) ((client numthreads data).driving (LockStack.lockStack _ ℕ))
        (Client.both Free LockStack.Fresh) f act →
      Tossed (LockStack.lockStack _ ℕ) f act →
      ∃ m, Ends data (LockStack.lockStack _ ℕ) LockStack.Fresh LockStack.State.head f act m) := by
  refine ⟨fun data next f act he h0 hfair htoss => ?_, fun data next f act he h0 hfair htoss => ?_⟩
  · exact LockFreeStack.lively.exists_ends lockFreeStack_headNext_none hn hlt ⟨[], .initial next, rfl⟩ he h0
      hfair htoss
  · exact LockStack.lively.exists_ends lockStack_head_none hn hlt ⟨[], .initial next, rfl⟩ he h0 hfair htoss

/-! ### One worker -/

section One

abbrev oneFresh : Guard (Workers 1 × LockFreeStack.State (Thread 1) ℕ)
    (Thread 1 ⊕ LockFreeStack.Action (Thread 1) ℕ) := Client.both Free LockFreeStack.Fresh

/-- Nothing can happen afterwards. -/
theorem stuck_finish (a : Thread 1 ⊕ LockFreeStack.Action (Thread 1) ℕ) :
    oneWorker.step (finish .returned, leftStack) a = none := by
  rcases a with (_ | t) | (⟨v, op⟩ | v | v)
  · rfl
  · rfl
  · cases v <;> cases op <;> rfl
  · rfl
  · rfl

/-- One worker pushes two nodes more than it pops; all is over in the end. -/
theorem testone_ends_one : ∃ (f : ℕ → Workers 1 × LockFreeStack.State (Thread 1) ℕ)
    (act : ℕ → Option (Thread 1 ⊕ LockFreeStack.Action (Thread 1) ℕ)),
    Execution oneWorker oneFresh f act ∧
      f 0 = (Workers.initial 1, LockFreeStack.initial fun _ => none) ∧
      ∃ m, Ends nodeData LockFreeStack.lockFreeStack LockFreeStack.Fresh LockFreeStack.State.headNext
        f act m := by
  have hrun := run_testone.mono (D := oneFresh) fun z a hc => by
    cases a with
    | inl b => trivial
    | inr a => exact hc
  obtain ⟨f, act, n, he, h0, hlast⟩ := hrun.execution
  have hfair : FairTo (actor LockFreeStack.Action.thread) oneWorker oneFresh f act := by
    intro l i hl
    obtain ⟨a, -, -, ha⟩ := hl (max n l) (le_max_right n l)
    rw [(hlast _ (le_max_left n l)).1] at ha
    exact absurd (stuck_finish a) ha
  have htoss : Tossed LockFreeStack.lockFreeStack f act := fun t l _ => ⟨n, fun m a op hm ha => by
    rw [(hlast m hm).2] at ha
    cases ha⟩
  exact ⟨f, act, he, h0,
    (testone_ends (by decide) (by decide)).1 nodeData (fun _ => none) f act he h0 hfair htoss⟩

end One

end Multicore.Stacks.TestOne
