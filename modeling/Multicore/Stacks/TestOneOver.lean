import Multicore.Stacks.TestOne
import Multicore.Stacks.Treiber
import Multicore.Runs.Client

/-! The workers and the main thread of `testone` as clients of a stack. A round of a worker is a
call, the steps that the stack makes of it, and a return; the main thread empties the stack by
such calls. Over the atomic stack, and so over every stack that refines it, this is `testone` as
it runs with operations of one step. -/

namespace Multicore.Stacks.TestOne

open Runs

/-- A worker stands outside its calls, or in a push or a pop of round `i`. -/
inductive Worker
  | at (p : Pc) | pushing (i : Int32) (pushcount popcount : UInt64)
  | popping (i : Int32) (pushcount popcount : UInt64)
  deriving DecidableEq

/-- The main thread before a `pop`, inside it, or after one that has found nothing. -/
inductive MainThread
  | joining | popping (mypopcount : UInt64) | calling (mypopcount : UInt64) | printing (mypopcount : UInt64)
  | returned
  deriving DecidableEq

/-- All of `testone` but the stack. -/
structure Workers (numthreads : ℕ) where
  globalstack : Bool
  totalpushcount : UInt64
  totalpopcount : UInt64
  worker : Fin numthreads → Worker
  main : MainThread

/-- The threads that use the stack; `none` is the main thread. -/
abbrev Thread (numthreads : ℕ) := Option (Fin numthreads)

variable {numthreads : ℕ} {N : Type*}

def Workers.goto (k : Workers numthreads) (t : Fin numthreads) (w : Worker) : Workers numthreads :=
  { k with worker := Function.update k.worker t w }

/-- A step of a worker outside the stack. -/
def work (k : Workers numthreads) (t : Fin numthreads) : Option (Workers numthreads) :=
  match k.worker t with
  | .at .start => some { k.goto t (.at (.loop 0 0 0)) with globalstack := true }
  | .at (.loop i pushes pops) => if i < 10000 then none else some (k.goto t (.at (.readPush pushes pops)))
  | .at (.readPush pushes pops) => some (k.goto t (.at (.writePush pushes pops k.totalpushcount)))
  | .at (.writePush pushes pops total) =>
    some { k.goto t (.at (.readPop pushes pops)) with totalpushcount := total + pushes }
  | .at (.readPop pushes pops) => some (k.goto t (.at (.writePop pushes pops k.totalpopcount)))
  | .at (.writePop pushes pops total) =>
    some { k.goto t (.at (.done pushes pops)) with totalpopcount := total + pops }
  | .at (.done _ _) | .pushing _ _ _ | .popping _ _ _ => none

def Worker.isDone : Worker → Bool
  | .at p => p.isDone
  | _ => false

/-- A step of the main thread outside the stack: it joins the workers, or prints. -/
def workMain (k : Workers numthreads) : Option (Workers numthreads) :=
  match k.main with
  | .joining => if ∀ t, (k.worker t).isDone then some { k with main := .popping 0 } else none
  | .printing _ => some { k with main := .returned }
  | .popping _ | .calling _ | .returned => none

/-- What a worker does with the result of its pop; `i--` and `i++` undo each other. -/
def popped (i : Int32) (pushes pops : UInt64) : Option N → Pc
  | some _ => .loop (i + 1) pushes (pops + 1)
  | none => .loop (i - 1 + 1) pushes pops

/-- The calls that a thread makes and what it does when they return. The side on which `zeroone`
falls is in the call that it makes. A node has the data that its constructor has given it. -/
def takes (data : N → Int32) (k : Workers numthreads) :
    Event (Thread numthreads) (Op N) (Res N) → Option (Workers numthreads)
  | .call (some t) (.push n) => match k.worker t with
    | .at (.loop i pushes pops) =>
      if i < 10000 ∧ data n = node t i then some (k.goto t (.pushing i pushes pops)) else none
    | _ => none
  | .call (some t) .pop => match k.worker t with
    | .at (.loop i pushes pops) =>
      if i < 10000 then some (k.goto t (.popping i pushes pops)) else none
    | _ => none
  | .ret (some t) .pushed => match k.worker t with
    | .pushing i pushes pops => some (k.goto t (.at (.loop (i + 1) (pushes + 1) pops)))
    | _ => none
  | .ret (some t) (.popped r) => match k.worker t with
    | .popping i pushes pops => some (k.goto t (.at (popped i pushes pops r)))
    | _ => none
  | .call none .pop => match k.main with
    -- without a worker the stack was never published
    | .popping mypopcount => if k.globalstack then some { k with main := .calling mypopcount } else none
    | _ => none
  | .ret none (.popped r) => match k.main, r with
    | .calling mypopcount, some _ => some { k with main := .popping (mypopcount + 1) }
    | .calling mypopcount, none => some { k with main := .printing mypopcount }
    | _, _ => none
  | .call none (.push _) | .ret none .pushed => none

/-- The threads of `testone`; a step is one of a worker or of the main thread. -/
def client (numthreads : ℕ) (data : N → Int32) :
    Client (Workers numthreads) (Thread numthreads) (Event (Thread numthreads) (Op N) (Res N)) UInt64 where
  step k
    | some t => work k t
    | none => workMain k
  shows k
    | some _ => []
    | none => match k.main with
      | .printing _ => [k.totalpushcount + k.totalpopcount]
      | _ => []
  takes := takes data

def Workers.initial (numthreads : ℕ) : Workers numthreads := ⟨false, 0, 0, fun _ => .at .start, .joining⟩

/-- Every write of a total finds there what the worker has read. -/
def Alone : Guard (Workers numthreads) (Thread numthreads) := fun k b =>
  match b with
  | some t => match k.worker t with
    | .at (.writePush _ _ total) => k.totalpushcount = total
    | .at (.writePop _ _ total) => k.totalpopcount = total
    | _ => True
  | none => True

/-! ### Over the atomic stack -/

/-- Where the worker is when its operation takes one step. -/
def Worker.pc : Worker → Status (Op N) (Res N) → Pc
  | .at p, _ => p
  | .pushing i pushes pops, .done _ => .loop (i + 1) (pushes + 1) pops
  | .pushing i pushes pops, _ => .loop i pushes pops
  | .popping i pushes pops, .done (.popped r) => popped i pushes pops r
  | .popping i pushes pops, _ => .loop i pushes pops

/-- The main thread counts a node when it is popped, and sees that there is none when it prints. -/
def MainThread.main : MainThread → Status (Op N) (Res N) → Main
  | .joining, _ => .joining
  | .popping c, _ => .popping c
  | .calling c, .done (.popped (some _)) => .popping (c + 1)
  | .calling c, _ => .popping c
  | .printing c, _ => .popping c
  | .returned, _ => .returned

/-- `testone` with operations of one step. -/
def seen (data : N → Int32) (k : Workers numthreads)
    (x : Atomic (Thread numthreads) (List N) (Op N) (Res N)) : State numthreads :=
  ⟨x.obj.map data, k.globalstack, k.totalpushcount, k.totalpopcount,
    fun t => (k.worker t).pc (x.status (some t)), k.main.main (x.status none)⟩

/-- A worker is in a call exactly while the stack has one of it. -/
def Worker.Fits (data : N → Int32) (t : Fin numthreads) : Worker → Status (Op N) (Res N) → Prop
  | .at _, a => a = .idle
  | .pushing i _ _, a => i < 10000 ∧ ((∃ n, data n = node t i ∧ a = .pending (.push n)) ∨ a = .done .pushed)
  | .popping i _ _, a => i < 10000 ∧ (a = .pending .pop ∨ ∃ r, a = .done (.popped r))

def MainThread.Fits : MainThread → Status (Op N) (Res N) → Prop
  | .joining, a | .popping _, a | .returned, a | .printing _, a => a = .idle
  | .calling _, a => a = .pending .pop ∨ ∃ r, a = .done (.popped r)

/-- The main thread has come out of its loop: a pop has found nothing. -/
def MainThread.LoopLeft : MainThread → Prop
  | .printing _ | .returned => True
  | .joining | .popping _ | .calling _ => False

/-- The client and the stack agree; once the workers are joined only the main thread uses the
stack, and what it has found to be empty stays so. -/
structure Fits (data : N → Int32) (k : Workers numthreads)
    (x : Atomic (Thread numthreads) (List N) (Op N) (Res N)) : Prop where
  worker : ∀ t, (k.worker t).Fits data t (x.status (some t))
  main : k.main.Fits (x.status none)
  published : ∀ c, k.main = .calling c ∨ k.main = .printing c → k.globalstack = true
  joined : k.main ≠ .joining → ∀ t, (k.worker t).isDone
  empty : k.main.LoopLeft ∨ x.status none = .done (.popped none) → x.obj = []

section Over
variable {data : N → Int32} {k k' : Workers numthreads} {t : Fin numthreads} {w : Worker}
  {x x' : Atomic (Thread numthreads) (List N) (Op N) (Res N)} {a : Status (Op N) (Res N)} {p : Pc}

/-- The workers after one of them has moved, on its own or with its operation. -/
theorem pcs_update (hw : k'.worker = Function.update k.worker t w)
    (hv : ∀ v, v ≠ t → x'.status (some v) = x.status (some v)) :
    (fun v => (k'.worker v).pc (x'.status (some v))) =
      Function.update (fun v => (k.worker v).pc (x.status (some v))) t (w.pc (x'.status (some t))) := by
  funext v
  by_cases h : v = t
  · subst h
    rw [Function.update_self, hw, Function.update_self]
  · rw [Function.update_of_ne h, hw, Function.update_of_ne h, hv v h]

theorem Fits.initial : Fits data (Workers.initial numthreads) (Atomic.initial (Thread numthreads) (lifo N)) where
  worker _ := rfl
  main := rfl
  published c h := by rcases h with h | h <;> cases h
  joined h := absurd rfl h
  empty _ := rfl

/-- A worker that is not done moves while the main thread waits for it. -/
theorem Fits.move (hf : Fits data k x) (ht : ¬ (k.worker t).isDone)
    (hw : k'.worker = Function.update k.worker t w) (hmain : k'.main = k.main)
    (hv : ∀ v, v ≠ some t → x'.status v = x.status v) (hfit : w.Fits data t (x'.status (some t))) :
    Fits data k' x' := by
  have hjoining : k.main = .joining := by
    by_contra h
    exact ht (hf.joined h t)
  refine ⟨fun v => ?_, ?_, fun c h => ?_, fun h => ?_, fun h => ?_⟩
  · by_cases h : v = t
    · subst h
      rwa [hw, Function.update_self]
    · rw [hw, Function.update_of_ne h, hv _ (by simpa using h)]
      exact hf.worker v
  · rw [hmain, hv none (by simp)]
    exact hf.main
  · rw [hmain, hjoining] at h
    rcases h with h | h <;> cases h
  · exact absurd (hmain.trans hjoining) h
  · have hidle := hf.main
    rw [hjoining] at hidle
    rw [hmain, hjoining, hv none (by simp), show x.status none = .idle from hidle] at h
    rcases h with h | h <;> cases h

theorem pc_seen (hp : k.worker t = .at p) : (seen data k x).pc t = p := by
  show (k.worker t).pc (x.status (some t)) = p
  rw [hp]
  rfl

theorem undisturbed_seen (hp : k.worker t = .at p) (hc : Alone k (some t)) (heads : Bool) :
    Undisturbed (seen data k x) (.exec t heads) := by
  simp only [Alone, hp] at hc
  simp only [Undisturbed, pc_seen hp]
  cases p <;> exact hc

/-- The step of a worker outside the stack is its step in `testone`. -/
theorem seen_work (hf : Fits data k x) (hu : work k t = some k') : Fits data k' x ∧
    (Alone k (some t) → Run (testone numthreads) Undisturbed (seen data k x) [] (seen data k' x)) := by
  have hfit := hf.worker t
  cases hp : k.worker t with
  | pushing i a b | popping i a b => simp [work, hp] at hu
  | «at» p =>
    have hpc : (seen data k x).pc t = p := pc_seen hp
    rw [hp] at hfit
    have hstep : ∀ {q : Pc}, ¬ p.isDone → k'.main = k.main →
        k'.worker = Function.update k.worker t (.at q) →
        ((seen data k' x).pc = Function.update (seen data k x).pc t q →
          exec (seen data k x) t true = some (seen data k' x)) →
        Fits data k' x ∧ (Alone k (some t) →
          Run (testone numthreads) Undisturbed (seen data k x) [] (seen data k' x)) :=
      fun hd hm hq hs => ⟨hf.move (by rw [hp]; exact hd) hq hm (fun _ _ => rfl) hfit, fun hc =>
        run_exec t true (undisturbed_seen hp hc true) (hs (pcs_update hq fun _ _ => rfl))⟩
    cases p with
    | loop i a b =>
      simp only [work, hp, Option.ite_none_left_eq_some, Option.some.injEq] at hu
      obtain ⟨hi, rfl⟩ := hu
      refine hstep Bool.false_ne_true rfl rfl fun hpcs => ?_
      simp only [exec, hpc, if_neg hi, Option.some.injEq]
      exact State.ext rfl rfl rfl rfl hpcs.symm rfl
    | done a b => simp [work, hp] at hu
    | start | readPush a b | writePush a b total | readPop a b | writePop a b total =>
      simp only [work, hp, Option.some.injEq] at hu
      subst hu
      refine hstep Bool.false_ne_true rfl rfl fun hpcs => ?_
      simp only [exec, hpc, Option.some.injEq]
      exact State.ext rfl rfl rfl rfl hpcs.symm rfl

theorem isDone_pc (w : Worker) (a : Status (Op N) (Res N)) : (w.pc a).isDone = w.isDone := by
  cases w with
  | «at» p => rfl
  | pushing i b c => cases a <;> rfl
  | popping i b c =>
    cases a with
    | done r =>
      cases r with
      | pushed => rfl
      | popped r => cases r <;> rfl
    | _ => rfl

/-- So is a step of the main thread. -/
theorem seen_workMain (hf : Fits data k x) (hu : workMain k = some k') :
    Fits data k' x ∧ Run (testone numthreads) Undisturbed (seen data k x)
      ((client (N := N) numthreads data).shows k none) (seen data k' x) := by
  have hmain := hf.main
  cases hm : k.main with
  | joining =>
    rw [hm] at hmain
    simp only [workMain, hm, Option.ite_none_right_eq_some, Option.some.injEq] at hu
    obtain ⟨hd, rfl⟩ := hu
    refine ⟨⟨hf.worker, hmain, ?_, fun _ => hd, ?_⟩, ?_⟩
    · rintro c (h | h) <;> cases h
    · rintro (h | h)
      · exact h.elim
      · rw [show x.status none = .idle from hmain] at h
        cases h
    · have hdone : ∀ t, ((seen data k x).pc t).isDone := fun t => (isDone_pc ..).trans (hd t)
      have hjoin : (seen data k x).main = .joining := by
        show k.main.main _ = _
        rw [hm]
        rfl
      have hshow : (client (N := N) numthreads data).shows k none =
          (testone numthreads).shows (seen data k x) .main := by
        simp only [client, hm, testone, shows, hjoin]
      rw [hshow]
      refine Run.single (P := testone numthreads) (a := .main) trivial ?_
      simp only [testone, step, execMain, hjoin]
      exact if_pos hdone
  | printing c =>
    rw [hm] at hmain
    simp only [workMain, hm, Option.some.injEq] at hu
    subst hu
    have hobj := hf.empty (.inl (by rw [hm]; trivial))
    refine ⟨⟨hf.worker, hmain, ?_, fun _ => hf.joined (by rw [hm]; exact MainThread.noConfusion), ?_⟩, ?_⟩
    · rintro c (h | h) <;> cases h
    · exact fun _ => hobj
    · have hpop : (seen data k x).main = .popping c := by
        show k.main.main _ = _
        rw [hm]
        rfl
      have hstack : (seen data k x).stack = [] := by
        show x.obj.map data = []
        rw [hobj]
        rfl
      have hglobal : (seen data k x).globalstack = true := hf.published c (.inr hm)
      have hshow : (client (N := N) numthreads data).shows k none =
          (testone numthreads).shows (seen data k x) .main := by
        simp only [client, hm, testone, shows, hpop, hstack]
        rfl
      rw [hshow]
      refine Run.single (P := testone numthreads) (a := .main) trivial ?_
      simp only [testone, step, execMain, hpop, hstack, hglobal, if_true]
      exact congrArg some (State.ext hstack.symm hglobal.symm rfl rfl rfl rfl)
  | popping c | calling c | returned => simp [workMain, hm] at hu

/-! ### The operations of the stack -/

/-- An operation of a worker that takes no step of `testone`: its call or its return. -/
theorem seen_silent (hf : Fits data k x) (ht : ¬ (k.worker t).isDone) (hx : x'.obj = x.obj)
    (hv : ∀ v, v ≠ some t → x'.status v = x.status v) (hfit : w.Fits data t (x'.status (some t)))
    (hpc : w.pc (x'.status (some t)) = (k.worker t).pc (x.status (some t))) :
    Fits data (k.goto t w) x' ∧
      Run (testone numthreads) Undisturbed (seen data k x) [] (seen data (k.goto t w) x') := by
  refine ⟨hf.move ht rfl rfl hv hfit, ?_⟩
  have hsame : seen data (k.goto t w) x' = seen data k x := by
    refine State.ext (congrArg (List.map data) hx) rfl rfl rfl ?_
      (congrArg (k.main.main ·) (hv none (Option.some_ne_none t).symm))
    refine (pcs_update rfl fun v h => hv _ (by simpa using h)).trans ?_
    rw [hpc]
    exact Function.update_eq_self t _
  rw [hsame]
  exact .refl

/-- An operation of a worker that takes effect. -/
theorem seen_execute (heads : Bool) (hf : Fits data k x) (ht : ¬ (k.worker t).isDone)
    (hw : ∀ p, k.worker t ≠ .at p)
    (hv : ∀ v, v ≠ some t → x'.status v = x.status v) (hfit : (k.worker t).Fits data t (x'.status (some t)))
    (hu : exec (seen data k x) t heads = some { (seen data k x).goto t
      ((k.worker t).pc (x'.status (some t))) with stack := x'.obj.map data }) :
    Fits data k x' ∧ Run (testone numthreads) Undisturbed (seen data k x) [] (seen data k x') := by
  have hsame : k.worker = Function.update k.worker t (k.worker t) := (Function.update_eq_self ..).symm
  have hguard : Undisturbed (seen data k x) (.exec t heads) := by
    have hpc : (seen data k x).pc t = (k.worker t).pc (x.status (some t)) := rfl
    have hfit := hf.worker t
    simp only [Undisturbed, hpc]
    cases hp : k.worker t with
    | «at» p => exact absurd hp (hw p)
    | pushing i a b =>
      cases x.status (some t) <;> trivial
    | popping i a b =>
      rw [hp] at hfit
      obtain ⟨-, h | ⟨r, h⟩⟩ := hfit <;> rw [h]
      · trivial
      · cases r <;> trivial
  refine ⟨hf.move ht hsame rfl hv hfit, run_exec t heads hguard (hu.trans (congrArg some ?_))⟩
  exact State.ext rfl rfl rfl rfl (pcs_update hsame fun v h => hv _ (by simpa using h)).symm
    (congrArg (k.main.main ·) (hv none (Option.some_ne_none t).symm)).symm

section Main
variable {m : MainThread}

/-- The main thread moves, with or without its operation, once the workers are joined. -/
theorem Fits.moveMain (hf : Fits data k x) (hjoined : k.main ≠ .joining) (hpub : k.globalstack = true)
    (hv : ∀ t, x'.status (some t) = x.status (some t)) (hfit : m.Fits (x'.status none))
    (hempty : m.LoopLeft ∨ x'.status none = .done (.popped none) → x'.obj = []) :
    Fits data { k with main := m } x' :=
  ⟨fun t => hv t ▸ hf.worker t, hfit, fun _ _ => hpub, fun _ => hf.joined hjoined, hempty⟩

theorem seen_main (m : MainThread) (hv : ∀ t, x'.status (some t) = x.status (some t)) :
    seen data { k with main := m } x' =
      { seen data k x with stack := x'.obj.map data, main := m.main (x'.status none) } :=
  State.ext rfl rfl rfl rfl (funext fun t => congrArg ((k.worker t).pc ·) (hv t)) rfl

/-- An operation of the main thread that takes no step of `testone`. -/
theorem run_main_silent (m : MainThread) (hv : ∀ t, x'.status (some t) = x.status (some t))
    (hx : x'.obj = x.obj) (hm : m.main (x'.status none) = k.main.main (x.status none)) :
    Run (testone numthreads) Undisturbed (seen data k x) [] (seen data { k with main := m } x') := by
  rw [seen_main m hv, hx, hm]
  exact .refl

end Main

/-- A call takes no step of `testone`. -/
theorem seen_call {v : Thread numthreads} {op : Op N} (hf : Fits data k x)
    (hk : takes data k (.call v op) = some k') (hx' : x'.status v = .pending op) (hobj : x'.obj = x.obj)
    (hv : ∀ u, u ≠ v → x'.status u = x.status u) :
    Fits data k' x' ∧ Run (testone numthreads) Undisturbed (seen data k x) [] (seen data k' x') := by
  cases v with
  | some t =>
    have hin : ∀ {i : Int32} {a b : UInt64} {w : Worker}, k.worker t = .at (.loop i a b) →
        w.Fits data t (.pending op) → w.pc (.pending op : Status (Op N) (Res N)) = .loop i a b →
        Fits data (k.goto t w) x' ∧
          Run (testone numthreads) Undisturbed (seen data k x) [] (seen data (k.goto t w) x') :=
      fun hp hfit hpc => seen_silent hf (by rw [hp]; exact Bool.false_ne_true) hobj hv
        (by rwa [hx']) (by rw [hx', hpc, hp]; rfl)
    cases op with
    | push n =>
      simp only [takes] at hk
      split at hk
      · rename_i i a b hp
        simp only [Option.ite_none_right_eq_some, Option.some.injEq] at hk
        obtain ⟨⟨hi, hn⟩, rfl⟩ := hk
        exact hin hp ⟨hi, .inl ⟨n, hn, rfl⟩⟩ rfl
      · cases hk
    | pop =>
      simp only [takes] at hk
      split at hk
      · rename_i i a b hp
        simp only [Option.ite_none_right_eq_some, Option.some.injEq] at hk
        obtain ⟨hi, rfl⟩ := hk
        exact hin hp ⟨hi, .inl rfl⟩ rfl
      · cases hk
  | none =>
    cases op with
    | push n => cases hk
    | pop =>
      simp only [takes] at hk
      split at hk
      · rename_i c hm
        simp only [Option.ite_none_right_eq_some, Option.some.injEq] at hk
        obtain ⟨hpub, rfl⟩ := hk
        have hsome : ∀ t, x'.status (some t) = x.status (some t) := fun t => hv _ (Option.some_ne_none t)
        refine ⟨hf.moveMain (by rw [hm]; exact MainThread.noConfusion) hpub hsome (.inl hx') ?_,
          run_main_silent _ hsome hobj (by rw [hm, hx']; rfl)⟩
        rintro (h | h)
        · exact h.elim
        · rw [hx'] at h
          cases h
      · cases hk

/-- A worker's operation takes effect as its step of `testone`. -/
theorem seen_execute_worker {op : Op N} (hf : Fits data k x) (hs : x.status (some t) = .pending op)
    (hx' : x'.status (some t) = .done ((lifo N).apply x.obj op).2) (hobj : x'.obj = ((lifo N).apply x.obj op).1)
    (hv : ∀ u, u ≠ some t → x'.status u = x.status u) :
    Fits data k x' ∧ Run (testone numthreads) Undisturbed (seen data k x) [] (seen data k x') := by
  have hfit := hf.worker t
  have hpc : (seen data k x).pc t = (k.worker t).pc (x.status (some t)) := rfl
  rw [hs] at hfit hpc
  cases hp : k.worker t with
  | «at» p =>
    rw [hp] at hfit
    cases hfit
  | pushing i a b =>
    rw [hp] at hfit
    obtain ⟨hi, ⟨n, hn, h⟩ | h⟩ := hfit <;> cases h
    replace hpc : (seen data k x).pc t = .loop i a b := by rw [hpc, hp]; rfl
    refine seen_execute true hf (by rw [hp]; exact Bool.false_ne_true)
      (by rw [hp]; exact fun _ => Worker.noConfusion) hv ?_ ?_
    · rw [hp, hx']
      exact ⟨hi, .inr rfl⟩
    · rw [hp, hx', hobj]
      simp only [exec, hpc, if_pos hi, if_true, ← hn]
      rfl
  | popping i a b =>
    rw [hp] at hfit
    obtain ⟨hi, h | ⟨r, h⟩⟩ := hfit <;> cases h
    replace hpc : (seen data k x).pc t = .loop i a b := by rw [hpc, hp]; rfl
    have hstack : (seen data k x).stack = x.obj.map data := rfl
    refine seen_execute false hf (by rw [hp]; exact Bool.false_ne_true)
      (by rw [hp]; exact fun _ => Worker.noConfusion) hv ?_ ?_
    · rw [hp, hx']
      refine ⟨hi, .inr ?_⟩
      cases x.obj <;> exact ⟨_, rfl⟩
    · rw [hp, hx', hobj]
      cases hl : x.obj with
      | nil =>
        rw [hl] at hstack
        simp only [exec, hpc, if_pos hi, Bool.false_eq_true, if_false, hstack, List.map_nil]
        exact congrArg some (State.ext hstack rfl rfl rfl rfl rfl)
      | cons n l =>
        rw [hl] at hstack
        simp only [exec, hpc, if_pos hi, Bool.false_eq_true, if_false, hstack, List.map_cons]
        rfl

/-- An operation of the main thread takes effect as its step, unless it finds nothing. -/
theorem seen_execute_main {op : Op N} (hf : Fits data k x) (hs : x.status none = .pending op)
    (hx' : x'.status none = .done ((lifo N).apply x.obj op).2) (hobj : x'.obj = ((lifo N).apply x.obj op).1)
    (hv : ∀ u, u ≠ none → x'.status u = x.status u) :
    Fits data k x' ∧ Run (testone numthreads) Undisturbed (seen data k x) [] (seen data k x') := by
  have hfit := hf.main
  have hsome : ∀ t, x'.status (some t) = x.status (some t) := fun t => hv _ (Option.some_ne_none t)
  rw [hs] at hfit
  cases hm : k.main with
  | joining | popping c | printing c | returned =>
    rw [hm] at hfit
    cases hfit
  | calling c =>
    rw [hm] at hfit
    obtain h | ⟨r, h⟩ := hfit <;> cases h
    have hpub := hf.published c (.inl hm)
    have hk : k = { k with main := .calling c } := by rw [← hm]
    have hpop : (seen data k x).main = .popping c := by
      show k.main.main (x.status none) = _
      rw [hm, hs]
      rfl
    have hmove : (x'.status none = .done (.popped none) → x'.obj = []) → Fits data k x' := fun hempty => by
      rw [hk]
      refine hf.moveMain (by rw [hm]; exact MainThread.noConfusion) hpub hsome (.inr ?_) ?_
      · rw [hx']
        cases x.obj <;> exact ⟨_, rfl⟩
      · rintro (h | h)
        · exact h.elim
        · exact hempty h
    cases hl : x.obj with
    | nil =>
      rw [hl] at hx' hobj
      refine ⟨hmove fun _ => hobj, ?_⟩
      have hsilent : Run (testone numthreads) Undisturbed (seen data k x) []
          (seen data { k with main := .calling c } x') :=
        run_main_silent (.calling c) hsome (hobj.trans hl.symm) (by rw [hx', hm, hs]; rfl)
      rwa [← hk] at hsilent
    | cons n l =>
      rw [hl] at hx' hobj
      refine ⟨hmove fun h => ?_, ?_⟩
      · rw [hx'] at h
        cases h
      · have hstack : (seen data k x).stack = data n :: l.map data := by
          show x.obj.map data = _
          rw [hl, List.map_cons]
        have hglobal : (seen data k x).globalstack = true := hpub
        have hseen : seen data { k with main := .calling c } x' = _ := seen_main (k := k) (.calling c) hsome
        rw [← hk, hx', hobj] at hseen
        have hr := Run.single (P := testone numthreads) (C := Undisturbed) (s := seen data k x) (a := .main)
          (u := seen data k x') trivial
          (by simp only [testone, step, execMain, hpop, hstack, hglobal, if_true, hseen]; rfl)
        simpa only [testone, shows, hpop, hstack] using hr

/-- A return takes no step of `testone`. -/
theorem seen_ret {v : Thread numthreads} {r : Res N} (hf : Fits data k x)
    (hk : takes data k (.ret v r) = some k') (hs : x.status v = .done r) (hx' : x'.status v = .idle)
    (hobj : x'.obj = x.obj) (hv : ∀ u, u ≠ v → x'.status u = x.status u) :
    Fits data k' x' ∧ Run (testone numthreads) Undisturbed (seen data k x) [] (seen data k' x') := by
  cases v with
  | some t =>
    cases r with
    | pushed =>
      simp only [takes] at hk
      split at hk
      · rename_i i a b hp
        simp only [Option.some.injEq] at hk
        subst hk
        exact seen_silent hf (by rw [hp]; exact Bool.false_ne_true) hobj hv hx' (by rw [hp, hs]; rfl)
      · cases hk
    | popped r =>
      simp only [takes] at hk
      split at hk
      · rename_i i a b hp
        simp only [Option.some.injEq] at hk
        subst hk
        exact seen_silent hf (by rw [hp]; exact Bool.false_ne_true) hobj hv hx' (by rw [hp, hs]; rfl)
      · cases hk
  | none =>
    have hsome : ∀ t, x'.status (some t) = x.status (some t) := fun t => hv _ (Option.some_ne_none t)
    cases r with
    | pushed => cases hk
    | popped r =>
      simp only [takes] at hk
      split at hk <;> simp only [Option.some.injEq, reduceCtorEq] at hk <;> subst hk
      · rename_i c n hm
        have hpub := hf.published c (.inl hm)
        refine ⟨hf.moveMain (by rw [hm]; exact MainThread.noConfusion) hpub hsome hx' ?_,
          run_main_silent _ hsome hobj (by rw [hm, hs]; rfl)⟩
        rintro (h | h)
        · exact h.elim
        · rw [hx'] at h
          cases h
      · rename_i c hm
        have hpub := hf.published c (.inl hm)
        refine ⟨hf.moveMain (by rw [hm]; exact MainThread.noConfusion) hpub hsome hx' fun _ => ?_,
          run_main_silent _ hsome hobj (by rw [hm, hs]; rfl)⟩
        rw [hobj]
        exact hf.empty (.inr hs)

/-- An action of the stack, in which the client takes its part. -/
theorem seen_object {b : Act (Thread numthreads) (Op N)} (hf : Fits data k x)
    (hy : (atomic (Thread numthreads) (lifo N)).step x b = some x')
    (hl : (client numthreads data).takeAll k ((atomic (Thread numthreads) (lifo N)).shows x b) = some k') :
    Fits data k' x' ∧ Run (testone numthreads) Undisturbed (seen data k x) [] (seen data k' x') := by
  obtain ⟨v, hv, ⟨op, hshow, -, hx', hobj⟩ | ⟨op, hshow, hs, hx', hobj⟩ | ⟨r, hshow, hs, hx', hobj⟩⟩ :=
    Atomic.step_cases hy
  · rw [show (atomic _ (lifo N)).shows x b = _ from hshow, Client.takeAll_singleton] at hl
    exact seen_call hf hl hx' hobj hv
  · rw [show (atomic _ (lifo N)).shows x b = _ from hshow] at hl
    cases hl
    cases v with
    | some t => exact seen_execute_worker hf hs hx' hobj hv
    | none => exact seen_execute_main hf hs hx' hobj hv
  · rw [show (atomic _ (lifo N)).shows x b = _ from hshow, Client.takeAll_singleton] at hl
    exact seen_ret hf hl hs hx' hobj hv

/-- `testone` over the atomic stack is `testone` with operations of one step. -/
theorem run_seen {h : List UInt64} {z : Workers numthreads × Atomic (Thread numthreads) (List N) (Op N) (Res N)}
    (hr : Run ((client numthreads data).driving (atomic (Thread numthreads) (lifo N))) (Client.both Alone Free)
      (Workers.initial numthreads, Atomic.initial _ (lifo N)) h z) :
    Fits data z.1 z.2 ∧ Run (testone numthreads) Undisturbed (initial numthreads) h (seen data z.1 z.2) := by
  refine hr.invariant (I := fun h z => Fits data z.1 z.2 ∧
    Run (testone numthreads) Undisturbed (initial numthreads) h (seen data z.1 z.2)) ⟨.initial, .refl⟩ ?_
  rintro h ⟨k, x⟩ a ⟨k', x'⟩ ⟨hf, hrun⟩ hc hu
  obtain ⟨b, rfl, hl, hx⟩ | ⟨b, rfl, hy, hl⟩ := Client.driving_cases hu
  · cases hx
    cases b with
    | some t => exact ⟨(seen_work hf hl).1, hrun.trans ((seen_work hf hl).2 hc)⟩
    | none => exact ⟨(seen_workMain hf hl).1, hrun.trans (seen_workMain hf hl).2⟩
  · obtain ⟨hfit, hnext⟩ := seen_object hf hy hl
    exact ⟨hfit, hrun.trans hnext⟩

end Over

end Multicore.Stacks.TestOne
