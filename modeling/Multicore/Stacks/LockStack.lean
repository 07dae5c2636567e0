import Multicore.Stacks.Treiber

/-! `LockStack` of project 3. The head is a bare pointer, and one mutex is held over the
whole of `push` and of `pop`. -/

namespace Multicore.Stacks.LockStack

open Runs

/-- The steps of `push` and those of `pop`. -/
inductive Pc (N : Type*)
  | idle
  | pushLock (n : N) | pushNext (n : N) | pushHead (n : N) | pushUnlock | pushRet
  | popLock | popTest | popNode | popHead (node : Option N) | popUnlock (node : Option N)
  | popRet (node : Option N)
  deriving DecidableEq

/-- The mutex has the thread that holds it. -/
structure State (T N : Type*) where
  mutex : Option T
  head : Option N
  next : N → Option N
  pc : T → Pc N

/-- A thread calls an operation, takes its next step, or returns to its caller. -/
inductive Action (T N : Type*)
  | call (t : T) (op : Op N) | exec (t : T) | ret (t : T)

variable {T N : Type*} [DecidableEq T] [DecidableEq N]

def State.goto (s : State T N) (t : T) (p : Pc N) : State T N :=
  { s with pc := Function.update s.pc t p }

/-- `pthread_mutex_lock` -/
def State.lock (s : State T N) (t : T) (p : Pc N) : Option (State T N) :=
  match s.mutex with
  | none => some { s.goto t p with mutex := some t }
  | some _ => none

/-- `pthread_mutex_unlock` -/
def State.unlock (s : State T N) (t : T) (p : Pc N) : State T N := { s.goto t p with mutex := none }

def exec (s : State T N) (t : T) : Option (State T N) :=
  match s.pc t with
  | .pushLock n => s.lock t (.pushNext n)
  | .pushNext n => some { s.goto t (.pushHead n) with next := Function.update s.next n s.head }
  | .pushHead n => some { s.goto t .pushUnlock with head := some n }
  | .pushUnlock => some (s.unlock t .pushRet)
  | .popLock => s.lock t .popTest
  | .popTest =>
    match s.head with
    | none => some (s.goto t (.popUnlock none))
    | some _ => some (s.goto t .popNode)
  | .popNode => some (s.goto t (.popHead s.head))
  | .popHead node =>
    match s.head with
    | none => none
    | some n => some { s.goto t (.popUnlock node) with head := s.next n }
  | .popUnlock node => some (s.unlock t (.popRet node))
  | .idle | .pushRet | .popRet _ => none

def Pc.enter : Op N → Pc N
  | .push n => .pushLock n
  | .pop => .popLock

/-- The value that a thread is about to return. -/
def Pc.result : Pc N → Option (Res N)
  | .pushRet => some .pushed
  | .popRet node => some (.popped node)
  | _ => none

def step (s : State T N) : Action T N → Option (State T N)
  | .call t op => if s.pc t = .idle then some (s.goto t (.enter op)) else none
  | .exec t => exec s t
  | .ret t => (s.pc t).result.map fun _ => s.goto t .idle

def shows (s : State T N) : Action T N → List (Event T (Op N) (Res N))
  | .call t op => [.call t op]
  | .exec _ => []
  | .ret t => ((s.pc t).result.map (Event.ret t)).toList

def lockStack (T N : Type*) [DecidableEq T] [DecidableEq N] :
    Program (State T N) (Action T N) (Event T (Op N) (Res N)) := ⟨step, shows⟩

def initial (next : N → Option N) : State T N := ⟨none, none, next, fun _ => .idle⟩

def Action.thread : Action T N → T
  | .call t _ | .exec t | .ret t => t

theorem exec_pc {s u : State T N} {t : T} (hu : exec s t = some u) : ∃ p, u.pc = Function.update s.pc t p := by
  unfold exec State.lock at hu
  repeat' split at hu
  all_goals cases hu
  all_goals exact ⟨_, rfl⟩

end Multicore.Stacks.LockStack
