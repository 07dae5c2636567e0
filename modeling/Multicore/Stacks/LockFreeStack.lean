import Multicore.Stacks.Treiber
import Mathlib.Data.Fintype.Basic

/-! `LockFreeStack` of project 3. The head is a sentinel node and `head->next` the
top of the stack. `trypush` reads it, stores it in the node and swaps; `push` backs
off between its attempts. `trypop` reads it and the `next` field of the node found
there and swaps; `pop` tests for the empty stack before it tries. The node fields are
read and written outside the swaps. A node that is given to `push` has to be out of
the stack, of every other push and of the hands of every pop. -/

namespace Multicore.Stacks.LockFreeStack

open Runs

/-- The steps of `push` with `trypush` and `backoff`, and those of `pop` with `trypop`. -/
inductive Pc (N : Type*)
  | idle
  | pushLoad (n : N) | pushStore (n : N) (x : Option N) | pushCas (n : N) (x : Option N)
  | backoffDist (n : N) | backoffDouble (n : N) | doubleStore (n : N) (limit : UInt32)
  | backoffMod (n : N) | modStore (n : N) (limit : UInt32) | pushRet
  | popTest | popLoad | popNext (n : N) | popCas (n : N) (x : Option N) | popRet (r : Option N)
  deriving DecidableEq

structure State (T N : Type*) where
  headNext : Option N
  next : N → Option N
  limit : UInt32
  pc : T → Pc N

/-- A thread calls an operation, takes its next step, or returns to its caller. -/
inductive Action (T N : Type*)
  | call (t : T) (op : Op N) | exec (t : T) | ret (t : T)

variable {T N : Type*} [DecidableEq T] [DecidableEq N]

def State.goto (s : State T N) (t : T) (p : Pc N) : State T N :=
  { s with pc := Function.update s.pc t p }

def exec (s : State T N) (t : T) : Option (State T N) :=
  match s.pc t with
  | .pushLoad n => some (s.goto t (.pushStore n s.headNext))
  | .pushStore n x => some { s.goto t (.pushCas n x) with next := Function.update s.next n x }
  | .pushCas n x =>
    if s.headNext = x then some { s.goto t .pushRet with headNext := some n }
    else some (s.goto t (.backoffDist n))
  -- the delay is drawn from `1` to `limit` and slept
  | .backoffDist n => some (s.goto t (.backoffDouble n))
  | .backoffDouble n => some (s.goto t (.doubleStore n s.limit))
  | .doubleStore n limit => some { s.goto t (.backoffMod n) with limit := limit * 2 }
  | .backoffMod n => some (s.goto t (.modStore n s.limit))
  | .modStore n limit => some { s.goto t (.pushLoad n) with limit := limit % 1023 }
  | .popTest =>
    match s.headNext with
    | none => some (s.goto t (.popRet none))
    | some _ => some (s.goto t .popLoad)
  | .popLoad =>
    match s.headNext with
    -- `trypop` gives up and `pop` tests again
    | none => some (s.goto t .popTest)
    | some n => some (s.goto t (.popNext n))
  | .popNext n => some (s.goto t (.popCas n (s.next n)))
  | .popCas n x =>
    if s.headNext = some n then some { s.goto t (.popRet (some n)) with headNext := x }
    else some (s.goto t .popLoad)
  | .idle | .pushRet | .popRet _ => none

def Pc.enter : Op N → Pc N
  | .push n => .pushLoad n
  | .pop => .popTest

/-- The value that a thread is about to return. -/
def Pc.result : Pc N → Option (Res N)
  | .pushRet => some .pushed
  | .popRet r => some (.popped r)
  | _ => none

def step (s : State T N) : Action T N → Option (State T N)
  | .call t op => if s.pc t = .idle then some (s.goto t (.enter op)) else none
  | .exec t => exec s t
  | .ret t => (s.pc t).result.map fun _ => s.goto t .idle

def shows (s : State T N) : Action T N → List (Event T (Op N) (Res N))
  | .call t op => [.call t op]
  | .exec _ => []
  | .ret t => ((s.pc t).result.map (Event.ret t)).toList

def lockFreeStack : Program (State T N) (Action T N) (Event T (Op N) (Res N)) := ⟨step, shows⟩

def initial (next : N → Option N) : State T N := ⟨none, next, 1, fun _ => .idle⟩

/-! ### The stack as a chain -/

def Pc.view : Pc N → View N
  | .idle => .idle
  | .pushLoad n | .pushStore n _ | .backoffDist n | .backoffDouble n | .doubleStore n _ | .backoffMod n
  | .modStore n _ => .placing n
  | .pushCas n x => .linked n x
  | .pushRet => .pushed
  | .popTest | .popLoad => .searching
  | .popNext n => .loaded n
  | .popCas n x => .ready n x
  | .popRet r => .popped r

def State.core (s : State T N) : Core T N := ⟨s.headNext, s.next, fun t => (s.pc t).view⟩

/-- A node is given to `push` only when it is in no chain, in no other push under way,
and in no other thread's hands inside `trypop`. -/
def Fresh : Guard (State T N) (Action T N)
  | s, .call t (.push n) => (∀ l, Chain s.next s.headNext l → n ∉ l) ∧
      ∀ u, u ≠ t → (s.pc u).view.pushes ≠ some n ∧ (s.pc u).view.holds ≠ some n
  | _, _ => True

/-- What the core of this stack does: no node is traded. -/
def Allowed : Guard (Core T N) (Core.Act T N) := fun c b => Stacks.Fresh c b ∧ NoTrade c b

section Core
variable {s u : State T N} {t : T} {p : Pc N} {a : Action T N}

omit [DecidableEq N] in
theorem core_eq (hu : u.pc = Function.update s.pc t p) :
    u.core = ⟨u.headNext, u.next, Function.update s.core.view t p.view⟩ := by
  unfold State.core
  rw [hu]
  exact congrArg (Core.mk u.headNext u.next) (Function.comp_update Pc.view s.pc t p)

omit [DecidableEq N] in
/-- A step that changes nothing but where its thread stands. -/
theorem core_goto (hu : u.pc = Function.update s.pc t p) (hh : u.headNext = s.headNext)
    (hn : u.next = s.next) : u.core = s.core.goto t p.view := by
  rw [core_eq hu, hh, hn]
  rfl

omit [DecidableEq N] in
/-- A step that the chain and its threads do not see. -/
theorem core_silent (hu : u.pc = Function.update s.pc t p) (hh : u.headNext = s.headNext)
    (hn : u.next = s.next) (hp : p.view = (s.pc t).view) : u.core = s.core := by
  rw [core_goto hu hh hn, hp]
  exact congrArg (Core.mk s.headNext s.next) (Function.update_eq_self t s.core.view)

/-- A step that is an action of the core. -/
theorem core_act {b : Core.Act T N} (hu : u.pc = Function.update s.pc t p)
    (hb : s.core.step b = some ⟨u.headNext, u.next, Function.update s.core.view t p.view⟩) :
    s.core.step b = some u.core := by
  rw [core_eq hu, hb]

omit [DecidableEq T] [DecidableEq N] in
theorem view_result (p : Pc N) : p.view.result = p.result := by cases p <;> rfl

omit [DecidableEq T] [DecidableEq N] in
theorem view_enter (op : Op N) : (Pc.enter op).view = View.enter op := by cases op <;> rfl

theorem core_call {op : Op N} (hu : step s (.call t op) = some u) :
    s.pc t = .idle ∧ u.core = s.core.goto t (.enter op) := by
  simp only [step, Option.ite_none_right_eq_some, Option.some.injEq] at hu
  obtain ⟨ht, rfl⟩ := hu
  rw [← view_enter]
  exact ⟨ht, core_goto rfl rfl rfl⟩

theorem core_ret (hu : step s (.ret t) = some u) :
    ∃ r, (s.pc t).result = some r ∧ u.core = s.core.goto t .idle := by
  simp only [step, Option.map_eq_some_iff] at hu
  obtain ⟨r, hr, rfl⟩ := hu
  exact ⟨r, hr, core_goto (p := .idle) rfl rfl rfl⟩

/-- A step of `t` is one action of the core that `t` takes alone, or none. -/
theorem core_exec (hu : exec s t = some u) :
    u.core = s.core ∨ ∃ b : Core.Act T N, b.Alone t ∧ s.core.step b = some u.core := by
  have hview : s.core.view t = (s.pc t).view := rfl
  cases hp : s.pc t with
  | idle | pushRet | popRet r => simp [exec, hp] at hu
  | pushLoad n | backoffDist n | backoffDouble n | doubleStore n limit | backoffMod n | modStore n limit =>
    simp only [exec, hp, Option.some.injEq] at hu
    subst hu
    exact .inl (core_silent rfl rfl rfl (by rw [hp]; rfl))
  | pushStore n x =>
    simp only [exec, hp, Option.some.injEq] at hu
    subst hu
    exact .inr ⟨.store t x, rfl, core_act rfl (by simp only [Core.step, hview, hp]; rfl)⟩
  | pushCas n x =>
    simp only [exec, hp] at hu
    split at hu <;> rename_i hx <;> simp only [Option.some.injEq] at hu <;> subst hu
    · refine .inr ⟨.link t, rfl, core_act rfl ?_⟩
      simp only [Core.step, hview, hp, Pc.view]
      exact if_pos hx
    · exact .inr ⟨.retry t, rfl, core_act rfl (by simp only [Core.step, hview, hp]; rfl)⟩
  | popTest =>
    simp only [exec, hp] at hu
    split at hu <;> rename_i hx <;> simp only [Option.some.injEq] at hu <;> subst hu
    · have hh : s.core.head = none := hx
      refine .inr ⟨.empty t, rfl, core_act rfl ?_⟩
      simp only [Core.step, hview, hp, hh]
      rfl
    · exact .inl (core_silent rfl rfl rfl (by rw [hp]; rfl))
  | popLoad =>
    simp only [exec, hp] at hu
    split at hu <;> rename_i hx <;> simp only [Option.some.injEq] at hu <;> subst hu
    · exact .inl (core_silent rfl rfl rfl (by rw [hp]; rfl))
    · rename_i n
      have hh : s.core.head = some n := hx
      refine .inr ⟨.load t, rfl, core_act rfl ?_⟩
      simp only [Core.step, hview, hp, hh]
      rfl
  | popNext n =>
    simp only [exec, hp, Option.some.injEq] at hu
    subst hu
    exact .inr ⟨.read t, rfl, core_act rfl (by simp only [Core.step, hview, hp]; rfl)⟩
  | popCas n x =>
    simp only [exec, hp] at hu
    split at hu <;> rename_i hx <;> simp only [Option.some.injEq] at hu <;> subst hu
    · refine .inr ⟨.unlink t, rfl, core_act rfl ?_⟩
      simp only [Core.step, hview, hp, Pc.view]
      exact if_pos hx
    · exact .inr ⟨.drop t, rfl, core_act rfl (by simp only [Core.step, hview, hp]; rfl)⟩

/-- Every action is one of the core, or none. -/
theorem core_step (hf : Fresh s a) (hu : step s a = some u) :
    Run (treiber T N) Allowed s.core (shows s a) u.core := by
  cases a with
  | call t op =>
    obtain ⟨ht, hcore⟩ := core_call hu
    have hview : s.core.view t = .idle := congrArg Pc.view ht
    refine Run.single (P := treiber T N) (a := .call t op) ⟨?_, trivial⟩ ?_
    · cases op with
      | push n => exact hf
      | pop => trivial
    · show s.core.step (.call t op) = some u.core
      simp only [Core.step, hview, hcore]
  | exec t =>
    rcases core_exec hu with he | ⟨b, hb, hstep⟩
    · rw [he]
      exact .refl
    · have hquiet : s.core.shows b = [] ∧ Allowed s.core b := by
        cases b <;> first | exact ⟨rfl, trivial, trivial⟩ | cases hb
      rw [show shows s (.exec t) = s.core.shows b from hquiet.1.symm]
      exact Run.single (P := treiber T N) hquiet.2 hstep
  | ret t =>
    obtain ⟨r, hr, hcore⟩ := core_ret hu
    have hres : (s.core.view t).result = some r := (view_result (s.pc t)).trans hr
    have hshow : shows s (.ret t) = s.core.shows (.ret t) := by simp only [shows, Core.shows, hr, hres]
    rw [hshow]
    refine Run.single (P := treiber T N) (a := .ret t) ⟨trivial, trivial⟩ ?_
    show s.core.step (.ret t) = some u.core
    simp only [Core.step, hres, hcore, Option.map_some]

end Core

/-- Every run keeps the chain and is followed by the atomic stack. -/
theorem run_core {next : N → Option N} {h : List (Event T (Op N) (Res N))} {s : State T N}
    (hr : Run lockFreeStack Fresh (initial next) h s) :
    ∃ l, Treiber s.core l ∧
      Run (atomic T (lifo N)) Free (Atomic.initial T (lifo N)) h (s.core.atomic l) :=
  Treiber.run (hr.map State.core fun _ _ _ hf hu => core_step hf hu) (fun _ _ hc => hc.1)
    (fun _ _ hc => hc.2)

/-! ### Empty pops -/

def Action.thread : Action T N → T
  | .call t _ | .exec t | .ret t => t

/-- `t` has been inside one and the same `pop` since a moment of the run at which the
stack was empty. -/
def EmptySince (next : N → Option N) (h : List (Event T (Op N) (Res N))) (s : State T N) (t : T) :
    Prop :=
  ∃ h₁ h₂ m, h = h₁ ++ h₂ ∧ Run lockFreeStack Fresh (initial next) h₁ m ∧
    Run lockFreeStack Fresh m h₂ s ∧ m.headNext = none ∧ (m.pc t).view.status = .pending .pop ∧
    ∀ e ∈ h₂, e.thread ≠ t

section Empty
variable {s u : State T N} {c : Action T N} {t : T} {next : N → Option N}
  {h : List (Event T (Op N) (Res N))}

theorem exec_pc {v : T} (hu : exec s v = some u) : ∃ p, u.pc = Function.update s.pc v p := by
  unfold exec at hu
  repeat' split at hu
  all_goals cases hu
  all_goals exact ⟨_, rfl⟩

theorem step_pc_of_ne (hu : step s c = some u) (ht : t ≠ c.thread) : u.pc t = s.pc t := by
  cases c with
  | call v op =>
    simp only [step, Option.ite_none_right_eq_some, Option.some.injEq] at hu
    obtain ⟨-, rfl⟩ := hu
    exact Function.update_of_ne ht _ _
  | exec v =>
    obtain ⟨p, hp⟩ := exec_pc hu
    rw [hp]
    exact Function.update_of_ne ht _ _
  | ret v =>
    simp only [step, Option.map_eq_some_iff] at hu
    obtain ⟨r, -, rfl⟩ := hu
    exact Function.update_of_ne ht _ _

omit [DecidableEq T] [DecidableEq N] in
theorem shows_thread : ∀ e ∈ shows s c, e.thread = c.thread := by
  intro e he
  cases c with
  | call v op => rw [List.mem_singleton.mp he]; rfl
  | exec v => cases he
  | ret v =>
    simp only [shows, Option.mem_toList, Option.map_eq_some_iff] at he
    obtain ⟨r, -, rfl⟩ := he
    rfl

/-- The only step to an empty-handed return is the test of an empty stack. -/
theorem step_popRet_none (hu : step s c = some u) (hc : c.thread = t) (ht : u.pc t = .popRet none) :
    c = .exec t ∧ s.pc t = .popTest ∧ s.headNext = none := by
  subst hc
  cases c with
  | call v op =>
    simp only [step, Option.ite_none_right_eq_some, Option.some.injEq] at hu
    obtain ⟨-, rfl⟩ := hu
    cases op <;> simp [State.goto, Action.thread, Pc.enter] at ht
  | exec v =>
    cases hp : s.pc v <;> simp only [step, exec, hp] at hu
    all_goals repeat' split at hu
    all_goals cases hu
    all_goals simp_all [State.goto, Action.thread]
  | ret v =>
    simp only [step, Option.map_eq_some_iff] at hu
    obtain ⟨r, -, rfl⟩ := hu
    simp [State.goto, Action.thread] at ht

theorem emptySince_of_run (hr : Run lockFreeStack Fresh (initial next) h s) (ht : s.pc t = .popRet none) :
    EmptySince next h s t := by
  induction hr with
  | refl => cases ht
  | tail hr hf hu ih =>
    rename_i h m v c
    by_cases hc : c.thread = t
    · obtain ⟨rfl, hp, hnone⟩ := step_popRet_none hu hc ht
      exact ⟨h, [], m, rfl, hr, Run.single (P := lockFreeStack) hf hu, hnone, by rw [hp]; rfl, nofun⟩
    · have hpc := step_pc_of_ne hu (Ne.symm hc)
      obtain ⟨h₁, h₂, m', rfl, hr₁, hr₂, hnone, hst, hev⟩ := ih (hpc ▸ ht)
      refine ⟨h₁, h₂ ++ shows m c, m', List.append_assoc .., hr₁, hr₂.tail hf hu, hnone, hst, ?_⟩
      intro e he
      rcases List.mem_append.mp he with he | he
      · exact hev e he
      · rw [shows_thread e he]
        exact hc

end Empty

/-- `LockFreeStack` is a linearizable last-in first-out stack, whatever threads use it
and in whatever order they take their steps. -/
theorem lock_free_stack_linearizable {next : N → Option N} {h : List (Event T (Op N) (Res N))}
    {s : State T N} (hr : Run lockFreeStack Fresh (initial next) h s) :
    -- the chain is finite and has no duplicates
    ∃ l, Chain s.next s.headNext l ∧ l.Nodup ∧
    -- a successful swap of `trypush` prepends the pushed node
    (∀ t n x u, s.pc t = .pushCas n x → s.headNext = x → step s (.exec t) = some u →
      Chain u.next u.headNext (n :: l) ∧ u.pc t = .pushRet) ∧
    -- a successful swap of `trypop` removes the first node and `pop` returns that node
    (∀ t n x u, s.pc t = .popCas n x → s.headNext = some n → step s (.exec t) = some u →
      ∃ k, l = n :: k ∧ Chain u.next u.headNext k ∧ u.pc t = .popRet (some n)) ∧
    -- `pop` returns null only if the stack was empty during the call
    (∀ t, s.pc t = .popRet none → EmptySince next h s t) ∧
    -- the atomic stack has the same history and holds the chain, with every thread
    -- before or after the execution of the same operation
    (∃ a, Run (atomic T (lifo N)) Free (Atomic.initial T (lifo N)) h a ∧ a.obj = l ∧
      ∀ t, a.status t = (s.pc t).view.status) ∧
    Linearizable (lifo N) h := by
  obtain ⟨l, hs, ha⟩ := run_core hr
  refine ⟨l, hs.chain, hs.chain.nodup, ?_, ?_, fun t ht => emptySince_of_run hr ht,
    ⟨_, ha, rfl, fun t => rfl⟩, linearizable_of_atomic ha⟩
  · intro t n x u hp hx hu
    simp only [step, exec, hp, hx, if_true, Option.some.injEq] at hu
    subst hu
    have hview : s.core.view t = .linked n s.core.head := by
      rw [show s.core.head = x from hx]
      exact congrArg Pc.view hp
    exact ⟨(hs.link hview).chain, Function.update_self ..⟩
  · intro t n x u hp hx hu
    simp only [step, exec, hp, hx, if_true, Option.some.injEq] at hu
    subst hu
    obtain ⟨hl, ht⟩ := hs.unlink (t := t) (x := x) (congrArg Pc.view hp) hx
    exact ⟨l.tail, hl, ht.chain, Function.update_self ..⟩

/-- Nothing points to the node that is given to `push`. -/
def Unseen : Guard (State T N) (Action T N)
  | s, .call _ (.push n) => s.headNext ≠ some n ∧ (∀ m, s.next m ≠ some n) ∧
      ∀ u, (s.pc u).view.pushes ≠ some n ∧ (s.pc u).view.holds ≠ some n
  | _, _ => True

omit [DecidableEq T] [DecidableEq N] in
theorem Unseen.fresh {s : State T N} {c : Action T N} (hc : Unseen s c) : Fresh s c := by
  cases c with
  | call t op =>
    cases op with
    | push n => exact ⟨fun l hl => hl.not_mem hc.1 hc.2.1, fun u _ => hc.2.2 u⟩
    | pop => trivial
  | exec t | ret t => trivial

instance [Fintype T] [Fintype N] (s : State T N) : (c : Action T N) → Decidable (Unseen s c)
  | .call _ (.push n) => inferInstanceAs (Decidable (s.headNext ≠ some n ∧ _ ∧ _))
  | .call _ .pop | .exec _ | .ret _ => inferInstanceAs (Decidable True)

/-- Two pushes race, the loser backs off and pushes on top, and its node is popped first. -/
theorem lock_free_stack_linearizable_race : ∃ (h : List (Event (Fin 2) (Op (Fin 2)) (Res (Fin 2))))
    (s : State (Fin 2) (Fin 2)), Run lockFreeStack Fresh (initial fun _ => none) h s ∧
      h.getLast? = some (.ret 0 (.popped (some 1))) ∧ Linearizable (lifo (Fin 2)) h := by
  obtain ⟨h, s, hr, ht⟩ := exists_run_of_exec (P := lockFreeStack) (C := Unseen)
    (s := (initial (fun _ => none) : State (Fin 2) (Fin 2)))
    [.call 0 (.push 0), .call 1 (.push 1), .exec 0, .exec 1, .exec 0, .exec 1, .exec 0, .exec 1,
      .ret 0, .exec 1, .exec 1, .exec 1, .exec 1, .exec 1, .exec 1, .exec 1, .exec 1, .ret 1,
      .call 0 .pop, .exec 0, .exec 0, .exec 0, .exec 0, .ret 0]
    (fun h _ => h.getLast? == some (.ret 0 (.popped (some 1)))) (by decide)
  have hf := hr.mono (D := Fresh) fun _ _ hc => hc.fresh
  obtain ⟨l, -, -, -, -, -, -, hlin⟩ := lock_free_stack_linearizable hf
  exact ⟨h, s, hf, by simpa using ht, hlin⟩

end Multicore.Stacks.LockFreeStack
