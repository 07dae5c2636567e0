import Multicore.Stacks.LockStack
import Multicore.Stacks.LockFreeStack
import Multicore.Stacks.EliminationStack
import Multicore.Runs.Sequential

/-! The three stacks when one call follows the other. A call that meets nobody makes one
attempt, and the attempt succeeds: what it has read of the chain is so until its swap. The
three stacks differ in where they keep the head and in what they do around the attempt;
`LockStack` makes it under its mutex. -/

namespace Multicore.Stacks

open Runs

/-- The nodes that may be pushed on the stack `l`. -/
def Apart {N : Type*} (l : List N) : Op N → Prop
  | .push n => n ∉ l
  | .pop => True

/-- Where an attempt stands: a push has its node, has read the head, has stored it in its
node, has swapped; a pop tests, has found a node, has read it, has read its field, has its
result. -/
inductive Attempt (N : Type*)
  | load (n : N) | store (n : N) (x : Option N) | link (n : N) (x : Option N) | pushed
  | test | search | read (n : N) | unlink (n : N) (x : Option N) | popped (r : Option N)

namespace Attempt

variable {N : Type*} {head x r : Option N} {next : N → Option N} {l : List N} {op : Op N} {n : N}

def enter : Op N → Attempt N
  | .push n => .load n
  | .pop => .test

/-- What an attempt of `op` on the stack `l` can rely on when it meets nobody. -/
def Lone (head : Option N) (next : N → Option N) (l : List N) : Op N → Attempt N → Prop
  | .push n, .load m => m = n ∧ n ∉ l ∧ Chain next head l
  | .push n, .store m x => m = n ∧ n ∉ l ∧ x = head ∧ Chain next head l
  | .push n, .link m x => m = n ∧ x = head ∧ next n = head ∧ Chain next head l
  | .push n, .pushed => Chain next head (n :: l)
  | .pop, .test => Chain next head l
  | .pop, .search => head ≠ none ∧ Chain next head l
  | .pop, .read n => head = some n ∧ Chain next head l
  | .pop, .unlink n x => head = some n ∧ x = next n ∧ Chain next head l
  | .pop, .popped r => r = l.head? ∧ Chain next head l.tail
  | _, _ => False

theorem Lone.enter (hl : Chain next head l) (hop : Apart l op) : Lone head next l op (.enter op) := by
  cases op with
  | push n => exact ⟨rfl, hop, hl⟩
  | pop => exact hl

theorem Lone.load (h : Lone head next l op (.load n)) : Lone head next l op (.store n head) := by
  cases op with
  | push m => exact ⟨h.1, h.2.1, rfl, h.2.2⟩
  | pop => exact h.elim

theorem Lone.store [DecidableEq N] (h : Lone head next l op (.store n x)) :
    Lone head (Function.update next n x) l op (.link n x) := by
  cases op with
  | push m =>
    obtain ⟨rfl, hn, rfl, hl⟩ := h
    exact ⟨rfl, rfl, Function.update_self .., hl.update hn x⟩
  | pop => exact h.elim

/-- The swap of a push finds the head that was read. -/
theorem Lone.link (h : Lone head next l op (.link n x)) :
    head = x ∧ Lone (some n) next l op .pushed := by
  cases op with
  | push m =>
    obtain ⟨rfl, rfl, hf, hl⟩ := h
    exact ⟨rfl, rfl, hf ▸ hl⟩
  | pop => exact h.elim

theorem Lone.test (h : Lone head next l op .test) :
    (head = none → Lone head next l op (.popped none)) ∧ (head ≠ none → Lone head next l op .search) := by
  cases op with
  | push m => exact h.elim
  | pop =>
    refine ⟨?_, fun hh => ⟨hh, h⟩⟩
    rintro rfl
    obtain rfl := Chain.eq_nil h
    exact ⟨rfl, rfl⟩

theorem Lone.search (h : Lone head next l op .search) :
    ∃ n, head = some n ∧ Lone head next l op (.read n) := by
  cases op with
  | push m => exact h.elim
  | pop =>
    obtain ⟨n, hn⟩ := Option.ne_none_iff_exists'.mp h.1
    exact ⟨n, hn, hn, h.2⟩

theorem Lone.read (h : Lone head next l op (.read n)) : Lone head next l op (.unlink n (next n)) := by
  cases op with
  | push m => exact h.elim
  | pop => exact ⟨h.1, rfl, h.2⟩

/-- The swap of a pop finds the node that was read. -/
theorem Lone.unlink (h : Lone head next l op (.unlink n x)) :
    head = some n ∧ Lone x next l op (.popped (some n)) := by
  cases op with
  | push m => exact h.elim
  | pop =>
    obtain ⟨rfl, rfl, hl⟩ := h
    obtain ⟨hl, ht⟩ := hl.eq_cons
    exact ⟨rfl, by rw [hl]; rfl, ht⟩

theorem Lone.pushed (h : Lone head next l op .pushed) :
    Res.pushed = ((lifo N).apply l op).2 ∧ Chain next head ((lifo N).apply l op).1 := by
  cases op with
  | push m => exact ⟨rfl, h⟩
  | pop => exact h.elim

theorem Lone.popped (h : Lone head next l op (.popped r)) :
    Res.popped r = ((lifo N).apply l op).2 ∧ Chain next head ((lifo N).apply l op).1 := by
  cases op with
  | push m => exact h.elim
  | pop =>
    obtain ⟨rfl, hl⟩ := h
    cases l with
    | nil => exact ⟨rfl, hl⟩
    | cons n l => exact ⟨rfl, hl⟩

/-- The chain is the stack before the call or the one after it. -/
theorem Lone.chain {a : Attempt N} (h : Lone head next l op a) :
    Chain next head l ∨ Chain next head ((lifo N).apply l op).1 := by
  cases a with
  | load n | store n x | link n x | test | search | read n | unlink n x =>
    refine .inl ?_
    cases op <;> simp only [Lone] at h
    all_goals first | exact h | exact h.2 | exact h.2.2 | exact h.2.2.2
  | pushed => exact .inr h.pushed.2
  | popped r => exact .inr h.popped.2

def result : Attempt N → Option (Res N)
  | .pushed => some .pushed
  | .popped r => some (.popped r)
  | _ => none

theorem Lone.result {a : Attempt N} {r : Res N} (h : Lone head next l op a) (hr : a.result = some r) :
    r = ((lifo N).apply l op).2 ∧ Chain next head ((lifo N).apply l op).1 := by
  cases a with
  | pushed =>
    cases hr
    exact h.pushed
  | popped node =>
    cases hr
    exact h.popped
  | _ => cases hr

/-- How many steps there are before the result. -/
def left : Attempt N → ℕ
  | .test => 4
  | .load _ | .search => 3
  | .store _ _ | .read _ => 2
  | .link _ _ | .unlink _ _ => 1
  | .pushed | .popped _ => 0

/-- The next step of an attempt, with the head and the fields after it; none if a swap
fails or the node that was seen is gone. -/
def step [DecidableEq N] (head : Option N) (next : N → Option N) :
    Attempt N → Option (Option N × (N → Option N) × Attempt N)
  | .load n => some (head, next, .store n head)
  | .store n x => some (head, Function.update next n x, .link n x)
  | .link n x => if head = x then some (some n, next, .pushed) else none
  | .test => match head with
    | none => some (head, next, .popped none)
    | some _ => some (head, next, .search)
  | .search => head.map fun n => (head, next, .read n)
  | .read n => some (head, next, .unlink n (next n))
  | .unlink n x => if head = some n then some (x, next, .popped (some n)) else none
  | .pushed | .popped _ => none

/-- An attempt that meets nobody does not fail. -/
theorem Lone.step [DecidableEq N] {a : Attempt N} (h : Lone head next l op a) (hr : a.result = none) :
    ∃ head' next' b, a.step head next = some (head', next', b) ∧ Lone head' next' l op b ∧
      b.left < a.left := by
  cases a with
  | load n => exact ⟨_, _, _, rfl, h.load, Nat.lt_succ_self 2⟩
  | store n x => exact ⟨_, _, _, rfl, h.store, Nat.lt_succ_self 1⟩
  | link n x => exact ⟨_, _, _, if_pos h.link.1, h.link.2, Nat.lt_succ_self 0⟩
  | test =>
    cases head with
    | none => exact ⟨_, _, _, rfl, h.test.1 rfl, Nat.zero_lt_succ 3⟩
    | some n => exact ⟨_, _, _, rfl, h.test.2 (by simp), Nat.lt_succ_self 3⟩
  | search =>
    obtain ⟨n, rfl, hn⟩ := h.search
    exact ⟨_, _, _, rfl, hn, Nat.lt_succ_self 2⟩
  | read n => exact ⟨_, _, _, rfl, h.read, Nat.lt_succ_self 1⟩
  | unlink n x => exact ⟨_, _, _, if_pos h.unlink.1, h.unlink.2, Nat.lt_succ_self 0⟩
  | pushed | popped r => cases hr

end Attempt

/-! ### The stack under the mutex -/

namespace LockStack

variable {T N : Type*} [DecidableEq T] [DecidableEq N] {s u : State T N} {t : T} {l : List N} {op : Op N}

def attempt (s : State T N) : Pc N → Option (Attempt N)
  | .idle => none
  | .pushLock n | .pushNext n => some (.load n)
  | .pushHead n => some (.link n s.head)
  | .pushUnlock | .pushRet => some .pushed
  | .popLock | .popTest => some .test
  | .popNode => some .search
  | .popHead node => node.map .read
  | .popUnlock node | .popRet node => some (.popped node)

/-- The thread has the mutex. -/
def Pc.Locked : Pc N → Bool
  | .pushNext _ | .pushHead _ | .pushUnlock | .popTest | .popNode | .popHead _ | .popUnlock _ => true
  | _ => false

/-- How many steps there are before the return. -/
def Pc.left : Pc N → ℕ
  | .popLock => 5
  | .pushLock _ | .popTest => 4
  | .pushNext _ | .popNode => 3
  | .pushHead _ | .popHead _ => 2
  | .pushUnlock | .popUnlock _ => 1
  | .idle | .pushRet | .popRet _ => 0

/-- `t` works on the stack `l` alone, in a call of `op`. -/
def Work (l : List N) (t : T) (op : Op N) (s : State T N) : Prop :=
  s.mutex = (if (s.pc t).Locked then some t else none) ∧
    ∃ a, attempt s (s.pc t) = some a ∧ a.Lone s.head s.next l op

omit [DecidableEq T] [DecidableEq N] in
theorem work_at {p : Pc N} {a : Attempt N} {k : ℕ} (hp : u.pc t = p)
    (hm : u.mutex = if p.Locked then some t else none) (ha : attempt u p = some a)
    (hl : a.Lone u.head u.next l op) (hk : p.left < k) : Work l t op u ∧ (u.pc t).left < k := by
  subst hp
  exact ⟨⟨hm, a, ha, hl⟩, hk⟩

theorem work_exec (hw : Work l t op s) (hu : exec s t = some u) :
    Work l t op u ∧ (u.pc t).left < (s.pc t).left := by
  obtain ⟨hm, a, ha, hl⟩ := hw
  cases hp : s.pc t with
  | idle | pushRet | popRet node => simp [exec, hp] at hu
  | pushLock n | popLock =>
    simp only [exec, hp, State.lock] at hu
    rw [hp] at ha
    cases ha
    split at hu <;> cases hu
    exact work_at (Function.update_self ..) rfl rfl hl (by simp [Pc.left])
  | pushNext n =>
    simp only [exec, hp, Option.some.injEq] at hu
    rw [hp] at hm ha
    cases ha
    subst hu
    exact work_at (Function.update_self ..) hm rfl hl.load.store (by simp [Pc.left])
  | pushHead n =>
    simp only [exec, hp, Option.some.injEq] at hu
    rw [hp] at hm ha
    cases ha
    subst hu
    exact work_at (Function.update_self ..) hm rfl hl.link.2 (by simp [Pc.left])
  | pushUnlock | popUnlock node =>
    simp only [exec, hp, Option.some.injEq] at hu
    rw [hp] at ha
    cases ha
    subst hu
    exact work_at (Function.update_self ..) rfl rfl hl (by simp [Pc.left])
  | popTest =>
    simp only [exec, hp] at hu
    rw [hp] at hm ha
    cases ha
    split at hu <;> cases hu <;> rename_i hh
    · exact work_at (Function.update_self ..) hm rfl (hl.test.1 hh) (by simp [Pc.left])
    · exact work_at (Function.update_self ..) hm rfl (hl.test.2 (by simp [hh])) (by simp [Pc.left])
  | popNode =>
    simp only [exec, hp, Option.some.injEq] at hu
    rw [hp] at hm ha
    cases ha
    subst hu
    obtain ⟨n, hn, hr⟩ := hl.search
    exact work_at (Function.update_self ..) hm (by rw [hn]; rfl) hr (by simp [Pc.left])
  | popHead node =>
    simp only [exec, hp] at hu
    rw [hp] at hm ha
    obtain ⟨n, rfl, rfl⟩ := Option.map_eq_some_iff.mp ha
    obtain ⟨hh, hr⟩ := hl.read.unlink
    rw [hh] at hu
    cases hu
    exact work_at (Function.update_self ..) hm rfl hr (by simp [Pc.left])

omit [DecidableEq T] [DecidableEq N] in
theorem work_result {r : Res N} (hw : Work l t op s) (hr : (s.pc t).result = some r) :
    r = ((lifo N).apply l op).2 ∧ s.mutex = none ∧ Chain s.next s.head ((lifo N).apply l op).1 := by
  obtain ⟨hm, a, ha, hl⟩ := hw
  cases hp : s.pc t with
  | pushRet =>
    rw [hp] at hm ha hr
    cases ha
    cases hr
    exact ⟨hl.pushed.1, hm, hl.pushed.2⟩
  | popRet node =>
    rw [hp] at hm ha hr
    cases ha
    cases hr
    exact ⟨hl.popped.1, hm, hl.popped.2⟩
  | _ =>
    rw [hp] at hr
    cases hr

/-- The mutex is free when it is asked for, and there is a node when it is taken. -/
theorem work_next (hw : Work l t op s) (hr : (s.pc t).result = none) : ∃ u, exec s t = some u := by
  obtain ⟨hm, a, ha, hl⟩ := hw
  cases hp : s.pc t with
  | idle =>
    rw [hp] at ha
    cases ha
  | pushRet | popRet node =>
    rw [hp] at hr
    cases hr
  | pushLock n | popLock =>
    rw [hp] at hm
    simp only [exec, hp, State.lock]
    rw [hm]
    exact ⟨_, rfl⟩
  | popTest =>
    simp only [exec, hp]
    split <;> exact ⟨_, rfl⟩
  | popHead node =>
    rw [hp] at ha
    obtain ⟨n, rfl, rfl⟩ := Option.map_eq_some_iff.mp ha
    simp only [exec, hp, hl.read.unlink.1]
    exact ⟨_, rfl⟩
  | _ =>
    simp only [exec, hp]
    exact ⟨_, rfl⟩

theorem solo : Solo (lockStack T N) (lifo N) Apart (fun s t => s.pc t = .idle)
    (fun l s => s.mutex = none ∧ Chain s.next s.head l) Work fun s t => (s.pc t).left where
  call {s t} ht op := ⟨.call t op, _, if_pos ht, rfl⟩
  step {s a u} hu := by
    cases a with
    | call t op =>
      simp only [lockStack, step, Option.ite_none_right_eq_some, Option.some.injEq] at hu
      obtain ⟨-, rfl⟩ := hu
      refine ⟨t, fun v hv hi => (Function.update_of_ne hv ..).trans hi, .inl ⟨op, rfl, ?_⟩⟩
      rintro l ⟨hm, hl⟩ hop
      have hpc : (s.goto t (.enter op)).pc t = .enter op := Function.update_self ..
      cases op <;> exact (work_at hpc hm rfl (.enter hl hop) (Nat.lt_succ_self _)).1
    | exec t =>
      obtain ⟨p, hp⟩ := exec_pc hu
      refine ⟨t, fun v hv hi => by rw [hp, Function.update_of_ne hv, hi], .inr (.inl ⟨fun hi => ?_, rfl, ?_⟩)⟩
      · simp [lockStack, step, exec, hi] at hu
      · exact fun l op hw => work_exec hw hu
    | ret t =>
      simp only [lockStack, step, Option.map_eq_some_iff] at hu
      obtain ⟨r, hr, rfl⟩ := hu
      refine ⟨t, fun v hv hi => (Function.update_of_ne hv ..).trans hi, .inr (.inr ⟨r, fun hi => ?_,
        Function.update_self .., ?_, fun l op hw => work_result (s := s) hw hr⟩)⟩
      · rw [hi] at hr
        cases hr
      · simp [lockStack, shows, hr]
  next {l t op s} hw := by
    cases hr : (s.pc t).result with
    | none =>
      obtain ⟨u, hu⟩ := work_next hw hr
      exact ⟨.exec t, u, hu, by simp [lockStack, shows]⟩
    | some r => exact ⟨.ret t, s.goto t .idle, by simp [lockStack, step, hr], by simp [lockStack, shows, hr]⟩

end LockStack

/-! ### The stacks with a sentinel -/

/-- A program whose threads make attempts, one after another if they meet others. -/
structure Attempts {T N σ α : Type*} [DecidableEq N] (P : Program σ α (Event T (Op N) (Res N)))
    (head : σ → Option N) (next : σ → N → Option N) (idle : σ → T → Prop)
    (attempt : σ → T → Option (Attempt N)) : Prop where
  call : ∀ {s t}, idle s t → ∀ op, ∃ a u, P.step s a = some u ∧ P.shows s a = [.call t op]
  step : ∀ {s a u}, P.step s a = some u → ∃ t, (∀ v, v ≠ t → idle s v → idle u v) ∧
    ((∃ op, P.shows s a = [.call t op] ∧ head u = head s ∧ next u = next s ∧
      attempt u t = some (.enter op)) ∨
    (¬ idle s t ∧ P.shows s a = [] ∧ ∀ b, attempt s t = some b → b.result = none ∧
      ∀ r, b.step (head s) (next s) = some r → (head u, next u, attempt u t) = (r.1, r.2.1, some r.2.2)) ∨
    ∃ r, ¬ idle s t ∧ idle u t ∧ P.shows s a = [.ret t r] ∧ head u = head s ∧ next u = next s ∧
      ∀ b, attempt s t = some b → b.result = some r)
  exec : ∀ {s t b}, attempt s t = some b → ∃ a u, P.step s a = some u ∧ ∀ v op, P.shows s a ≠ [.call v op]

/-- Whoever meets nobody has its first attempt succeed. -/
theorem Attempts.solo {T N σ α : Type*} [DecidableEq N] {P : Program σ α (Event T (Op N) (Res N))}
    {head : σ → Option N} {next : σ → N → Option N} {idle : σ → T → Prop}
    {attempt : σ → T → Option (Attempt N)} (hs : Attempts P head next idle attempt) :
    Solo P (lifo N) Apart idle (fun l s => Chain (next s) (head s) l)
      (fun l t op s => ∃ b, attempt s t = some b ∧ b.Lone (head s) (next s) l op)
      fun s t => (attempt s t).elim 0 Attempt.left where
  call := hs.call
  step ha := by
    obtain ⟨t, hother, hcase⟩ := hs.step ha
    refine ⟨t, hother, ?_⟩
    rcases hcase with ⟨op, he, hh, hn, hat⟩ | ⟨ht, he, hstep⟩ | ⟨r, ht, hu, he, hh, hn, hres⟩
    · refine .inl ⟨op, he, fun l hl hop => ⟨_, hat, ?_⟩⟩
      rw [hh, hn]
      exact .enter hl hop
    · refine .inr (.inl ⟨ht, he, ?_⟩)
      rintro l op ⟨b, hb, hl⟩
      obtain ⟨hres, hstep⟩ := hstep b hb
      obtain ⟨head', next', b', hb', hl', hlt⟩ := hl.step hres
      obtain ⟨hh, hn, hat⟩ : head _ = head' ∧ next _ = next' ∧ attempt _ t = some b' := by
        simpa only [Prod.mk.injEq] using hstep _ hb'
      rw [hh, hn, hat, hb]
      exact ⟨⟨b', rfl, hl'⟩, hlt⟩
    · refine .inr (.inr ⟨r, ht, hu, he, ?_⟩)
      rintro l op ⟨b, hb, hl⟩
      rw [hh, hn]
      exact hl.result (hres b hb)
  next := by
    rintro l t op s ⟨b, hb, -⟩
    exact hs.exec hb

namespace LockFreeStack

variable {T N : Type*} [DecidableEq T] [DecidableEq N] {s u : State T N} {t : T} {b : Attempt N}

def Pc.attempt : Pc N → Option (Attempt N)
  | .pushLoad n => some (.load n)
  | .pushStore n x => some (.store n x)
  | .pushCas n x => some (.link n x)
  | .pushRet => some .pushed
  | .popTest => some .test
  | .popLoad => some .search
  | .popNext n => some (.read n)
  | .popCas n x => some (.unlink n x)
  | .popRet r => some (.popped r)
  | .idle | .backoffDist _ | .backoffDouble _ | .doubleStore _ _ | .backoffMod _ | .modStore _ _ => none

/-- A step of the program is one of the attempt. -/
theorem attempt_exec (hb : (s.pc t).attempt = some b) (hu : exec s t = some u) : b.result = none ∧
    ∀ r, b.step s.headNext s.next = some r →
      (u.headNext, u.next, (u.pc t).attempt) = (r.1, r.2.1, some r.2.2) := by
  cases hp : s.pc t with
  | pushLoad n | pushStore n x | popNext n =>
    rw [hp] at hb
    cases hb
    simp only [exec, hp, Option.some.injEq] at hu
    subst hu
    refine ⟨rfl, fun r hr => ?_⟩
    cases hr
    simp [State.goto, Pc.attempt]
  | pushCas n x | popCas n x =>
    rw [hp] at hb
    cases hb
    refine ⟨rfl, fun r hr => ?_⟩
    simp only [Attempt.step, Option.ite_none_right_eq_some, Option.some.injEq] at hr
    obtain ⟨hh, rfl⟩ := hr
    simp only [exec, hp, if_pos hh, Option.some.injEq] at hu
    subst hu
    simp [State.goto, Pc.attempt]
  | popTest | popLoad =>
    rw [hp] at hb
    cases hb
    refine ⟨rfl, fun r hr => ?_⟩
    simp only [exec, hp] at hu
    simp only [Attempt.step] at hr
    cases hh : s.headNext <;> rw [hh] at hu hr <;> cases hu <;> cases hr <;> simp [State.goto, Pc.attempt, hh]
  | idle | pushRet | popRet r => simp [exec, hp] at hu
  | _ =>
    rw [hp] at hb
    cases hb

/-- An attempt can go on, or has its result. -/
theorem exec_isSome (hb : (s.pc t).attempt = some b) (hr : (s.pc t).result = none) : ∃ u, exec s t = some u := by
  cases hp : s.pc t with
  | idle =>
    rw [hp] at hb
    cases hb
  | pushRet | popRet r =>
    rw [hp] at hr
    cases hr
  | pushCas n x | popTest | popLoad | popCas n x =>
    simp only [exec, hp]
    split <;> exact ⟨_, rfl⟩
  | _ =>
    simp only [exec, hp]
    exact ⟨_, rfl⟩

omit [DecidableEq N] in
theorem attempt_enter (s : State T N) (t : T) (op : Op N) :
    ((s.goto t (.enter op)).pc t).attempt = some (.enter op) := by
  cases op <;> simp [State.goto, Pc.enter, Pc.attempt, Attempt.enter]

omit [DecidableEq T] [DecidableEq N] in
theorem attempt_result {r : Res N} {p : Pc N} (hb : p.attempt = some b) (hr : p.result = some r) :
    b.result = some r := by
  cases p <;> cases hr <;> cases hb <;> rfl

theorem attempts : Attempts (lockFreeStack (T := T) (N := N)) State.headNext State.next
    (fun s t => s.pc t = .idle) fun s t => (s.pc t).attempt where
  call {s t} ht op := ⟨.call t op, _, if_pos ht, rfl⟩
  step {s a u} hu := by
    refine ⟨a.thread, fun v hv hi => (step_pc_of_ne hu hv).trans hi, ?_⟩
    cases a with
    | call t op =>
      simp only [lockFreeStack, step, Option.ite_none_right_eq_some, Option.some.injEq] at hu
      obtain ⟨-, rfl⟩ := hu
      exact .inl ⟨op, rfl, rfl, rfl, attempt_enter s t op⟩
    | exec t =>
      refine .inr (.inl ⟨fun hi => ?_, rfl, fun b hb => attempt_exec hb hu⟩)
      simp only [lockFreeStack, step, exec, show s.pc t = .idle from hi] at hu
      cases hu
    | ret t =>
      simp only [lockFreeStack, step, Option.map_eq_some_iff] at hu
      obtain ⟨r, hr, rfl⟩ := hu
      refine .inr (.inr ⟨r, fun hi => ?_, Function.update_self .., ?_, rfl, rfl,
        fun b hb => attempt_result hb hr⟩)
      · rw [show s.pc t = .idle from hi] at hr
        cases hr
      · simp [lockFreeStack, shows, hr, Action.thread]
  exec {s t b} hb := by
    cases hr : (s.pc t).result with
    | none =>
      obtain ⟨u, hu⟩ := exec_isSome hb hr
      exact ⟨.exec t, u, hu, by simp [lockFreeStack, shows]⟩
    | some r =>
      exact ⟨.ret t, s.goto t .idle, by simp [lockFreeStack, step, hr], by simp [lockFreeStack, shows, hr]⟩

end LockFreeStack

/-! ### The elimination stack -/

namespace EliminationStack

open Exchange (Node)

variable {T : Type*} [DecidableEq T] {maxrange : UInt32} {s u : State T} {t : T} {b : Attempt Node} {slot : ℕ}
  {late : Bool}

def Pc.attempt : Pc → Option (Attempt Node)
  | .pushLoad n _ => some (.load n)
  | .pushStore n _ x => some (.store n x)
  | .pushCas n _ x => some (.link n x)
  | .pushRet => some .pushed
  | .popTest => some .test
  | .popLoad _ => some .search
  | .popNext _ n => some (.read n)
  | .popCas _ n x => some (.unlink n x)
  | .popRet r => some (.popped r)
  | .idle | .visit _ _ | .exchange _ _ _ _ => none

/-- A step of the program is one of the attempt; no exchanger is visited before it fails. -/
theorem attempt_exec (hb : (s.pc t).attempt = some b) (hu : exec maxrange s t slot late = some u) :
    b.result = none ∧ ∀ r, b.step s.headNext s.next = some r →
      (u.headNext, u.next, (u.pc t).attempt) = (r.1, r.2.1, some r.2.2) := by
  cases hp : s.pc t with
  | pushLoad n g | pushStore n g x | popNext g n =>
    rw [hp] at hb
    cases hb
    simp only [exec, hp, Option.some.injEq] at hu
    subst hu
    refine ⟨rfl, fun r hr => ?_⟩
    cases hr
    simp [State.goto, Pc.attempt]
  | pushCas n g x | popCas g n x =>
    rw [hp] at hb
    cases hb
    refine ⟨rfl, fun r hr => ?_⟩
    simp only [Attempt.step, Option.ite_none_right_eq_some, Option.some.injEq] at hr
    obtain ⟨hh, rfl⟩ := hr
    simp only [exec, hp, if_pos hh, Option.some.injEq] at hu
    subst hu
    simp [State.goto, Pc.attempt]
  | popTest =>
    rw [hp] at hb
    cases hb
    refine ⟨rfl, fun r hr => ?_⟩
    simp only [exec, hp] at hu
    simp only [Attempt.step] at hr
    cases hh : s.headNext <;> rw [hh] at hu hr <;> cases hu <;> cases hr <;> simp [State.goto, Pc.attempt, hh]
  | popLoad g =>
    rw [hp] at hb
    cases hb
    refine ⟨rfl, fun r hr => ?_⟩
    obtain ⟨n, hh, rfl⟩ := Option.map_eq_some_iff.mp hr
    simp only [exec, hp, hh, Option.some.injEq] at hu
    subst hu
    simp [State.goto, Pc.attempt, hh]
  | idle | pushRet | popRet r => simp [exec, hp] at hu
  | _ =>
    rw [hp] at hb
    cases hb

theorem exec_isSome_of_attempt (maxrange : UInt32) (hb : (s.pc t).attempt = some b) (hr : (s.pc t).result = none) :
    ∃ u, exec maxrange s t 0 false = some u := by
  cases hp : s.pc t with
  | idle | visit n g | exchange n g i x =>
    rw [hp] at hb
    cases hb
  | pushRet | popRet r =>
    rw [hp] at hr
    cases hr
  | pushCas n g x | popTest | popLoad g | popCas g n x =>
    simp only [exec, hp]
    split <;> exact ⟨_, rfl⟩
  | _ =>
    simp only [exec, hp]
    exact ⟨_, rfl⟩

theorem attempt_enter (s : State T) (t : T) (op : Op Node) :
    ((s.goto t (.enter op)).pc t).attempt = some (.enter op) := by
  cases op <;> simp [Pc.enter, Pc.attempt, Attempt.enter]

omit [DecidableEq T] in
theorem attempt_result {r : Res Node} {p : Pc} (hb : p.attempt = some b) (hr : p.result = some r) :
    b.result = some r := by
  cases p <;> cases hr <;> cases hb <;> rfl

theorem exec_pc_of_ne {v : T} (hu : exec maxrange s t slot late = some u) (hv : v ≠ t) : u.pc v = s.pc v := by
  unfold exec at hu
  repeat' split at hu
  all_goals try cases hu
  all_goals first
    | exact Function.update_of_ne hv ..
    | obtain ⟨r, -, rfl⟩ := Option.map_eq_some_iff.mp hu
      exact Function.update_of_ne hv ..

theorem attempts (maxrange : UInt32) : Attempts (eliminationStack (T := T) maxrange) State.headNext State.next
    (fun s t => s.pc t = .idle) fun s t => (s.pc t).attempt where
  call {s t} ht op := ⟨.call t op, _, if_pos ht, rfl⟩
  step {s a u} hu := by
    cases a with
    | call t op =>
      simp only [eliminationStack, step, Option.ite_none_right_eq_some, Option.some.injEq] at hu
      obtain ⟨-, rfl⟩ := hu
      exact ⟨t, fun v hv hi => (Function.update_of_ne hv ..).trans hi,
        .inl ⟨op, rfl, rfl, rfl, attempt_enter s t op⟩⟩
    | exec t slot late =>
      refine ⟨t, fun v hv hi => (exec_pc_of_ne hu hv).trans hi,
        .inr (.inl ⟨fun hi => ?_, rfl, fun b hb => attempt_exec hb hu⟩)⟩
      simp only [eliminationStack, step, exec, hi] at hu
      cases hu
    | ret t =>
      simp only [eliminationStack, step, Option.map_eq_some_iff] at hu
      obtain ⟨r, hr, rfl⟩ := hu
      refine ⟨t, fun v hv hi => (Function.update_of_ne hv ..).trans hi,
        .inr (.inr ⟨r, fun hi => ?_, goto_pc_self .., ?_, rfl, rfl, fun b hb => attempt_result hb hr⟩)⟩
      · rw [hi] at hr
        cases hr
      · simp [eliminationStack, shows, hr]
  exec {s t b} hb := by
    cases hr : (s.pc t).result with
    | none =>
      obtain ⟨u, hu⟩ := exec_isSome_of_attempt maxrange hb hr
      exact ⟨.exec t 0 false, u, hu, by simp [eliminationStack, shows]⟩
    | some r =>
      exact ⟨.ret t, s.goto t .idle, by simp [eliminationStack, step, hr], by simp [eliminationStack, shows, hr]⟩

end EliminationStack

/-! ### The three stacks -/

/-- A stack that makes attempts serves as a list. -/
theorem Attempts.serves {T N σ α : Type*} [DecidableEq N] {P : Program σ α (Event T (Op N) (Res N))}
    {head : σ → Option N} {next : σ → N → Option N} {idle : σ → T → Prop}
    {attempt : σ → T → Option (Attempt N)} (hs : Attempts P head next idle attempt) {s : σ}
    (hidle : ∀ t, idle s t) (hh : head s = none) :
    Serves P s (lifo N) Apart fun l s => Chain (next s) (head s) l :=
  hs.solo.sequential.serves ⟨hidle, hh⟩ And.right fun ⟨_, _, _, hl⟩ => hl.chain

theorem LockStack.serves {T N : Type*} [DecidableEq T] [DecidableEq N] (next : N → Option N) :
    Serves (lockStack T N) (initial next) (lifo N) Apart fun l s => Chain s.next s.head l := by
  have h0 : (∀ t, (initial next : State T N).pc t = .idle) ∧ (initial next : State T N).mutex = none ∧
      Chain next (initial next : State T N).head (lifo N).init := ⟨fun _ => rfl, rfl, rfl⟩
  exact solo.sequential.serves h0 (fun h => h.2.2) fun ⟨_, _, _, _, hl⟩ => hl.chain

open Exchange (Node)

/-- When one call follows the other, and each node that is pushed is not on the stack at that
time, the three stacks serve as a list: every pop returns what it returns of the list, the
chain from the head is the list, and every call returns. The three give the same results,
whatever is left in the fields of the nodes and whatever threads make the calls. -/
theorem stacks_agree {T : Type*} [DecidableEq T] (next₁ next₂ next₃ : Node → Option Node) :
    Serves (LockStack.lockStack T Node) (LockStack.initial next₁) (lifo Node) Apart
      (fun l s => Chain s.next s.head l) ∧
    Serves LockFreeStack.lockFreeStack (LockFreeStack.initial next₂ : LockFreeStack.State T Node) (lifo Node)
      Apart (fun l s => Chain s.next s.headNext l) ∧
    Serves (EliminationStack.eliminationStack 100) (EliminationStack.initial next₃ : EliminationStack.State T)
      (lifo Node) Apart (fun l s => Chain s.next s.headNext l) ∧
    ∀ (ops : List (Op Node)), (lifo Node).Admits Apart ops →
      ∀ K L M : List (Returned T (Op Node) (Res Node)),
        K.map Returned.op = ops → L.map Returned.op = ops → M.map Returned.op = ops →
      ∀ s u v, Run (LockStack.lockStack T Node) Free (LockStack.initial next₁) (history K) s →
        Run LockFreeStack.lockFreeStack Free (LockFreeStack.initial next₂) (history L) u →
        Run (EliminationStack.eliminationStack 100) Free (EliminationStack.initial next₃) (history M) v →
        K.map Returned.res = L.map Returned.res ∧ L.map Returned.res = M.map Returned.res := by
  have h₁ := LockStack.serves (T := T) next₁
  have h₂ := LockFreeStack.attempts.serves (s := (LockFreeStack.initial next₂ : LockFreeStack.State T Node))
    (fun _ => rfl) rfl
  have h₃ := (EliminationStack.attempts 100).serves
    (s := (EliminationStack.initial next₃ : EliminationStack.State T)) (fun _ => rfl) rfl
  refine ⟨h₁, h₂, h₃, ?_⟩
  rintro ops hops K L M rfl hL hM s u v hs hu hv
  exact ⟨h₁.results_eq h₂ hL.symm hops hs hu, h₂.results_eq h₃ (hL.trans hM.symm) (hL ▸ hops) hu hv⟩

end Multicore.Stacks
