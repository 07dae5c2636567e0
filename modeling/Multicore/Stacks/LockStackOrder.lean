import Multicore.Stacks.LockStack
import Mathlib.Data.Fintype.Basic

/-! `LockStack` in any interleaving. Its mutex has one holder, and only the holder reads or writes
the head and the `next` fields, so a push takes effect where it stores the head, and a pop where it
does or where it finds no head. -/

namespace Multicore.Stacks.LockStack

open Runs

variable {T N : Type*} [DecidableEq T] [DecidableEq N]

/-- Between `pthread_mutex_lock` and `pthread_mutex_unlock`. -/
def Pc.inside : Pc N → Bool
  | .pushNext _ | .pushHead _ | .pushUnlock | .popTest | .popNode | .popHead _ | .popUnlock _ => true
  | .idle | .pushLock _ | .pushRet | .popLock | .popRet _ => false

/-- The node that waits to be pushed. -/
def Pc.pushes : Pc N → Option N
  | .pushLock n | .pushNext n | .pushHead n => some n
  | _ => none

def Pc.status : Pc N → Status (Op N) (Res N)
  | .idle => .idle
  | .pushLock n | .pushNext n | .pushHead n => .pending (.push n)
  | .pushUnlock | .pushRet => .done .pushed
  | .popLock | .popTest | .popNode | .popHead _ => .pending .pop
  | .popUnlock node | .popRet node => .done (.popped node)

/-- What the holder of the mutex has found out. -/
def Pc.Knows (s : State T N) : Pc N → Prop
  | .pushHead n => s.next n = s.head
  | .popNode => s.head ≠ none
  | .popHead node => node = s.head ∧ s.head ≠ none
  | _ => True

/-- A node is given to a push only when it is in no chain and in no other push. -/
def Fresh : Guard (State T N) (Action T N)
  | s, .call t (.push n) => (∀ l, Chain s.next s.head l → n ∉ l) ∧
      ∀ u, u ≠ t → (s.pc u).pushes ≠ some n
  | _, _ => True

/-- The chain is `l`, the mutex has its holder, and what the threads carry agrees with both. -/
structure Inv (s : State T N) (l : List N) : Prop where
  chain : Chain s.next s.head l
  fresh : ∀ t n, (s.pc t).pushes = some n → n ∉ l
  apart : ∀ t v n, (s.pc t).pushes = some n → (s.pc v).pushes = some n → t = v
  holder : ∀ t, s.mutex = some t ↔ (s.pc t).inside = true
  knows : ∀ t, (s.pc t).Knows s

section Inv
variable {s u : State T N} {l k : List N} {t v : T} {n : N} {p : Pc N}

omit [DecidableEq T] [DecidableEq N] in
theorem Inv.initial (next : N → Option N) : Inv (initial next : State T N) [] where
  chain := rfl
  fresh _ _ h := by cases h
  apart _ _ _ h := by cases h
  holder t := by simp [LockStack.initial, Pc.inside]
  knows _ := trivial

omit [DecidableEq T] [DecidableEq N] in
/-- The mutex excludes. -/
theorem Inv.alone (hi : Inv s l) (ht : (s.pc t).inside = true) (hv : v ≠ t) : (s.pc v).inside = false := by
  rw [← Bool.not_eq_true, ← hi.holder v, (hi.holder t).mpr ht, Option.some.injEq]
  exact hv.symm

omit [DecidableEq T] [DecidableEq N] in
theorem Inv.pushes_apart (hi : Inv s l) (ht : (s.pc t).pushes = some n) (hv : v ≠ t) :
    (s.pc v).pushes ≠ some n := fun h => hv (hi.apart v t n h ht)

omit [DecidableEq T] [DecidableEq N] in
/-- Who is outside relies on nothing that is in memory. -/
theorem Pc.Knows.outside (h : p.inside = false) (s : State T N) : p.Knows s := by
  cases p <;> first | exact trivial | cases h

omit [DecidableEq T] [DecidableEq N] in
theorem Pc.Knows.congr (hp : p.Knows s) (hhead : u.head = s.head) (hnext : u.next = s.next) : p.Knows u := by
  cases p <;> simp only [Pc.Knows, hhead, hnext] at hp ⊢ <;> exact hp

omit [DecidableEq N] in
/-- How `t` may move to `p`. Memory changes only while `t` is inside, what comes into the chain was
being pushed by `t`, and the mutex is taken or given back with the move. -/
theorem Inv.move (hi : Inv s l) (hpc : u.pc = Function.update s.pc t p) (hchain : Chain u.next u.head k)
    (hk : ∀ n ∈ k, n ∈ l ∨ (s.pc t).pushes = some n)
    (hpush : ∀ n, p.pushes = some n → n ∉ k ∧ ∀ v ≠ t, (s.pc v).pushes ≠ some n)
    (hmem : u.head = s.head ∧ u.next = s.next ∨ (s.pc t).inside = true)
    (hmutex : u.mutex = s.mutex ∧ p.inside = (s.pc t).inside ∨
      s.mutex = none ∧ u.mutex = some t ∧ p.inside = true ∨
      (s.pc t).inside = true ∧ u.mutex = none ∧ p.inside = false)
    (hknows : p.Knows u) : Inv u k := by
  have hself : u.pc t = p := by rw [hpc, Function.update_self]
  have hother : ∀ {v}, v ≠ t → u.pc v = s.pc v := fun hv => by rw [hpc, Function.update_of_ne hv]
  refine ⟨hchain, fun v m hm => ?_, fun v w m hm hm' => ?_, fun v => ?_, fun v => ?_⟩
  · by_cases hv : v = t
    · rw [hv, hself] at hm
      exact (hpush m hm).1
    · rw [hother hv] at hm
      intro hmem
      rcases hk m hmem with h | h
      · exact hi.fresh v m hm h
      · exact hi.pushes_apart h hv hm
  · by_cases hv : v = t <;> by_cases hw : w = t
    · exact hv.trans hw.symm
    · rw [hv, hself] at hm
      rw [hother hw] at hm'
      exact absurd hm' ((hpush m hm).2 w hw)
    · rw [hw, hself] at hm'
      rw [hother hv] at hm
      exact absurd hm ((hpush m hm').2 v hv)
    · rw [hother hv] at hm
      rw [hother hw] at hm'
      exact hi.apart v w m hm hm'
  · by_cases hv : v = t
    · rw [hv, hself]
      rcases hmutex with ⟨hm, hp⟩ | ⟨-, hm, hp⟩ | ⟨-, hm, hp⟩
      · rw [hm, hp]
        exact hi.holder t
      · simp only [hm, hp]
      · simp only [hm, hp, reduceCtorEq, Bool.false_eq_true]
    · rw [hother hv, ← hi.holder v]
      rcases hmutex with ⟨hm, -⟩ | ⟨hnone, hm, -⟩ | ⟨ht, hm, -⟩
      · rw [hm]
      · simp only [hm, hnone, Option.some.injEq, reduceCtorEq, iff_false]
        exact Ne.symm hv
      · simp only [hm, (hi.holder t).mpr ht, Option.some.injEq, reduceCtorEq, false_iff]
        exact Ne.symm hv
  · by_cases hv : v = t
    · rwa [hv, hself]
    · rw [hother hv]
      rcases hmem with ⟨hhead, hnext⟩ | ht
      · exact (hi.knows v).congr hhead hnext
      · exact Pc.Knows.outside (hi.alone ht hv) u

omit [DecidableEq N] in
/-- A step that changes neither memory nor the mutex. -/
theorem Inv.carry (hi : Inv s l) (hp : p.inside = (s.pc t).inside)
    (hpush : ∀ n, p.pushes = some n → (s.pc t).pushes = some n) (hknows : p.Knows s) :
    Inv (s.goto t p) l :=
  hi.move (p := p) rfl hi.chain (fun _ => .inl)
    (fun n hn => ⟨hi.fresh t n (hpush n hn), fun _ => hi.pushes_apart (hpush n hn)⟩) (.inl ⟨rfl, rfl⟩)
    (.inl ⟨rfl, hp⟩) (hknows.congr rfl rfl)

omit [DecidableEq N] in
theorem Inv.lock (hi : Inv s l) (hu : s.lock t p = some u) (hp : p.inside = true)
    (hpush : ∀ n, p.pushes = some n → (s.pc t).pushes = some n) (hknows : p.Knows s) : Inv u l := by
  unfold State.lock at hu
  split at hu <;> cases hu
  rename_i hm
  exact hi.move (p := p) rfl hi.chain (fun _ => .inl)
    (fun n hn => ⟨hi.fresh t n (hpush n hn), fun _ => hi.pushes_apart (hpush n hn)⟩) (.inl ⟨rfl, rfl⟩)
    (.inr (.inl ⟨hm, rfl, hp⟩)) (hknows.congr rfl rfl)

omit [DecidableEq N] in
theorem Inv.unlock (hi : Inv s l) (ht : (s.pc t).inside = true) (hp : p.inside = false)
    (hpush : p.pushes = none) : Inv (s.unlock t p) l :=
  hi.move (p := p) rfl hi.chain (fun _ => .inl) (fun n hn => by rw [hpush] at hn; cases hn)
    (.inl ⟨rfl, rfl⟩) (.inr (.inr ⟨ht, rfl, hp⟩)) (Pc.Knows.outside hp _)

end Inv

/-! ### The atomic stack -/

section Follow
variable {s u : State T N} {l k : List N} {t : T} {n : N} {p : Pc N}

/-- The atomic stack that holds `l`, with the threads of `s`. -/
def State.atomic (s : State T N) (l : List N) : Atomic T (List N) (Op N) (Res N) :=
  ⟨l, fun t => (s.pc t).status⟩

omit [DecidableEq N] in
theorem atomic_eq (hpc : u.pc = Function.update s.pc t p) :
    u.atomic l = ⟨l, Function.update (s.atomic l).status t p.status⟩ := by
  rw [State.atomic, hpc]
  exact congrArg (Atomic.mk l) (Function.comp_update Pc.status s.pc t p)

omit [DecidableEq N] in
theorem follow_silent (hpc : u.pc = Function.update s.pc t p) (hp : p.status = (s.pc t).status) :
    Run (Runs.atomic T (lifo N)) Free (s.atomic l) [] (u.atomic l) := by
  have hsame : u.atomic l = s.atomic l := by
    rw [atomic_eq hpc, hp]
    exact congrArg (Atomic.mk l) (Function.update_eq_self t _)
  rw [hsame]
  exact .refl

omit [DecidableEq N] in
theorem follow_execute (op : Op N) (hpc : u.pc = Function.update s.pc t p)
    (ht : (s.pc t).status = .pending op) (hp : p.status = .done ((lifo N).apply l op).2)
    (hk : k = ((lifo N).apply l op).1) : Run (Runs.atomic T (lifo N)) Free (s.atomic l) [] (u.atomic k) := by
  rw [hk, atomic_eq hpc, hp]
  exact atomic_execute (s := s.atomic l) ht

/-- Every step keeps the invariant and is followed by the atomic stack. -/
theorem Inv.exec (hi : Inv s l) (hu : LockStack.exec s t = some u) :
    ∃ k, Inv u k ∧ Run (Runs.atomic T (lifo N)) Free (s.atomic l) [] (u.atomic k) := by
  have hknows := hi.knows t
  cases hp : s.pc t with
  | idle | pushRet | popRet node => simp only [LockStack.exec, hp, reduceCtorEq] at hu
  | pushLock n =>
    simp only [LockStack.exec, hp] at hu
    refine ⟨l, hi.lock hu rfl (fun m hm => by rw [hp]; exact hm) trivial, ?_⟩
    unfold State.lock at hu
    split at hu <;> cases hu
    exact follow_silent (p := .pushNext n) rfl (by rw [hp]; rfl)
  | popLock =>
    simp only [LockStack.exec, hp] at hu
    refine ⟨l, hi.lock hu rfl (fun m hm => by cases hm) trivial, ?_⟩
    unfold State.lock at hu
    split at hu <;> cases hu
    exact follow_silent (p := .popTest) rfl (by rw [hp]; rfl)
  | pushUnlock =>
    simp only [LockStack.exec, hp, Option.some.injEq] at hu
    subst hu
    exact ⟨l, hi.unlock (by rw [hp]; rfl) rfl rfl, follow_silent (p := .pushRet) rfl (by rw [hp]; rfl)⟩
  | popUnlock node =>
    simp only [LockStack.exec, hp, Option.some.injEq] at hu
    subst hu
    exact ⟨l, hi.unlock (by rw [hp]; rfl) rfl rfl, follow_silent (p := .popRet node) rfl (by rw [hp]; rfl)⟩
  | pushNext n =>
    simp only [LockStack.exec, hp, Option.some.injEq] at hu
    subst hu
    have hn : (s.pc t).pushes = some n := by rw [hp]; rfl
    refine ⟨l, hi.move (p := .pushHead n) rfl (hi.chain.update (hi.fresh t n hn) _) (fun _ => .inl) ?_
      (.inr (by rw [hp]; rfl)) (.inl ⟨rfl, by rw [hp]; rfl⟩) (Function.update_self ..),
      follow_silent (p := .pushHead n) rfl (by rw [hp]; rfl)⟩
    rintro m ⟨⟩
    exact ⟨hi.fresh t n hn, fun _ => hi.pushes_apart hn⟩
  | pushHead n =>
    simp only [LockStack.exec, hp, Option.some.injEq] at hu
    subst hu
    rw [hp] at hknows
    have hn : (s.pc t).pushes = some n := by rw [hp]; rfl
    refine ⟨n :: l, hi.move (p := .pushUnlock) rfl ⟨rfl, ?_⟩ (fun m hm => ?_) (fun m hm => by cases hm)
      (.inr (by rw [hp]; rfl)) (.inl ⟨rfl, by rw [hp]; rfl⟩) trivial,
      follow_execute (.push n) (p := .pushUnlock) rfl (by rw [hp]; rfl) rfl rfl⟩
    · show Chain s.next (s.next n) l
      rw [show s.next n = s.head from hknows]
      exact hi.chain
    · rcases List.mem_cons.mp hm with rfl | hm
      · exact .inr hn
      · exact .inl hm
  | popTest =>
    simp only [LockStack.exec, hp] at hu
    cases hhead : s.head with
    | none =>
      simp only [hhead, Option.some.injEq] at hu
      subst hu
      have hl : l = [] := (hhead ▸ hi.chain).eq_nil
      refine ⟨l, hi.carry (by rw [hp]; rfl) (fun m hm => by cases hm) trivial, ?_⟩
      subst hl
      exact follow_execute .pop (p := .popUnlock none) rfl (by rw [hp]; rfl) rfl rfl
    | some n =>
      simp only [hhead, Option.some.injEq] at hu
      subst hu
      exact ⟨l, hi.carry (by rw [hp]; rfl) (fun m hm => by cases hm) (by simp [Pc.Knows, hhead]),
        follow_silent (p := .popNode) rfl (by rw [hp]; rfl)⟩
  | popNode =>
    simp only [LockStack.exec, hp, Option.some.injEq] at hu
    subst hu
    rw [hp] at hknows
    exact ⟨l, hi.carry (by rw [hp]; rfl) (fun m hm => by cases hm) ⟨rfl, hknows⟩,
      follow_silent (p := .popHead s.head) rfl (by rw [hp]; rfl)⟩
  | popHead node =>
    rw [hp] at hknows
    obtain ⟨rfl, hne⟩ := hknows
    obtain ⟨n, hhead⟩ := Option.ne_none_iff_exists'.mp hne
    simp only [LockStack.exec, hp, hhead, Option.some.injEq] at hu
    subst hu
    obtain ⟨hl, hk⟩ := (hhead ▸ hi.chain).eq_cons
    refine ⟨l.tail, hi.move (p := .popUnlock (some n)) rfl hk (fun m hm => .inl (List.mem_of_mem_tail hm))
      (fun m hm => by cases hm) (.inr (by rw [hp]; rfl)) (.inl ⟨rfl, by rw [hp]; rfl⟩) trivial, ?_⟩
    refine follow_execute .pop (p := .popUnlock (some n)) rfl (by rw [hp]; rfl) ?_ ?_
    all_goals rw [hl]; rfl

/-- The holder of the mutex can take its next step. -/
theorem Inv.exec_ne_none (hi : Inv s l) (ht : (s.pc t).inside = true) : LockStack.exec s t ≠ none := by
  have hknows := hi.knows t
  cases hp : s.pc t with
  | idle | pushLock n | pushRet | popLock | popRet node =>
    rw [hp] at ht
    cases ht
  | popTest => cases hhead : s.head <;> simp [LockStack.exec, hp, hhead]
  | popHead node =>
    rw [hp] at hknows
    obtain ⟨n, hhead⟩ := Option.ne_none_iff_exists'.mp hknows.2
    simp [LockStack.exec, hp, hhead]
  | pushNext n | pushHead n | pushUnlock | popNode | popUnlock node => simp [LockStack.exec, hp]

/-- A thread in a call can return or go on, or the holder of the mutex can go on. -/
theorem Inv.next (hi : Inv s l) (ht : s.pc t ≠ .idle) :
    (∃ v u, (v = t ∨ s.mutex = some v) ∧ LockStack.exec s v = some u) ∨ ∃ r, (s.pc t).result = some r := by
  cases hm : s.mutex with
  | some v =>
    obtain ⟨u, hu⟩ := Option.ne_none_iff_exists'.mp (hi.exec_ne_none ((hi.holder v).mp hm))
    exact .inl ⟨v, u, .inr rfl, hu⟩
  | none =>
    have hout : (s.pc t).inside = false := by
      rw [← Bool.not_eq_true, ← hi.holder t, hm]
      exact nofun
    cases hp : s.pc t with
    | idle => exact absurd hp ht
    | pushLock n | popLock =>
      exact .inl ⟨t, _, .inl rfl, by simp only [LockStack.exec, hp, State.lock, hm]; rfl⟩
    | pushRet | popRet node => exact .inr ⟨_, rfl⟩
    | pushNext n | pushHead n | pushUnlock | popTest | popNode | popHead node | popUnlock node =>
      rw [hp] at hout
      cases hout

theorem Inv.step {a : Action T N} (hi : Inv s l) (hf : Fresh s a) (hu : LockStack.step s a = some u) :
    ∃ k, Inv u k ∧ Run (Runs.atomic T (lifo N)) Free (s.atomic l) (shows s a) (u.atomic k) := by
  cases a with
  | exec t => exact hi.exec hu
  | call t op =>
    simp only [LockStack.step, Option.ite_none_right_eq_some, Option.some.injEq] at hu
    obtain ⟨hp, rfl⟩ := hu
    have henter : (Pc.enter op).inside = (s.pc t).inside := by
      rw [hp]
      cases op <;> rfl
    refine ⟨l, hi.move (p := .enter op) rfl hi.chain (fun _ => .inl) ?_ (.inl ⟨rfl, rfl⟩)
      (.inl ⟨rfl, henter⟩) (Pc.Knows.outside (by rw [henter, hp]; rfl) _), ?_⟩
    · cases op with
      | push n =>
        rintro m ⟨⟩
        exact ⟨hf.1 l hi.chain, hf.2⟩
      | pop => exact fun m hm => by cases hm
    · have hstatus : (Pc.enter op).status = .pending op := by cases op <;> rfl
      rw [atomic_eq (u := s.goto t (.enter op)) rfl, hstatus]
      exact atomic_call (s := s.atomic l) (congrArg Pc.status hp)
  | ret t =>
    simp only [LockStack.step, Option.map_eq_some_iff] at hu
    obtain ⟨r, hr, rfl⟩ := hu
    have hret : (s.pc t).inside = false ∧ (s.pc t).status = .done r := by
      cases hp : s.pc t <;> rw [hp] at hr <;> cases hr <;> exact ⟨rfl, rfl⟩
    refine ⟨l, hi.carry hret.1.symm (fun m hm => by cases hm) trivial, ?_⟩
    simp only [shows, hr, Option.map_some, Option.toList_some]
    rw [atomic_eq (u := s.goto t .idle) rfl]
    exact atomic_ret (s := s.atomic l) hret.2

end Follow

variable {next : N → Option N} {h : List (Event T (Op N) (Res N))} {s : State T N}

theorem run_atomic (hr : Run (lockStack T N) Fresh (initial next) h s) :
    ∃ l, Inv s l ∧ Run (Runs.atomic T (lifo N)) Free (Atomic.initial T (lifo N)) h (s.atomic l) := by
  induction hr with
  | refl => exact ⟨[], .initial next, .refl⟩
  | tail _ hf hu ih =>
    obtain ⟨l, hi, ha⟩ := ih
    obtain ⟨k, hk, hstep⟩ := hi.step hf hu
    exact ⟨k, hk, ha.trans hstep⟩

/-- As long as no node is pushed that is on it already or in another push, `LockStack` is a
linearizable last-in first-out stack, and it never blocks for good: a thread in a call can go on, or
the one that holds the mutex can. -/
theorem lock_stack_linearizable (hr : Run (lockStack T N) Fresh (initial next) h s) :
    -- the mutex excludes, and the chain is finite and has no duplicates
    (∀ t v, (s.pc t).inside = true → (s.pc v).inside = true → t = v) ∧
    ∃ l, Chain s.next s.head l ∧ l.Nodup ∧
    -- the atomic stack has the same history and holds the chain
    (∃ a, Run (Runs.atomic T (lifo N)) Free (Atomic.initial T (lifo N)) h a ∧ a.obj = l ∧
      ∀ t, a.status t = (s.pc t).status) ∧
    Linearizable (lifo N) h ∧
    (∀ t, s.pc t ≠ .idle → ∃ v u, (v = t ∨ s.mutex = some v) ∧
      (step s (.exec v) = some u ∨ step s (.ret v) = some u)) := by
  obtain ⟨l, hi, ha⟩ := run_atomic hr
  refine ⟨fun t v ht hv => ?_, l, hi.chain, hi.chain.nodup, ⟨_, ha, rfl, fun t => rfl⟩,
    linearizable_of_atomic ha, fun t ht => ?_⟩
  · exact Option.some.inj (((hi.holder t).mpr ht).symm.trans ((hi.holder v).mpr hv))
  · obtain ⟨v, u, hv, hu⟩ | ⟨r, hr⟩ := hi.next ht
    · exact ⟨v, u, hv, .inl hu⟩
    · exact ⟨t, _, .inl rfl, .inr (by simp only [step, hr, Option.map_some]; rfl)⟩

/-- Nothing points to the node that is given to `push`. -/
def Unseen : Guard (State T N) (Action T N)
  | s, .call _ (.push n) => s.head ≠ some n ∧ (∀ m, s.next m ≠ some n) ∧ ∀ u, (s.pc u).pushes ≠ some n
  | _, _ => True

omit [DecidableEq T] [DecidableEq N] in
theorem Unseen.fresh {a : Action T N} (ha : Unseen s a) : Fresh s a := by
  cases a with
  | call t op =>
    cases op with
    | push n => exact ⟨fun l hl => hl.not_mem ha.1 ha.2.1, fun u _ => ha.2.2 u⟩
    | pop => trivial
  | exec t | ret t => trivial

instance [Fintype T] [Fintype N] (s : State T N) : (a : Action T N) → Decidable (Unseen s a)
  | .call _ (.push n) => inferInstanceAs (Decidable (s.head ≠ some n ∧ _ ∧ _))
  | .call _ .pop | .exec _ | .ret _ => inferInstanceAs (Decidable True)

/-- A pop that is called while a push holds the mutex waits for it and gets its node. -/
theorem lock_stack_linearizable_wait : ∃ (h : List (Event (Fin 2) (Op (Fin 2)) (Res (Fin 2))))
    (s : State (Fin 2) (Fin 2)), Run (lockStack (Fin 2) (Fin 2)) Fresh (initial fun _ => none) h s ∧
      h.getLast? = some (.ret 1 (.popped (some 0))) ∧ Linearizable (lifo (Fin 2)) h := by
  obtain ⟨h, s, hr, ht⟩ := exists_run_of_exec (P := lockStack (Fin 2) (Fin 2)) (C := Unseen)
    (s := (initial (fun _ => none) : State (Fin 2) (Fin 2)))
    [.call 0 (.push 0), .exec 0, .call 1 .pop, .exec 0, .exec 0, .exec 0, .exec 1, .ret 0,
      .exec 1, .exec 1, .exec 1, .exec 1, .ret 1]
    (fun h _ => h.getLast? == some (.ret 1 (.popped (some 0)))) (by decide)
  have hf := hr.mono (D := Fresh) fun _ _ ha => ha.fresh
  obtain ⟨-, l, -, -, -, hlin, -⟩ := lock_stack_linearizable hf
  exact ⟨h, s, hf, by simpa using ht, hlin⟩

end Multicore.Stacks.LockStack
