import Multicore.Stacks.TestOneOver
import Multicore.Stacks.LockFreeStack
import Multicore.Stacks.LockStackOrder
import Multicore.Stacks.EliminationStack

/-! `testone` over the three stacks, with all their steps. Each stack refines the atomic one, the
elimination stack as long as it makes no trade; so what the workers count over the atomic stack they
count over each of them, and what the main thread finds left is what was pushed and not popped. -/

namespace Multicore.Stacks.TestOne

open Runs

variable {numthreads : ℕ}

/-! ### What is left on the stack -/

/-- What the main thread has popped. -/
def Main.mypopcount : Main → UInt64
  | .popping c => c
  | .joining | .returned => 0

/-- What was pushed is on the stack or was popped, by a worker or by the main thread. -/
def Balanced (s : State numthreads) : Prop :=
  s.main ≠ .returned → s.stack.length + ∑ t, (s.pc t).popcount.toNat + s.main.mypopcount.toNat =
    ∑ t, (s.pc t).pushcount.toNat

section Balanced
variable {s u : State numthreads} {t : Fin numthreads} {p : Pc} {heads : Bool}

/-- A worker's step that pushes `a` and pops `b` nodes. -/
theorem Balanced.move {a b : ℕ} (hb : Balanced s) (hu : u.pc = Function.update s.pc t p)
    (hmain : u.main = s.main) (hpush : p.pushcount.toNat = (s.pc t).pushcount.toNat + a)
    (hpop : p.popcount.toNat = (s.pc t).popcount.toNat + b)
    (hstack : u.stack.length + b = s.stack.length + a) : Balanced u := by
  have hself : u.pc t = p := by rw [hu, Function.update_self]
  have hother : ∀ v, v ≠ t → u.pc v = s.pc v := fun v hv => by rw [hu, Function.update_of_ne hv]
  have hpushes : ∑ v, (u.pc v).pushcount.toNat = ∑ v, (s.pc v).pushcount.toNat + a :=
    sum_add_at t (by rw [hself, hpush]) fun v hv => by rw [hother v hv]
  have hpops : ∑ v, (u.pc v).popcount.toNat = ∑ v, (s.pc v).popcount.toNat + b :=
    sum_add_at t (by rw [hself, hpop]) fun v hv => by rw [hother v hv]
  intro h
  rw [hmain] at h
  have heq := hb h
  rw [hpushes, hpops, hmain]
  omega

/-- A count that fits does not wrap. -/
theorem toNat_succ {c : UInt64} (hc : c.toNat ≤ 10000) : (c + 1).toNat = c.toNat + 1 := by
  rw [UInt64.toNat_add]
  exact Nat.mod_eq_of_lt (by rw [UInt64.toNat_one]; omega)

theorem Balanced.exec (hs : Counted s) (hb : Balanced s) (hu : exec s t heads = some u) : Balanced u := by
  have hfits := (hs.fits t).le
  have hkeep : ∀ {q : Pc} {v : State numthreads}, v.pc = Function.update s.pc t q → v.main = s.main →
      q.pushcount = (s.pc t).pushcount → q.popcount = (s.pc t).popcount → v.stack = s.stack → Balanced v :=
    fun hv hmain hpush hpop hstack =>
      hb.move (a := 0) (b := 0) hv hmain (congrArg _ hpush) (congrArg _ hpop) (congrArg List.length hstack)
  cases hp : s.pc t with
  | loop i a b =>
    rw [hp] at hfits
    have ha : a.toNat ≤ 10000 := (Nat.le_add_right ..).trans hfits
    have hb' : b.toNat ≤ 10000 := (Nat.le_add_left ..).trans hfits
    simp only [TestOne.exec, hp] at hu
    split at hu
    · split at hu
      · cases hu
        exact hb.move (a := 1) (b := 0) rfl rfl (by rw [hp]; exact toNat_succ ha) (by rw [hp]; rfl) rfl
      · split at hu <;> cases hu
        · rename_i n l hl
          exact hb.move (a := 0) (b := 1) rfl rfl (by rw [hp]; rfl) (by rw [hp]; exact toNat_succ hb')
            (by rw [hl]; rfl)
        · exact hkeep rfl rfl (by rw [hp]; rfl) (by rw [hp]; rfl) rfl
    · cases hu
      exact hkeep rfl rfl (by rw [hp]; rfl) (by rw [hp]; rfl) rfl
  | done a b => simp [TestOne.exec, hp] at hu
  | start | readPush a b | writePush a b total | readPop a b | writePop a b total =>
    simp only [TestOne.exec, hp, Option.some.injEq] at hu
    subst hu
    exact hkeep rfl rfl (by rw [hp]; rfl) (by rw [hp]; rfl) rfl

theorem Balanced.execMain (hn : numthreads < 2 ^ 32) (hs : Counted s) (hb : Balanced s)
    (hu : execMain s = some u) : Balanced u := by
  unfold TestOne.execMain at hu
  cases hm : s.main with
  | joining =>
    simp only [hm, Option.ite_none_right_eq_some, Option.some.injEq] at hu
    obtain ⟨-, rfl⟩ := hu
    intro _
    have heq := hb (by rw [hm]; exact Main.noConfusion)
    rw [hm] at heq
    exact heq
  | popping c =>
    have heq := hb (by rw [hm]; exact Main.noConfusion)
    simp only [hm, Option.ite_none_right_eq_some] at hu
    obtain ⟨-, hu⟩ := hu
    split at hu <;> cases hu
    · rename_i n l hl
      intro _
      rw [hm, hl] at heq
      have hle : ∑ v, (s.pc v).pushcount.toNat < 2 ^ 64 :=
        sum_lt_size hn fun v => (Nat.le_add_right ..).trans (hs.fits v).le
      have hc : (c + 1).toNat = c.toNat + 1 := by
        rw [UInt64.toNat_add]
        refine Nat.mod_eq_of_lt ?_
        simp only [Main.mypopcount, List.length_cons] at heq
        rw [UInt64.toNat_one]
        omega
      simp only [Main.mypopcount, List.length_cons] at heq ⊢
      omega
    · exact fun h => absurd rfl h
  | returned => simp [hm] at hu

/-- In every run the workers have counted what they did, and nothing is lost from the stack. -/
theorem counted_of_run {h : List UInt64} (hn : numthreads < 2 ^ 32)
    (hr : Run (testone numthreads) Undisturbed (initial numthreads) h s) :
    Counted s ∧ Balanced s ∧ ∀ k ∈ h, k.toNat = 10000 * numthreads := by
  refine hr.invariant (I := fun (h : List UInt64) s => Counted s ∧ Balanced s ∧
    ∀ k ∈ h, k.toNat = 10000 * numthreads) ⟨.initial, fun _ => ?_, by simp⟩ ?_
  · simp [initial, Main.mypopcount, Pc.pushcount, Pc.popcount]
  · rintro h s a u ⟨hs, hb, hh⟩ hc hu
    cases a with
    | exec t heads =>
      refine ⟨hs.exec hn hc hu, hb.exec hs hu, fun k hk => hh k ?_⟩
      simpa only [testone, shows, List.append_nil] using hk
    | main =>
      refine ⟨hs.execMain hu, hb.execMain hn hs hu, fun k hk => ?_⟩
      rcases List.mem_append.mp hk with hk | hk
      · exact hh k hk
      · simp only [testone, shows] at hk
        split at hk
        · rename_i hm _
          rw [List.mem_singleton.mp hk]
          exact hs.printed hn (hs.joined (by rw [hm]; exact Main.noConfusion))
        · cases hk

end Balanced

/-! ### The stacks -/

section Stacks
variable {σ α N : Type*} {data : N → Int32} {h : List UInt64}

/-- A stack whose every step is followed by the atomic one. -/
def Refines (P : Program σ α (Event (Thread numthreads) (Op N) (Res N))) (C : Guard σ α)
    (R : σ → Atomic (Thread numthreads) (List N) (Op N) (Res N) → Prop) : Prop :=
  ∀ s a u x, R s x → C s a → P.step s a = some u →
    ∃ y, Run (atomic (Thread numthreads) (lifo N)) Free x (P.shows s a) y ∧ R u y

theorem lockFreeStack_refines [DecidableEq N] :
    Refines (LockFreeStack.lockFreeStack (T := Thread numthreads) (N := N)) LockFreeStack.Fresh
      fun s x => ∃ l, Treiber s.core l ∧ x = s.core.atomic l := by
  rintro s a u x ⟨l, hs, rfl⟩ hf hu
  have hrun := LockFreeStack.core_step hf hu
  obtain ⟨y, hy, l', hs', he⟩ := hrun.simulate (Q := atomic (Thread numthreads) (lifo N)) (E := Free)
    (fun c x => ∃ l, Treiber c l ∧ x = c.atomic l) ⟨l, hs, rfl⟩ fun c b d x ⟨l, hs, hx⟩ hc hb =>
      ⟨_, by subst hx; exact hs.follow hc.2 hb, _, hs.step hc.1 hb, rfl⟩
  exact ⟨y, hy, l', hs', he⟩

theorem lockStack_refines [DecidableEq N] :
    Refines (LockStack.lockStack (Thread numthreads) N) LockStack.Fresh
      fun s x => ∃ l, LockStack.Inv s l ∧ x = s.atomic l := by
  rintro s a u x ⟨l, hi, rfl⟩ hf hu
  obtain ⟨k, hk, hrun⟩ := hi.step hf hu
  exact ⟨_, hrun, k, hk, rfl⟩

/-- A node is given to a push only when it is in no chain, in no other push and in nobody's hands,
and no push takes the node of another push. -/
def FreshUntraded : Guard (EliminationStack.State (Thread numthreads))
    (EliminationStack.Action (Thread numthreads)) := fun s a =>
  EliminationStack.trades s a = false ∧ match a with
    | .call t op => Fresh s.core (.call t op)
    | _ => True

theorem eliminationStack_refines (maxrange : UInt32) :
    Refines (EliminationStack.eliminationStack (T := Thread numthreads) maxrange) FreshUntraded
      fun s x => EliminationStack.Inv s ∧ ∃ l, Treiber s.core l ∧ x = s.core.atomic l := by
  rintro s a u x ⟨hi, l, hs, rfl⟩ ⟨htrade, hf⟩ hu
  have hi' : EliminationStack.Inv u := hi.step hu
  rcases EliminationStack.step_follows hi hu with ⟨hshow, he⟩ | ⟨b, hb, hshow, hn⟩
  · refine ⟨s.core.atomic l, ?_, hi', l, he ▸ hs, by rw [he]⟩
    rw [show (EliminationStack.eliminationStack maxrange).shows s a = [] from hshow]
    exact .refl
  · have hfresh : Fresh s.core b := by
      cases b with
      | call t op =>
        -- the core's call is the one that the thread makes
        have hcall : EliminationStack.shows s a = [.call t op] := hshow.symm
        cases a with
        | call v op' =>
          simp only [EliminationStack.shows, List.cons.injEq, Event.call.injEq, and_true] at hcall
          obtain ⟨rfl, rfl⟩ := hcall
          exact hf
        | exec v slot late => cases hcall
        | ret v =>
          simp only [EliminationStack.shows] at hcall
          cases hres : (s.pc v).result <;> rw [hres] at hcall <;> cases hcall
      | _ => trivial
    refine ⟨u.core.atomic (s.core.after l b), ?_, hi', _, hs.step hfresh hb, rfl⟩
    have hrun := hs.follow (hn htrade) hb
    rw [hshow] at hrun
    exact hrun

/-- What `testone` makes of its operations: whatever is printed is 10000 for each worker, when the
workers are done the totals are the sums of their counts, what the main thread then finds on the
stack is what was pushed and not popped, and it leaves the stack, whose first node is `head`, empty. -/
structure Reports (h : List UInt64) (k : Workers numthreads) (head : Option N) : Prop where
  printed : ∀ n ∈ h, n.toNat = 10000 * numthreads
  totals : (∀ t, (k.worker t).isDone) → ∃ pushes pops : Fin numthreads → UInt64,
    (∀ t, k.worker t = .at (.done (pushes t) (pops t))) ∧
      k.totalpushcount.toNat = ∑ t, (pushes t).toNat ∧ k.totalpopcount.toNat = ∑ t, (pops t).toNat
  leftover : ∀ mypopcount, k.main = .printing mypopcount →
    k.totalpopcount.toNat + mypopcount.toNat = k.totalpushcount.toNat
  emptied : k.main.LoopLeft → head = none

/-- A worker that is done stands at its counts. -/
theorem eq_done {w : Worker} (hw : w.isDone) (a : Status (Op N) (Res N)) :
    w = .at (.done (w.pc a).pushcount (w.pc a).popcount) := by
  cases w with
  | «at» p => cases p <;> first | rfl | cases hw
  | _ => cases hw

/-- Over every stack that refines the atomic one. -/
theorem reports_of_refines {P : Program σ α (Event (Thread numthreads) (Op N) (Res N))} {C : Guard σ α}
    {R : σ → Atomic (Thread numthreads) (List N) (Op N) (Res N) → Prop} (hn : numthreads < 2 ^ 32)
    {head : σ → Option N} (hP : Refines P C R) (hhead : ∀ s x, R s x → x.obj = [] → head s = none) {s : σ}
    (h0 : R s (Atomic.initial _ (lifo N))) {z : Workers numthreads × σ}
    (hr : Run ((client numthreads data).driving P) (Client.both Alone C) (Workers.initial numthreads, s) h z) :
    Reports h z.1 (head z.2) := by
  obtain ⟨x, hx, hR⟩ := Client.driving_simulate (Q := atomic (Thread numthreads) (lifo N)) (D := Free) R h0
    (fun s a u x hR hc hu => hP s a u x hR hc hu) hr
  obtain ⟨hf, hrun⟩ := run_seen hx
  obtain ⟨hcounted, hbalanced, hprinted⟩ := counted_of_run hn hrun
  have htotals : (∀ t, (z.1.worker t).isDone) → ∃ pushes pops : Fin numthreads → UInt64,
      (∀ t, z.1.worker t = .at (.done (pushes t) (pops t))) ∧
        z.1.totalpushcount.toNat = ∑ t, (pushes t).toNat ∧
          z.1.totalpopcount.toNat = ∑ t, (pops t).toNat := fun hd =>
    ⟨_, _, fun t => eq_done (hd t) (x.status (some t)),
      hcounted.totals fun t => (isDone_pc ..).trans (hd t)⟩
  refine ⟨hprinted, htotals, fun c hm => ?_, fun hm => hhead _ _ hR (hf.empty (.inl hm))⟩
  have hmain : (seen data z.1 x).main = .popping c := by
    show z.1.main.main (x.status none) = _
    rw [hm]
    rfl
  have hstack : (seen data z.1 x).stack = [] := by
    show x.obj.map data = []
    rw [hf.empty (.inl (by rw [hm]; trivial))]
    rfl
  have hd := hf.joined (by rw [hm]; exact MainThread.noConfusion)
  obtain ⟨hpush, hpop⟩ := hcounted.totals fun t => (isDone_pc ..).trans (hd t)
  have heq := hbalanced (by rw [hmain]; exact Main.noConfusion)
  rw [hstack, hmain, ← hpush, ← hpop, List.length_nil, Nat.zero_add] at heq
  exact heq

end Stacks

/-! The first node of a stack that the atomic one sees as empty. -/

theorem lockFreeStack_headNext_none [DecidableEq N] (s : LockFreeStack.State (Thread numthreads) N)
    (x : Atomic (Thread numthreads) (List N) (Op N) (Res N)) :
    (∃ l, Treiber s.core l ∧ x = s.core.atomic l) → x.obj = [] → s.headNext = none := by
  rintro ⟨l, hs, rfl⟩ (rfl : l = [])
  exact hs.chain

theorem lockStack_head_none [DecidableEq N] (s : LockStack.State (Thread numthreads) N)
    (x : Atomic (Thread numthreads) (List N) (Op N) (Res N)) :
    (∃ l, LockStack.Inv s l ∧ x = s.atomic l) → x.obj = [] → s.head = none := by
  rintro ⟨l, hi, rfl⟩ (rfl : l = [])
  exact hi.chain

theorem eliminationStack_headNext_none (s : EliminationStack.State (Thread numthreads))
    (x : Atomic (Thread numthreads) (List Exchange.Node) (Op Exchange.Node) (Res Exchange.Node)) :
    (EliminationStack.Inv s ∧ ∃ l, Treiber s.core l ∧ x = s.core.atomic l) → x.obj = [] →
      s.headNext = none := by
  rintro ⟨-, l, hs, rfl⟩ (rfl : l = [])
  exact hs.chain

/-- `testone` reports every operation and leaves no node behind over each of its stacks, with all
the steps of these, in any interleaving in which no worker writes a total between another's read and
write of it and no node is pushed that is in use; over the elimination stack if no push takes the node
of another. -/
theorem testone_over_stacks (hn : numthreads < 2 ^ 32) (h : List UInt64) (k : Workers numthreads) :
    (∀ (data : ℕ → Int32) (next : ℕ → Option ℕ) s,
      Run ((client numthreads data).driving LockFreeStack.lockFreeStack) (Client.both Alone LockFreeStack.Fresh)
        (Workers.initial numthreads, LockFreeStack.initial next) h (k, s) → Reports h k s.headNext) ∧
    (∀ (data : ℕ → Int32) (next : ℕ → Option ℕ) s,
      Run ((client numthreads data).driving (LockStack.lockStack _ ℕ)) (Client.both Alone LockStack.Fresh)
        (Workers.initial numthreads, LockStack.initial next) h (k, s) → Reports h k s.head) ∧
    (∀ (data : Exchange.Node → Int32) (next : Exchange.Node → Option Exchange.Node) s,
      Run ((client numthreads data).driving (EliminationStack.eliminationStack 100))
        (Client.both Alone FreshUntraded)
        (Workers.initial numthreads, EliminationStack.initial next) h (k, s) → Reports h k s.headNext) := by
  refine ⟨fun data next s hr => ?_, fun data next s hr => ?_, fun data next s hr => ?_⟩
  · exact reports_of_refines hn lockFreeStack_refines lockFreeStack_headNext_none ⟨[], .initial next, rfl⟩ hr
  · exact reports_of_refines hn lockStack_refines lockStack_head_none ⟨[], .initial next, rfl⟩ hr
  · exact reports_of_refines hn (eliminationStack_refines 100) eliminationStack_headNext_none
      ⟨.initial next, [], .initial next, rfl⟩ hr

/-! ### One worker -/

section One

section Calls
variable {T N : Type*} [DecidableEq T] [DecidableEq N] {s u : LockFreeStack.State T N} {t : T} {n : N}

theorem run_call (op : Op N) (hp : s.pc t = .idle) (hf : LockFreeStack.Fresh s (.call t op)) :
    Run LockFreeStack.lockFreeStack LockFreeStack.Fresh s [.call t op] (s.goto t (.enter op)) :=
  Run.single (P := LockFreeStack.lockFreeStack) (a := .call t op) hf
    (by simp only [LockFreeStack.lockFreeStack, LockFreeStack.step, hp, if_true])

theorem run_silent (hu : LockFreeStack.exec s t = some u) :
    Run LockFreeStack.lockFreeStack LockFreeStack.Fresh s [] u :=
  Run.single (P := LockFreeStack.lockFreeStack) (a := .exec t) trivial hu

theorem run_ret {p : LockFreeStack.Pc N} {r : Res N} (hp : s.pc t = .idle) (hr : p.result = some r) :
    Run LockFreeStack.lockFreeStack LockFreeStack.Fresh (s.goto t p) [.ret t r] s := by
  have hidle : Function.update (Function.update s.pc t p) t LockFreeStack.Pc.idle = s.pc := by
    rw [Function.update_idem, ← hp, Function.update_eq_self]
  have hret := Run.single (P := LockFreeStack.lockFreeStack) (C := LockFreeStack.Fresh) (a := .ret t)
    (s := s.goto t p) (u := s) trivial (by
      simp only [LockFreeStack.lockFreeStack, LockFreeStack.step, LockFreeStack.State.goto,
        Function.update_self, hr, Option.map_some, hidle])
  simpa only [LockFreeStack.lockFreeStack, LockFreeStack.shows, LockFreeStack.State.goto,
    Function.update_self, hr, Option.map_some, Option.toList_some] using hret

/-- A push that meets nobody. -/
theorem run_push (hp : s.pc t = .idle) (hf : LockFreeStack.Fresh s (.call t (.push n))) :
    Run LockFreeStack.lockFreeStack LockFreeStack.Fresh s [.call t (.push n), .ret t .pushed]
      { s with headNext := some n, next := Function.update s.next n s.headNext } := by
  have hload := run_silent (s := s.goto t (.pushLoad n)) (t := t) (u := s.goto t (.pushStore n s.headNext)) (by
    simp only [LockFreeStack.exec, LockFreeStack.State.goto, Function.update_self, Function.update_idem])
  have hstore := run_silent (s := s.goto t (.pushStore n s.headNext)) (t := t)
    (u := { s.goto t (.pushCas n s.headNext) with next := Function.update s.next n s.headNext }) (by
      simp only [LockFreeStack.exec, LockFreeStack.State.goto, Function.update_self, Function.update_idem])
  have hcas := run_silent (t := t)
    (s := { s.goto t (.pushCas n s.headNext) with next := Function.update s.next n s.headNext })
    (u := { s.goto t .pushRet with
      next := Function.update s.next n s.headNext, headNext := some n }) (by
      simp only [LockFreeStack.exec, LockFreeStack.State.goto, Function.update_self, Function.update_idem,
        if_true])
  have hret := run_ret (s := { s with headNext := some n, next := Function.update s.next n s.headNext })
    (t := t) (p := .pushRet) hp rfl
  exact ((((run_call (.push n) hp hf).trans hload).trans hstore).trans hcas).trans hret

/-- A pop that meets nobody. -/
theorem run_pop (hp : s.pc t = .idle) (hh : s.headNext = some n) :
    Run LockFreeStack.lockFreeStack LockFreeStack.Fresh s [.call t .pop, .ret t (.popped (some n))]
      { s with headNext := s.next n } := by
  have htest := run_silent (s := s.goto t .popTest) (t := t) (u := s.goto t .popLoad) (by
    simp only [LockFreeStack.exec, LockFreeStack.State.goto, Function.update_self, Function.update_idem, hh])
  have hload := run_silent (s := s.goto t .popLoad) (t := t) (u := s.goto t (.popNext n)) (by
    simp only [LockFreeStack.exec, LockFreeStack.State.goto, Function.update_self, Function.update_idem, hh])
  have hnext := run_silent (s := s.goto t (.popNext n)) (t := t) (u := s.goto t (.popCas n (s.next n))) (by
    simp only [LockFreeStack.exec, LockFreeStack.State.goto, Function.update_self, Function.update_idem])
  have hcas := run_silent (s := s.goto t (.popCas n (s.next n))) (t := t)
    (u := { s.goto t (.popRet (some n)) with headNext := s.next n }) (by
      simp only [LockFreeStack.exec, LockFreeStack.State.goto, Function.update_self, Function.update_idem,
        hh, if_true])
  have hret := run_ret (s := { s with headNext := s.next n }) (t := t) (p := .popRet (some n)) hp rfl
  exact (((((run_call .pop hp trivial).trans htest).trans hload).trans hnext).trans hcas).trans hret

/-- A pop that meets nobody and finds nothing. -/
theorem run_pop_none (hp : s.pc t = .idle) (hh : s.headNext = none) :
    Run LockFreeStack.lockFreeStack LockFreeStack.Fresh s [.call t .pop, .ret t (.popped none)] s := by
  have htest := run_silent (s := s.goto t .popTest) (t := t) (u := s.goto t (.popRet none)) (by
    simp only [LockFreeStack.exec, LockFreeStack.State.goto, Function.update_self, Function.update_idem, hh])
  exact ((run_call .pop hp trivial).trans htest).trans (run_ret (p := .popRet none) hp rfl)

end Calls

/-- The data of the nodes of one worker, in the order in which it makes them. -/
def nodeData (n : ℕ) : Int32 := node (0 : Fin 1) (Int32.ofNat n)

/-- One worker, with the two totals. -/
def single (pushes pops : UInt64) (w : Worker) : Workers 1 := ⟨true, pushes, pops, fun _ => w, .joining⟩

theorem update_one (w v : Worker) : Function.update (fun _ : Fin 1 => w) 0 v = fun _ => v :=
  funext fun t => by rw [Subsingleton.elim t 0, Function.update_self]

theorem single_goto (pushes pops : UInt64) (w v : Worker) :
    (single pushes pops w).goto 0 v = single pushes pops v :=
  congrArg (fun f => Workers.mk true pushes pops f .joining) (update_one w v)

/-- `testone` with one worker. -/
abbrev oneWorker := (client 1 nodeData).driving (LockFreeStack.lockFreeStack (T := Thread 1) (N := ℕ))

abbrev oneAlone : Guard (Workers 1 × LockFreeStack.State (Thread 1) ℕ)
    (Thread 1 ⊕ LockFreeStack.Action (Thread 1) ℕ) := Client.both Alone LockFreeStack.Fresh

/-- Its empty stack. -/
def emptyStack : LockFreeStack.State (Thread 1) ℕ := LockFreeStack.initial fun _ => none

theorem run_push_empty (v : Thread 1) (n : ℕ) : Run LockFreeStack.lockFreeStack LockFreeStack.Fresh emptyStack
    [.call v (.push n), .ret v .pushed] { emptyStack with headNext := some n } := by
  have hpush := run_push (s := emptyStack) (t := v) (n := n) rfl
    ⟨fun l hl => by rw [(show l = [] from hl.eq_nil)]; exact List.not_mem_nil, fun _ _ => ⟨nofun, nofun⟩⟩
  rwa [show Function.update emptyStack.next n emptyStack.headNext = emptyStack.next from
    Function.update_eq_self n emptyStack.next] at hpush

/-- A push and a pop, and the stack is as it was. -/
theorem run_push_pop (v : Thread 1) (n : ℕ) : Run LockFreeStack.lockFreeStack LockFreeStack.Fresh emptyStack
    [.call v (.push n), .ret v .pushed, .call v .pop, .ret v (.popped (some n))] emptyStack :=
  (run_push_empty v n).trans (run_pop (s := { emptyStack with headNext := some n }) (t := v) rfl rfl)

/-- The worker's coin falls on heads and on tails in turn. -/
theorem run_pairs : ∀ j ≤ 5000,
    Run oneWorker oneAlone (single 0 0 (.at (.loop 0 0 0)), emptyStack) []
      (single 0 0 (.at (.loop (Int32.ofNat (2 * j)) (UInt64.ofNat j) (UInt64.ofNat j))), emptyStack)
  | 0, _ => .refl
  | j + 1, hj => by
    have hr := run_pairs j (Nat.le_of_succ_le hj)
    have hi : Int32.ofNat (2 * (j + 1)) = Int32.ofNat (2 * j) + 1 + 1 := by
      rw [show 2 * (j + 1) = 2 * j + 1 + 1 by omega, Int32.ofNat_add, Int32.ofNat_add]
      rfl
    have hc : UInt64.ofNat (j + 1) = UInt64.ofNat j + 1 := UInt64.ofNat_add ..
    have hlt : Int32.ofNat (2 * j) < 10000 := by
      rw [Int32.lt_iff_toInt_lt, Int32.toInt_ofNat_of_lt (by omega)]
      show ((2 * j : ℕ) : ℤ) < 10000
      omega
    have hlt' : Int32.ofNat (2 * j) + 1 < 10000 := by
      rw [show Int32.ofNat (2 * j) + 1 = Int32.ofNat (2 * j + 1) from (Int32.ofNat_add ..).symm,
        Int32.lt_iff_toInt_lt, Int32.toInt_ofNat_of_lt (by omega)]
      show ((2 * j + 1 : ℕ) : ℤ) < 10000
      omega
    have htakes : (client 1 nodeData).takeAll
        (single 0 0 (.at (.loop (Int32.ofNat (2 * j)) (UInt64.ofNat j) (UInt64.ofNat j))))
        [.call (some 0) (.push (2 * j)), .ret (some 0) .pushed, .call (some 0) .pop,
          .ret (some 0) (.popped (some (2 * j)))] =
        some (single 0 0 (.at
          (.loop (Int32.ofNat (2 * (j + 1))) (UInt64.ofNat (j + 1)) (UInt64.ofNat (j + 1))))) := by
      simp only [Client.takeAll, client, takes, single, nodeData, hlt, hlt', and_self, if_true,
        Option.bind_some, Workers.goto, update_one, popped, hi, hc]
    exact hr.trans (Client.run_object (run_push_pop (some 0) (2 * j)) htakes)

/-- Two nodes are on the stack. -/
def twoNodes : LockFreeStack.State (Thread 1) ℕ :=
  { emptyStack with headNext := some 9999, next := Function.update (fun _ => none) 9999 (some 9998) }

/-- The last two coins of the worker fall on heads. -/
theorem run_heads : Run oneWorker oneAlone (single 0 0 (.at (.loop 9998 4999 4999)), emptyStack) []
    (single 0 0 (.at (.loop 10000 5001 4999)), twoNodes) := by
  have hchain : Chain emptyStack.next (some 9998) [9998] := ⟨rfl, rfl⟩
  have hpush := (run_push_empty (some 0) 9998).trans
    (run_push (s := { emptyStack with headNext := some 9998 }) (t := some (0 : Fin 1)) (n := 9999) rfl
      ⟨fun l hl => by rw [hl.unique hchain]; decide, fun _ _ => ⟨nofun, nofun⟩⟩)
  refine Client.run_object hpush ?_
  have hlt : (9998 : Int32) < 10000 := by decide
  have hlt' : (9998 : Int32) + 1 < 10000 := by decide
  have hdata : node (0 : Fin 1) (Int32.ofNat 9999) = node (0 : Fin 1) (9998 + 1) := rfl
  have hdata' : node (0 : Fin 1) (Int32.ofNat 9998) = node (0 : Fin 1) 9998 := rfl
  simp only [List.cons_append, List.nil_append, Client.takeAll, client, takes, single, nodeData, hlt, hlt',
    hdata, hdata', and_self, if_true, Option.bind_some, Workers.goto, update_one]
  rfl

/-- The worker done, and the main thread where it stands. -/
def finish (m : MainThread) : Workers 1 := ⟨true, 5001, 4999, fun _ => .at (.done 5001 4999), m⟩

/-- The stack after the main thread has emptied it. -/
def leftStack : LockFreeStack.State (Thread 1) ℕ := { twoNodes with headNext := none }

/-- The worker pushes two nodes more than it pops, and the main thread pops these. -/
theorem run_popped :
    Run oneWorker oneAlone (Workers.initial 1, emptyStack) [] (finish (.printing 2), leftStack) := by
  have hstep : ∀ {k l : Workers 1} {b : Thread 1} {s : LockFreeStack.State (Thread 1) ℕ}, Alone k b →
      (client 1 nodeData).shows k b = [] → (client 1 nodeData).step k b = some l →
      Run oneWorker oneAlone (k, s) [] (l, s) :=
    fun hc hh hu => hh ▸ Client.run_step (K := client 1 nodeData) hc hu
  have hmove : ∀ {a b : UInt64} {w v : Worker}, Alone (single a b w) (some 0) →
      work (single a b w) 0 = some ((single a b w).goto 0 v) →
      Run oneWorker oneAlone (single a b w, twoNodes) [] (single a b v, twoNodes) := fun hc hu =>
    hstep (b := some 0) hc rfl (hu.trans (by rw [single_goto]))
  have hstart := hstep (s := emptyStack) (k := Workers.initial 1) (l := single 0 0 (.at (.loop 0 0 0)))
    (b := some 0) trivial rfl
    (by simp only [client, work, Workers.initial, Workers.goto, update_one, single])
  have hloop := (hstart.trans (run_pairs 4999 (by omega))).trans run_heads
  have hexit := hmove (a := 0) (b := 0) (w := .at (.loop 10000 5001 4999))
    (v := .at (.readPush 5001 4999)) trivial rfl
  have hread := hmove (a := 0) (b := 0) (w := .at (.readPush 5001 4999))
    (v := .at (.writePush 5001 4999 0)) trivial rfl
  have hwrite := hstep (s := twoNodes) (k := single 0 0 (.at (.writePush 5001 4999 0)))
    (l := single 5001 0 (.at (.readPop 5001 4999))) (b := some 0) rfl rfl
    (by simp only [client, work, Workers.goto, update_one, single]; rfl)
  have hread' := hmove (a := 5001) (b := 0) (w := .at (.readPop 5001 4999))
    (v := .at (.writePop 5001 4999 0)) trivial rfl
  have hwrite' := hstep (s := twoNodes) (k := single 5001 0 (.at (.writePop 5001 4999 0)))
    (l := finish .joining) (b := some 0) rfl rfl
    (by simp only [client, work, Workers.goto, update_one, single]; rfl)
  have hjoin := hstep (s := twoNodes) (k := finish .joining) (l := finish (.popping 0)) (b := none) trivial rfl
    (by simp [client, workMain, finish, Worker.isDone, Pc.isDone])
  have hpops := ((run_pop (s := twoNodes) (t := none) (n := 9999) rfl rfl).trans
    (run_pop (s := { twoNodes with headNext := some 9998 }) (t := none) (n := 9998) rfl rfl)).trans
      (run_pop_none (s := leftStack) (t := none) rfl rfl)
  have hmain := Client.run_object (K := client 1 nodeData) (E := Alone) (k := finish (.popping 0))
    (l := finish (.printing 2)) hpops rfl
  exact ((((((hloop.trans hexit).trans hread).trans hwrite).trans hread').trans hwrite').trans
    hjoin).trans hmain

/-- The whole of `testone` with one worker. -/
theorem run_testone :
    Run oneWorker oneAlone (Workers.initial 1, emptyStack) [10000] (finish .returned, leftStack) :=
  run_popped.trans
    (Client.run_step (K := client 1 nodeData) (k := finish (.printing 2)) (b := none) trivial rfl)

/-- A worker pushes 5001 nodes and pops 4999 of them; the main thread finds two, and then has printed
10000. -/
theorem testone_over_stacks_one :
    (Run oneWorker oneAlone (Workers.initial 1, LockFreeStack.initial fun _ => none) []
        (finish (.printing 2), leftStack) ∧ Reports [] (finish (.printing 2)) leftStack.headNext) ∧
      Run oneWorker oneAlone (Workers.initial 1, LockFreeStack.initial fun _ => none) [10000]
        (finish .returned, leftStack) ∧ Reports [10000] (finish .returned) leftStack.headNext :=
  ⟨⟨run_popped, (testone_over_stacks (by decide) [] _).1 nodeData (fun _ => none) leftStack run_popped⟩,
    run_testone, (testone_over_stacks (by decide) [10000] _).1 nodeData (fun _ => none) leftStack run_testone⟩

end One

end Multicore.Stacks.TestOne
