import Mathlib.Logic.Function.Basic
import Mathlib.Tactic.Common

/-! Interleaved programs and their runs. A program gives the state after one
atomic action, nothing where the action is not enabled, and the events that the
action shows to an observer. A run is any finite sequence of enabled actions; the
guard of a run says in which states its actions may be taken. Every safety
result is an invariant of a run, proved one action at a time. -/

namespace Multicore.Runs

/-- A program under interleaving. -/
structure Program (σ α ε : Type*) where
  step : σ → α → Option σ
  shows : σ → α → List ε

variable {σ α ε : Type*}

/-- The same program, which shows other events. -/
def Program.observe {δ : Type*} (P : Program σ α ε) (shows : σ → α → List δ) : Program σ α δ :=
  ⟨P.step, shows⟩

/-- The same program with a ledger that is written after every action and never read. -/
def Program.ghost {γ : Type*} (P : Program σ α ε) (next : γ → σ → α → σ → γ) :
    Program (σ × γ) α ε :=
  ⟨fun x a => (P.step x.1 a).map fun u => (u, next x.2 x.1 a u), fun x a => P.shows x.1 a⟩

/-- A guard on the state before an action; a run under `Free` is any run. -/
abbrev Guard (σ α : Type*) := σ → α → Prop

def Free : Guard σ α := fun _ _ => True

/-- `Run P C s h u`: from `s`, actions that meet `C` lead to `u` and show `h`. -/
inductive Run (P : Program σ α ε) (C : Guard σ α) (s : σ) : List ε → σ → Prop
  | refl : Run P C s [] s
  | tail {h : List ε} {u v : σ} {a : α} :
      Run P C s h u → C u a → P.step u a = some v → Run P C s (h ++ P.shows u a) v

namespace Run

variable {P : Program σ α ε} {C D : Guard σ α} {s u v : σ} {h k : List ε}

theorem single {a : α} (hc : C s a) (ha : P.step s a = some u) : Run P C s (P.shows s a) u := by
  simpa using (Run.refl (P := P) (C := C) (s := s)).tail hc ha

theorem trans (hr : Run P C s h u) (hs : Run P C u k v) : Run P C s (h ++ k) v := by
  induction hs with
  | refl => simpa using hr
  | tail _ hc ha ih => simpa only [List.append_assoc] using ih.tail hc ha

theorem mono (hr : Run P C s h u) (hCD : ∀ x a, C x a → D x a) : Run P D s h u := by
  induction hr with
  | refl => exact .refl
  | tail _ hc ha ih => exact ih.tail (hCD _ _ hc) ha

/-- What holds at the start and is kept by every guarded action holds throughout. -/
theorem invariant {I : List ε → σ → Prop} (h0 : I [] s)
    (hstep : ∀ h x a y, I h x → C x a → P.step x a = some y → I (h ++ P.shows x a) y)
    (hr : Run P C s h u) : I h u := by
  induction hr with
  | refl => exact h0
  | tail _ hc ha ih => exact hstep _ _ _ _ ih hc ha

/-- The rule for an invariant of the state alone. -/
theorem always {I : σ → Prop} (h0 : I s)
    (hstep : ∀ x a y, I x → C x a → P.step x a = some y → I y) (hr : Run P C s h u) : I u :=
  hr.invariant (I := fun _ x => I x) h0 (fun _ x a y hi hc ha => hstep x a y hi hc ha)

/-- If `Q` can follow every action of `P` and shows the same events, it can follow the run. -/
theorem simulate {σ' α' : Type*} {Q : Program σ' α' ε} {E : Guard σ' α'} {s' : σ'} (R : σ → σ' → Prop)
    (hr : Run P C s h u) (h0 : R s s')
    (hstep : ∀ x a y x', R x x' → C x a → P.step x a = some y →
      ∃ y', Run Q E x' (P.shows x a) y' ∧ R y y') :
    ∃ u', Run Q E s' h u' ∧ R u u' := by
  induction hr with
  | refl => exact ⟨s', .refl, h0⟩
  | tail _ hc ha ih =>
    obtain ⟨x', hx, hR⟩ := ih
    obtain ⟨y', hy, hR'⟩ := hstep _ _ _ x' hR hc ha
    exact ⟨y', hx.trans hy, hR'⟩

/-- The rule for an abstraction that is a function of the state. -/
theorem map {σ' α' : Type*} {Q : Program σ' α' ε} {E : Guard σ' α'} (f : σ → σ') (hr : Run P C s h u)
    (hstep : ∀ x a y, C x a → P.step x a = some y → Run Q E (f x) (P.shows x a) (f y)) :
    Run Q E (f s) h (f u) := by
  induction hr with
  | refl => exact .refl
  | tail _ hc ha ih => exact ih.trans (hstep _ _ _ hc ha)

end Run

/-! ### Ledgers -/

section Ghost
variable {γ : Type*} {P : Program σ α ε} {next : γ → σ → α → σ → γ} {s u : σ} {x y : γ}
  {h : List ε} {a : α}

theorem ghost_step {z : σ × γ} (ha : (P.ghost next).step (s, x) a = some z) :
    P.step s a = some z.1 ∧ z.2 = next x s a z.1 := by
  obtain ⟨v, hv, rfl⟩ := Option.map_eq_some_iff.mp ha
  exact ⟨hv, rfl⟩

/-- Every run has its ledger. -/
theorem Run.ghost (hr : Run P Free s h u) (next : γ → σ → α → σ → γ) (x : γ) :
    ∃ y, Run (P.ghost next) Free (s, x) h (u, y) := by
  induction hr with
  | refl => exact ⟨x, .refl⟩
  | @tail h v w a _ _ ha ih =>
    obtain ⟨y, hy⟩ := ih
    exact ⟨next y v a w, hy.tail (P := P.ghost next) (a := a) trivial
      (by simp only [Program.ghost, ha, Option.map_some])⟩

/-- The ledger does not change what the program does. -/
theorem Run.of_ghost (hr : Run (P.ghost next) Free (s, x) h (u, y)) : Run P Free s h u :=
  hr.map (Q := P) (E := Free) Prod.fst fun _ _ _ _ ha => Run.single trivial (ghost_step ha).1

theorem Run.ghost_iff : (∃ y, Run (P.ghost next) Free (s, x) h (u, y)) ↔ Run P Free s h u :=
  ⟨fun hr => hr.elim fun _ hy => hy.of_ghost, fun hr => hr.ghost next x⟩

end Ghost

/-- After a move of `t` to `p`, a thread is where `t` went, or it is another and where it was. -/
theorem update_cases {T L : Type*} [DecidableEq T] {pc : T → L} {t u : T} {p q : L}
    (h : Function.update pc t p u = q) : (u = t ∧ p = q) ∨ (u ≠ t ∧ pc u = q) := by
  rw [Function.update_apply] at h
  split at h
  · exact .inl ⟨‹_›, h⟩
  · exact .inr ⟨‹_›, h⟩

instance (s : σ) (a : α) : Decidable (Free s a) := inferInstanceAs (Decidable True)

/-- Execute a list of actions as long as they meet the guard, collecting the events. -/
def Program.exec (P : Program σ α ε) (C : Guard σ α) [∀ s a, Decidable (C s a)] :
    σ → List α → Option (List ε × σ)
  | s, [] => some ([], s)
  | s, a :: as => if C s a then (P.step s a).bind fun u =>
      (P.exec C u as).map fun r => (P.shows s a ++ r.1, r.2)
    else none

section Exec
variable {P : Program σ α ε} {C : Guard σ α} [∀ s a, Decidable (C s a)] {s : σ}

theorem run_of_exec {as : List α} {r : List ε × σ} (he : P.exec C s as = some r) :
    Run P C s r.1 r.2 := by
  induction as generalizing s r with
  | nil =>
    simp only [Program.exec, Option.some.injEq] at he
    subst he
    exact .refl
  | cons a as ih =>
    simp only [Program.exec, Option.ite_none_right_eq_some, Option.bind_eq_some_iff,
      Option.map_eq_some_iff] at he
    obtain ⟨hc, u, hu, p, hp, rfl⟩ := he
    exact (Run.single hc hu).trans (ih hp)

/-- An execution that is computed and tested gives a run that passes the test. -/
theorem exists_run_of_exec (as : List α) (test : List ε → σ → Bool)
    (h : (P.exec C s as).any (fun r => test r.1 r.2) = true) :
    ∃ k u, Run P C s k u ∧ test k u = true := by
  obtain ⟨r, hr, ht⟩ := (Option.any_eq_true _ _).mp h
  exact ⟨r.1, r.2, run_of_exec hr, ht⟩

end Exec

end Multicore.Runs
