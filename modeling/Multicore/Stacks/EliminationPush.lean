import Multicore.Stacks.EliminationAlone

/-! A push of the elimination stack that is left alone. It may have lost its swap already, and then
it visits the array, where another push may have left it a node to push instead of its own. Left
alone it comes back to its attempt with a node or is done, and the attempt then succeeds: unlike a
pop, a push ends from wherever it stands. -/

namespace Multicore.Stacks.EliminationStack

open Runs Exchange

/-- The thread is inside `push`. -/
def Pc.Pushing : Pc → Prop
  | .pushLoad _ _ | .pushStore _ _ _ | .pushCas _ _ _ | .pushRet | .visit (some _) _
  | .exchange (some _) _ _ _ => True
  | _ => False

variable {T : Type*} [DecidableEq T]

section Step
variable {maxrange : UInt32} {s u : State T} {t : T} {slot : ℕ} {late : Bool} {n : Node} {g : UInt32}
  {i : ℕ} {x : Exchange.Pc}

/-- A step of a push in its exchange: it leaves, or it takes a step there. -/
theorem exec_push_exchange (hp : s.pc t = .exchange (some n) g i x)
    (hu : exec maxrange s t slot late = some u) :
    (∃ other, u = s.goto t (afterVisit (some n) g other)) ∨
    ∃ r, Exchange.exchange (s.exchanger i) late x = some r ∧ u = exchanged s t (some n) g i r := by
  cases x with
  | returned other =>
    simp only [exec, hp, Option.some.injEq] at hu
    exact .inl ⟨other, hu.symm⟩
  | threw =>
    simp only [exec, hp, Option.some.injEq] at hu
    exact .inl ⟨some n, hu.symm⟩
  | _ =>
    simp only [exec, hp, Option.map_eq_some_iff] at hu
    obtain ⟨r, hr, rfl⟩ := hu
    exact .inr ⟨r, hr, rfl⟩

theorem Pc.Pushing.exec (hpush : (s.pc t).Pushing) (hu : exec maxrange s t slot late = some u) :
    (u.pc t).Pushing := by
  cases hp : s.pc t with
  | pushLoad n g | pushStore n g x =>
    simp only [EliminationStack.exec, hp, Option.some.injEq] at hu
    subst hu
    simp only [State.goto, Function.update_self, Pc.Pushing]
  | pushCas n g x =>
    simp only [EliminationStack.exec, hp] at hu
    split at hu <;> cases hu <;> simp only [State.goto, Function.update_self, Pc.Pushing]
  | visit n g =>
    rw [hp] at hpush
    simp only [EliminationStack.exec, hp, Option.ite_none_right_eq_some, Option.some.injEq] at hu
    obtain ⟨-, rfl⟩ := hu
    rw [goto_pc_self]
    cases n with
    | none => exact hpush.elim
    | some n => trivial
  | exchange n g i x =>
    rw [hp] at hpush
    cases n with
    | none => exact hpush.elim
    | some n =>
      rcases exec_push_exchange hp hu with ⟨other, rfl⟩ | ⟨r, -, rfl⟩
      · rw [goto_pc_self]
        cases other <;> trivial
      · rw [exchanged_pc_self]
        trivial
  | pushRet => simp [EliminationStack.exec, hp] at hu
  | _ =>
    rw [hp] at hpush
    exact hpush.elim

/-- A push that has no result can take a step in which time is up. -/
theorem exec_push_isSome (hm : 0 < maxrange) (hi : Inv s) (hpush : (s.pc t).Pushing)
    (hres : (s.pc t).result = none) : ∃ u, exec maxrange s t 0 true = some u := by
  cases hp : s.pc t with
  | pushLoad n g | pushStore n g x =>
    simp only [exec, hp]
    exact ⟨_, rfl⟩
  | pushCas n g x =>
    simp only [exec, hp]
    split <;> exact ⟨_, rfl⟩
  | visit n g =>
    simp only [exec, hp]
    exact ⟨_, if_pos ⟨Nat.zero_le _, UInt32.lt_iff_toNat_lt.mp hm⟩⟩
  | exchange n g i x =>
    have hc := hi.carries t n g i x hp
    cases x with
    | idle => exact hc.elim
    | returned other | threw =>
      simp only [exec, hp]
      exact ⟨_, rfl⟩
    | casEmpty m other | casWaiting m other | cancel m =>
      simp only [exec, hp, Exchange.exchange]
      split <;> exact ⟨_, rfl⟩
    | _ =>
      simp only [exec, hp]
      exact ⟨_, rfl⟩
  | pushRet =>
    rw [hp] at hres
    cases hres
  | _ =>
    rw [hp] at hpush
    exact hpush.elim

end Step

namespace Alone
variable {maxrange : UInt32} {t : T} {f : ℕ → State T} {k : ℕ} {n : Node} {g : UInt32}

/-- An attempt from its first load on succeeds: nobody else changes the head. -/
theorem pushed_of_load (ha : Alone maxrange t f) (hp : (f k).pc t = .pushLoad n g) :
    ∃ m, (f m).pc t = .pushRet := by
  obtain ⟨slot, late, h1⟩ := ha.exec (by rw [hp]; rfl)
  simp only [EliminationStack.exec, hp, Option.some.injEq] at h1
  have hp1 : (f (k + 1)).pc t = .pushStore n g (f k).headNext := by rw [← h1, goto_pc_self]
  obtain ⟨slot, late, h2⟩ := ha.exec (by rw [hp1]; rfl)
  simp only [EliminationStack.exec, hp1, Option.some.injEq] at h2
  have hp2 : (f (k + 1 + 1)).pc t = .pushCas n g (f k).headNext := by
    rw [← h2]
    exact goto_pc_self ..
  have hhead : (f (k + 1 + 1)).headNext = (f k).headNext := by rw [← h2, ← h1]; rfl
  obtain ⟨slot, late, h3⟩ := ha.exec (by rw [hp2]; rfl)
  simp only [EliminationStack.exec, hp2, hhead, if_true, Option.some.injEq] at h3
  exact ⟨k + 1 + 1 + 1, by rw [← h3]; exact goto_pc_self ..⟩

/-- A push leaves its exchange with its node taken, or with a node to push. -/
theorem pushed_of_exchange {i : ℕ} {x : Exchange.Pc} (ha : Alone maxrange t f)
    (hp : (f k).pc t = .exchange (some n) g i x) : ∃ m, (f m).pc t = .pushRet := by
  refine Exists.elim (ha.leads (n := k) (J := fun s => ∃ n g i x, s.pc t = .exchange (some n) g i x)
    (Q := fun s => (∃ n g, s.pc t = .pushLoad n g) ∨ s.pc t = .pushRet)
    ⟨n, g, i, x, hp⟩ (fun s ⟨n, g, i, x, hs⟩ => by rw [hs]; trivial) ?_) ?_
  · rintro s u slot late ⟨n, g, i, x, hs⟩ hu
    rcases exec_push_exchange hs hu with ⟨other, rfl⟩ | ⟨r, -, rfl⟩
    · refine .inr ?_
      rw [goto_pc_self]
      cases other with
      | none => exact .inr rfl
      | some other => exact .inl ⟨other, g * 2, rfl⟩
    · exact .inl ⟨n, g, i, r.2, exchanged_pc_self ..⟩
  · rintro m (⟨n, g, hp⟩ | hp)
    · exact ha.pushed_of_load hp
    · exact ⟨m, hp⟩

theorem pushed_of_visit (ha : Alone maxrange t f) (hp : (f k).pc t = .visit (some n) g) :
    ∃ m, (f m).pc t = .pushRet := by
  obtain ⟨slot, late, hu⟩ := ha.exec (by rw [hp]; rfl)
  simp only [EliminationStack.exec, hp, Option.ite_none_right_eq_some, Option.some.injEq] at hu
  exact ha.pushed_of_exchange (k := k + 1) (by rw [← hu.2, goto_pc_self])

theorem pushed_of_cas {x : Option Node} (ha : Alone maxrange t f) (hp : (f k).pc t = .pushCas n g x) :
    ∃ m, (f m).pc t = .pushRet := by
  obtain ⟨slot, late, hu⟩ := ha.exec (by rw [hp]; rfl)
  simp only [EliminationStack.exec, hp] at hu
  split at hu <;> simp only [Option.some.injEq] at hu
  · exact ⟨k + 1, by rw [← hu]; exact goto_pc_self ..⟩
  · exact ha.pushed_of_visit (k := k + 1) (by rw [← hu, goto_pc_self])

theorem pushed (ha : Alone maxrange t f) (hpush : ((f k).pc t).Pushing) : ∃ m, (f m).pc t = .pushRet := by
  cases hp : (f k).pc t with
  | pushRet => exact ⟨k, hp⟩
  | pushLoad n g => exact ha.pushed_of_load hp
  | pushCas n g x => exact ha.pushed_of_cas hp
  | pushStore n g x =>
    obtain ⟨slot, late, hu⟩ := ha.exec (by rw [hp]; rfl)
    simp only [EliminationStack.exec, hp, Option.some.injEq] at hu
    exact ha.pushed_of_cas (k := k + 1) (by rw [← hu]; exact goto_pc_self ..)
  | visit m g =>
    rw [hp] at hpush
    cases m with
    | none => exact hpush.elim
    | some m => exact ha.pushed_of_visit hp
  | exchange m g i x =>
    rw [hp] at hpush
    cases m with
    | none => exact hpush.elim
    | some m => exact ha.pushed_of_exchange hp
  | _ =>
    rw [hp] at hpush
    exact hpush.elim

end Alone

/-! ### The execution in which time is always up -/

section Hurry
variable {maxrange : UInt32} {s : State T} {t : T} {n : Node} {g : UInt32} {i : ℕ} {x : Exchange.Pc}

theorem hurry_push_exec (hm : 0 < maxrange) (hi : Inv s) (hpush : (s.pc t).Pushing)
    (hres : (s.pc t).result = none) : exec maxrange s t 0 true = some (hurry maxrange t s) := by
  obtain ⟨u, hu⟩ := exec_push_isSome hm hi hpush hres
  rw [hurry, hu, Option.getD_some]

theorem hurry_push_inv (hm : 0 < maxrange) (h : Inv s ∧ (s.pc t).Pushing) :
    Inv (hurry maxrange t s) ∧ ((hurry maxrange t s).pc t).Pushing := by
  by_cases hres : (s.pc t).result = none
  · have hu := hurry_push_exec hm h.1 h.2 hres
    exact ⟨h.1.exec hu, h.2.exec hu⟩
  · rwa [hurry_of_result hres]

theorem iterate_push_inv (hm : 0 < maxrange) (h : Inv s ∧ (s.pc t).Pushing) (k : ℕ) :
    Inv ((hurry maxrange t)^[k] s) ∧ (((hurry maxrange t)^[k] s).pc t).Pushing := by
  induction k with
  | zero => exact h
  | succ k ih =>
    rw [Function.iterate_succ_apply']
    exact hurry_push_inv hm ih

/-- Each exchange ends soon. -/
theorem exists_push_left (hm : 0 < maxrange) (h : Inv s ∧ (s.pc t).Pushing)
    (hp : s.pc t = .exchange (some n) g i x) :
    ∃ k, ¬ (((hurry maxrange t)^[k] s).pc t).Exchanging := by
  induction hd : stepsLeft x using Nat.strong_induction_on generalizing s x with
  | _ d ih =>
    have hu := hurry_push_exec hm h.1 h.2 (by rw [hp]; rfl)
    rcases exec_push_exchange hp hu with ⟨other, he⟩ | ⟨r, hr, he⟩
    · refine ⟨1, ?_⟩
      show ¬ ((hurry maxrange t s).pc t).Exchanging
      rw [he, goto_pc_self]
      cases other <;> exact id
    · obtain ⟨k, hk⟩ := ih (stepsLeft r.2) (hd ▸ stepsLeft_lt hr) (hurry_push_inv hm h)
        (by rw [he, exchanged_pc_self]) rfl
      exact ⟨k + 1, hk⟩

/-- From every state there is an execution in which the push is alone. -/
theorem alone_hurry_push (hm : 0 < maxrange) (h : Inv s ∧ (s.pc t).Pushing) :
    Alone maxrange t fun k => (hurry maxrange t)^[k] s := by
  refine ⟨fun k => ?_, fun k => ?_⟩
  · have hk := iterate_push_inv hm h k
    simp only [Function.iterate_succ_apply']
    by_cases hres : (((hurry maxrange t)^[k] s).pc t).result = none
    · exact .inl ⟨0, true, hurry_push_exec hm hk.1 hk.2 hres⟩
    · exact .inr ⟨hres, hurry_of_result hres⟩
  · have hk := iterate_push_inv hm h k
    cases hp : ((hurry maxrange t)^[k] s).pc t with
    | exchange m g i x =>
      have hpush := hk.2
      rw [hp] at hpush
      cases m with
      | none => exact hpush.elim
      | some m =>
        obtain ⟨j, hj⟩ := exists_push_left hm hk hp
        refine ⟨j + k, Nat.le_add_left k j, ?_⟩
        rwa [Function.iterate_add_apply]
    | _ => exact ⟨k, le_rfl, by rw [hp]; exact id⟩

end Hurry

/-- In every reachable state a push can be left alone, and whenever it is it returns. -/
theorem push_alone_ends {maxrange : UInt32} (hm : 0 < maxrange) {next : Node → Option Node}
    {h : List (Event T (Op Node) (Res Node))} {s : State T}
    (hr : Run (eliminationStack maxrange) Free (initial next) h s) {t : T} (hpush : (s.pc t).Pushing) :
    (∃ f, f 0 = s ∧ Alone maxrange t f) ∧
      ∀ f, f 0 = s → Alone maxrange t f → ∃ n, (f n).pc t = .pushRet := by
  obtain ⟨hi, -⟩ := run_core (E := Free) hr fun _ _ _ _ _ => trivial
  refine ⟨⟨_, rfl, alone_hurry_push hm ⟨hi, hpush⟩⟩, ?_⟩
  rintro f rfl ha
  exact ha.pushed hpush

/-- A push that has lost its swap to another and stands before the array. -/
theorem push_alone_ends_lost : ∃ (h : List (Event (Fin 2) (Op Node) (Res Node))) (s : State (Fin 2)),
    Run (eliminationStack 100) Free (initial fun _ => none) h s ∧
      s.pc 0 = .visit (some ⟨64, rfl, by decide⟩) 2 ∧
      (∃ f, f 0 = s ∧ Alone 100 0 f) ∧ ∀ f, f 0 = s → Alone 100 0 f → ∃ n, (f n).pc 0 = .pushRet := by
  obtain ⟨h, s, hr, ht⟩ := exists_run_of_exec (P := eliminationStack 100) (C := Free)
    (s := (initial fun _ => none : State (Fin 2)))
    [.call 0 (.push ⟨64, rfl, by decide⟩), .exec 0 0 false, .exec 0 0 false,
      .call 1 (.push ⟨128, rfl, by decide⟩), .exec 1 0 false, .exec 1 0 false, .exec 1 0 false, .exec 0 0 false]
    (fun _ s => decide (s.pc 0 = .visit (some ⟨64, rfl, by decide⟩) 2)) (by decide)
  have hp := of_decide_eq_true ht
  exact ⟨h, s, hr, hp, push_alone_ends (t := 0) (by decide) hr (by rw [hp]; trivial)⟩

end Multicore.Stacks.EliminationStack
