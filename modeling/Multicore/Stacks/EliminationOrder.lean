import Multicore.Stacks.EliminationStack

/-! The order of the operations of `EliminationStack`. As long as no push takes the node of
another push out of an exchanger, the stack is linearizable, and a push that returns has
had its node linked or taken. Two pushes that do meet change nodes, and one of them may
return while its node is still on its way with the other; a pop can then find the stack
empty although a push has returned and nobody has popped its node. -/

namespace Multicore.Stacks.EliminationStack

open Runs Exchange

/-- No push takes the node of another push. -/
def Untraded {T : Type*} : Guard (State T) (Action T) := fun s a => trades s a = false

instance {T : Type*} (s : State T) (a : Action T) : Decidable (Untraded s a) :=
  inferInstanceAs (Decidable (trades s a = false))

variable {T : Type*} [DecidableEq T]

/-! ### Placed nodes -/

/-- A step from `m` to `m'` at which `trypush` of `t` links `n`, or a pop takes it from `t`. -/
def Leaves (m m' : State T) (t : T) (n : Node) : Prop :=
  (∃ g, m.pc t = .pushCas n g m.headNext ∧ m'.headNext = some n) ∨
    ∃ u, m.core.view t = .placing n ∧ m.core.view u = .searching ∧ m'.core.view u = .popped (some n)

/-- At some step of the run that led to `s`, after the call of `push(n)` by `t` that is
still open, `n` was linked or taken. -/
def Placed (maxrange : UInt32) (next : Node → Option Node) (h : List (Event T (Op Node) (Res Node)))
    (s : State T) (t : T) (n : Node) : Prop :=
  ∃ h₁ m a m' h₂, h = h₁ ++ shows m a ++ h₂ ∧
    Run (eliminationStack maxrange) Untraded (initial next) h₁ m ∧ step maxrange m a = some m' ∧
    Run (eliminationStack maxrange) Untraded m' h₂ s ∧ (∃ p, Open h₁ p t (.push n)) ∧
    (∀ e ∈ shows m a ++ h₂, e.thread ≠ t) ∧ Leaves m m' t n

section Core
variable {N : Type*} [DecidableEq N] {c d : Core T N} {b : Core.Act T N} {t v : T} {n : N} {a : View N}

omit [DecidableEq N] in
theorem pushes_goto (ht : (c.view t).pushes = some n) (ha : (c.view v).pushes = a.pushes) :
    ((c.goto v a).view t).pushes = some n := by
  by_cases htv : t = v
  · subst htv
    rw [show (c.goto t a).view t = a from Function.update_self .., ← ha, ht]
  · rwa [show (c.goto v a).view t = c.view t from Function.update_of_ne htv ..]

/-- A push keeps its node until it is linked or given away. -/
theorem pushes_step (hb : c.step b = some d) (hn : NoTrade c b) (ht : (c.view t).pushes = some n) :
    (d.view t).pushes = some n ∨ (c.view t = .linked n c.head ∧ d.head = some n) ∨
      ∃ u, c.view t = .placing n ∧ c.view u = .searching ∧ d.view u = .popped (some n) := by
  cases b with
  | call v op =>
    simp only [Core.step] at hb
    split at hb <;> cases hb
    rename_i hv
    have htv : t ≠ v := by
      rintro rfl
      rw [hv] at ht
      cases ht
    left
    rwa [show (c.goto v (.enter op)).view t = c.view t from Function.update_of_ne htv ..]
  | ret v =>
    simp only [Core.step, Option.map_eq_some_iff] at hb
    obtain ⟨r, hr, rfl⟩ := hb
    refine .inl (pushes_goto ht ?_)
    cases hv : c.view v <;> rw [hv] at hr <;> cases hr <;> rfl
  | store v x | retry v | read v | drop v =>
    simp only [Core.step] at hb
    split at hb <;> cases hb
    rename_i hv
    exact .inl (pushes_goto ht (by rw [hv]; rfl))
  | empty v | load v =>
    simp only [Core.step] at hb
    split at hb <;> cases hb
    rename_i hv _
    exact .inl (pushes_goto ht (by rw [hv]; rfl))
  | unlink v =>
    simp only [Core.step] at hb
    split at hb
    · rename_i m x hv
      split at hb <;> cases hb
      exact .inl (pushes_goto ht (by rw [hv]; rfl))
    · cases hb
  | link v =>
    simp only [Core.step] at hb
    split at hb
    · rename_i m x hv
      split at hb <;> cases hb
      rename_i hx
      by_cases htv : t = v
      · subst htv
        rw [hv] at ht
        cases ht
        exact .inr (.inl ⟨by rw [hv, hx], rfl⟩)
      · left
        rwa [show (c.goto v .pushed).view t = c.view t from Function.update_of_ne htv ..]
    · cases hb
  | give v u =>
    simp only [Core.step] at hb
    split at hb <;> cases hb
    rename_i m hv hu
    by_cases htv : t = v
    · subst htv
      rw [hv] at ht
      cases ht
      exact .inr (.inr ⟨u, hv, hu, Function.update_self ..⟩)
    · have hvt : (c.goto v .pushed).view t = c.view t := Function.update_of_ne htv ..
      have huv : u ≠ v := by
        rintro rfl
        rw [hv] at hu
        cases hu
      have hvu : (c.goto v .pushed).view u = c.view u := Function.update_of_ne huv ..
      exact .inl (pushes_goto (by rwa [hvt]) (by rw [hvu, hu]; rfl))
  | trade v u => exact hn.elim

end Core

section Placed
variable {maxrange : UInt32} {next : Node → Option Node} {h : List (Event T (Op Node) (Res Node))}
  {s u : State T} {a : Action T} {t : T} {n : Node} {p : ℕ}

omit [DecidableEq T] in
theorem shows_cases (s : State T) (a : Action T) : shows s a = [] ∨ ∃ e, shows s a = [e] := by
  cases a with
  | call t op => exact .inr ⟨_, rfl⟩
  | exec t slot late => exact .inl rfl
  | ret t =>
    simp only [shows]
    cases (s.pc t).result with
    | none => exact .inl rfl
    | some r => exact .inr ⟨_, rfl⟩

omit [DecidableEq T] in
/-- An open call after an action was open before, or is the action itself. -/
theorem open_of_shows (ho : Open (h ++ shows s a) p t (.push n)) :
    (a = .call t (.push n)) ∨ (Open h p t (.push n) ∧ ∀ e ∈ shows s a, e.thread ≠ t) := by
  rcases shows_cases s a with he | ⟨e, he⟩
  · rw [he] at ho ⊢
    exact .inr ⟨by simpa using ho, nofun⟩
  · rw [he] at ho ⊢
    rcases ho.of_append with ⟨-, rfl⟩ | ⟨ho, hne⟩
    · left
      cases a with
      | call v op =>
        simp only [shows, List.cons.injEq, Event.call.injEq, and_true] at he
        rw [he.1, he.2]
      | exec v slot late => cases he
      | ret v =>
        simp only [shows] at he
        cases hr : (s.pc v).result <;> rw [hr] at he <;> simp at he
    · exact .inr ⟨ho, fun f hf => List.mem_singleton.mp hf ▸ hne⟩

omit [DecidableEq T] in
theorem view_linked {exchanger : ℕ → UInt64} {pc : Pc} {x : Option Node}
    (h : pc.view exchanger = .linked n x) : ∃ g, pc = .pushCas n g x := by
  cases pc with
  | pushCas m g y =>
    cases h
    exact ⟨g, rfl⟩
  | visit m g => cases m <;> cases h
  | exchange m g i y =>
    simp only [Pc.view, visiting] at h
    split at h
    · rename_i r _
      cases m <;> cases r <;> cases h
    · cases m <;> cases h
  | _ => cases h

theorem Placed.step (hp : Placed maxrange next h s t n) (hu : step maxrange s a = some u)
    (ha : Untraded s a) (he : ∀ e ∈ shows s a, e.thread ≠ t) :
    Placed maxrange next (h ++ shows s a) u t n := by
  obtain ⟨h₁, m, b, m', h₂, rfl, hr₁, hm, hr₂, ho, hev, hl⟩ := hp
  refine ⟨h₁, m, b, m', h₂ ++ shows s a, by simp, hr₁, hm, hr₂.tail ha hu, ho, ?_, hl⟩
  intro e hmem
  rw [← List.append_assoc] at hmem
  rcases List.mem_append.mp hmem with hmem | hmem
  · exact hev e hmem
  · exact he e hmem

/-- A push that is still open has its node, or the node was placed since the call. -/
theorem placed_of_run (hr : Run (eliminationStack maxrange) Untraded (initial next) h s)
    (ho : Open h p t (.push n)) :
    (s.core.view t).pushes = some n ∨ Placed maxrange next h s t n := by
  induction hr generalizing p with
  | refl => exact absurd ho.lt (Nat.not_lt_zero _)
  | @tail h s u a hr ha hu ih =>
    have hi := (run_core (E := Free) hr fun _ _ _ _ _ => trivial).1
    rcases open_of_shows ho with rfl | ⟨ho', hev⟩
    · left
      simp only [eliminationStack, step, Option.ite_none_right_eq_some, Option.some.injEq] at hu
      obtain ⟨-, rfl⟩ := hu
      simp [State.core, State.goto, Pc.enter, Pc.view, View.pushes]
    rcases ih ho' with hpush | hplaced
    · have hnow : Leaves s u t n → Placed maxrange next (h ++ shows s a) u t n := fun hl =>
        ⟨h, s, a, u, [], by simp, hr, hu, .refl, ⟨p, ho'⟩, by simpa using hev, hl⟩
      rcases step_follows hi hu with ⟨-, he⟩ | ⟨b, hb, -, hn⟩
      · exact .inl (by rwa [he])
      · rcases pushes_step hb (hn ha) hpush with h | ⟨hv, hh⟩ | ⟨w, hv, hw, hw'⟩
        · exact .inl h
        · obtain ⟨g, hg⟩ := view_linked hv
          exact .inr (hnow (.inl ⟨g, hg, hh⟩))
        · exact .inr (hnow (.inr ⟨w, hv, hw, hw'⟩))
    · exact .inr (hplaced.step hu ha hev)

end Placed

/-- As long as no push takes the node of another push, the stack is linearizable, and a
push returns only after its node was linked or taken. -/
theorem elimination_stack_linearizable_of_untraded {maxrange : UInt32} {next : Node → Option Node}
    {h : List (Event T (Op Node) (Res Node))} {s : State T}
    (hr : Run (eliminationStack maxrange) Untraded (initial next) h s) (hd : (pushed h).Nodup) :
    Linearizable (lifo Node) h ∧
      ∀ t n p, Open h p t (.push n) → s.pc t = .pushRet → Placed maxrange next h s t n := by
  obtain ⟨-, hc⟩ := run_core (E := NoTrade) hr fun _ _ _ ha hn => hn ha
  obtain ⟨-, hf⟩ := kept_of_run hc hd
  obtain ⟨l, -, ha⟩ := Treiber.run hf (fun _ _ h => h.2) (fun _ _ h => h.1)
  refine ⟨linearizable_of_atomic ha, fun t n p ho ht => ?_⟩
  refine (placed_of_run hr ho).resolve_left fun hpush => ?_
  rw [show s.core.view t = .pushed from congrArg (Pc.view s.exchanger) ht] at hpush
  cases hpush

/-- A push that lost its swap meets a pop that found the chain empty. -/
theorem elimination_stack_linearizable_of_untraded_handover :
    ∃ (h : List (Event (Fin 3) (Op Node) (Res Node))) (s : State (Fin 3)),
      Run (eliminationStack 100) Untraded (initial fun _ => none) h s ∧
      popped h = [⟨64, rfl, by decide⟩, ⟨128, rfl, by decide⟩] ∧ Linearizable (lifo Node) h := by
  obtain ⟨h, s, hr, ht⟩ := exists_run_of_exec (P := eliminationStack 100) (C := Untraded)
    (s := (initial (fun _ => none) : State (Fin 3)))
    [.call 0 (.push ⟨64, rfl, by decide⟩), .call 1 (.push ⟨128, rfl, by decide⟩),
      .exec 0 0 false, .exec 1 0 false, .exec 0 0 false, .exec 1 0 false, .exec 0 0 false, .ret 0,
      .exec 1 0 false, .exec 1 0 false, .exec 1 0 false, .exec 1 0 false, .exec 1 0 false, .exec 1 0 false,
      .call 2 .pop, .exec 2 0 false,
      .call 0 .pop, .exec 0 0 false, .exec 0 0 false, .exec 0 0 false, .exec 0 0 false, .ret 0,
      .exec 2 0 false, .exec 2 0 false, .exec 2 0 false, .exec 2 0 false, .exec 2 0 false,
      .exec 2 0 false, .exec 2 0 false, .ret 2]
    (fun h _ => popped h == [⟨64, rfl, by decide⟩, ⟨128, rfl, by decide⟩] && decide (pushed h).Nodup)
    (by decide)
  simp only [Bool.and_eq_true, beq_iff_eq, decide_eq_true_eq] at ht
  obtain ⟨hpop, hd⟩ := ht
  exact ⟨h, s, hr, hpop, (elimination_stack_linearizable_of_untraded hr hd).1⟩

/-! ### Two pushes -/

section Lost
variable {N : Type*} {h : List (Event T (Op N) (Res N))} {n : N}

omit [DecidableEq T] in
/-- In a legal order a pushed node is still there, or some pop has it. -/
theorem mem_or_popped {L : List (ℕ × Res N)} {x : List N} {p : ℕ} {r : Res N} {t : T}
    (hl : Legal (lifo N) h L x) (hm : (p, r) ∈ L) (hp : h[p]? = some (.call t (.push n))) :
    n ∈ x ∨ ∃ p', (p', .popped (some n)) ∈ L := by
  induction hl with
  | nil => cases hm
  | @snoc L x q u op hl hq ih =>
    have hold : (p, r) ∈ L → n ∈ ((lifo N).apply x op).1 ∨
        ∃ p', (p', .popped (some n)) ∈ L ++ [(q, ((lifo N).apply x op).2)] := by
      intro hm
      rcases ih hm with hx | ⟨p', hp'⟩
      · cases op with
        | push m => exact .inl (List.mem_cons_of_mem m hx)
        | pop =>
          cases x with
          | nil => cases hx
          | cons m x =>
            rcases List.mem_cons.mp hx with rfl | hx
            · exact .inr ⟨q, List.mem_append_right _ List.mem_cons_self⟩
            · exact .inl hx
      · exact .inr ⟨p', List.mem_append_left _ hp'⟩
    rcases List.mem_append.mp hm with hm | hm
    · exact hold hm
    · have he := List.mem_singleton.mp hm
      simp only [Prod.mk.injEq] at he
      obtain ⟨rfl, -⟩ := he
      obtain ⟨-, rfl⟩ := call_inj hp hq
      exact .inl List.mem_cons_self

omit [DecidableEq T] in
/-- A history in which a push returns, no pop has its node, and a later pop finds the stack
empty is not linearizable. -/
theorem not_linearizable_of_lost {t u : T} {p q p' q' : ℕ} (hpush : Returns h t p q .pushed)
    (hp : h[p]? = some (.call t (.push n))) (hempty : Returns h u p' q' (.popped none))
    (hp' : h[p']? = some (.call u .pop)) (hq : q ≤ p')
    (hno : ∀ k v, h[k]? = some (.call v .pop) → ∃ j r, Returns h v k j r ∧ r ≠ .popped (some n)) :
    ¬ Linearizable (lifo N) h := by
  rintro ⟨L, x, hl⟩
  obtain ⟨L₁, L₂, y, v, op, rfl, hy, hop, hres⟩ := hl.legal.entry (hl.complete u p' q' _ hempty)
  obtain ⟨-, rfl⟩ := call_inj hp' hop
  have hnil : y = [] := by
    cases y with
    | nil => rfl
    | cons m y => cases hres
  subst hnil
  rcases mem_or_popped hy (hl.before hpush hq) hp with hm | ⟨k, hk⟩
  · cases hm
  · obtain ⟨M₁, M₂, z, w, op', -, -, hkop, hkres⟩ := hy.entry hk
    have hpop : op' = .pop := by
      cases op' with
      | push m => cases hkres
      | pop => rfl
    subst hpop
    obtain ⟨j, r, hr, hne⟩ := hno k w hkop
    exact hne (hl.result_unique (hl.complete w k j r hr) (List.mem_append_left _ hk))

end Lost

/-- Three threads push a node each, two of them return, and three pops return two nodes. -/
def lostHistory : List (Event (Fin 3) (Op Node) (Res Node)) :=
  [.call 0 (.push ⟨64, rfl, by decide⟩), .call 1 (.push ⟨128, rfl, by decide⟩),
    .call 2 (.push ⟨192, rfl, by decide⟩), .ret 2 .pushed, .ret 0 .pushed,
    .call 2 .pop, .ret 2 (.popped (some ⟨128, rfl, by decide⟩)),
    .call 2 .pop, .ret 2 (.popped (some ⟨192, rfl, by decide⟩)),
    .call 2 .pop, .ret 2 (.popped none)]

theorem lostHistory_not_linearizable : ¬ Linearizable (lifo Node) lostHistory := by
  have hpush : Returns lostHistory 0 0 4 .pushed := by decide
  have h5 : Returns lostHistory 2 5 6 (.popped (some ⟨128, rfl, by decide⟩)) := by decide
  have h7 : Returns lostHistory 2 7 8 (.popped (some ⟨192, rfl, by decide⟩)) := by decide
  have h9 : Returns lostHistory 2 9 10 (.popped none) := by decide
  refine not_linearizable_of_lost hpush rfl h9 rfl (by decide) fun k v hk => ?_
  have hpops : ∀ k < 11, ∀ v, lostHistory[k]? = some (.call v .pop) → v = 2 ∧ (k = 5 ∨ k = 7 ∨ k = 9) := by
    decide
  obtain ⟨rfl, rfl | rfl | rfl⟩ := hpops k (List.getElem?_eq_some_iff.mp hk).1 v hk
  · exact ⟨6, _, h5, by decide⟩
  · exact ⟨8, _, h7, by decide⟩
  · exact ⟨10, _, h9, by decide⟩

/-- Two pushes that lost their swaps change nodes. The first links the other's node and
returns; two pops and a third one that finds the stack empty never see its own. -/
theorem elimination_stack_lost_push : ∃ s : State (Fin 3),
    Run (eliminationStack 100) Free (initial fun _ => none) lostHistory s ∧
      (pushed lostHistory).Nodup ∧ ¬ Linearizable (lifo Node) lostHistory := by
  obtain ⟨h, s, hr, ht⟩ := exists_run_of_exec (P := eliminationStack 100) (C := Free)
    (s := (initial (fun _ => none) : State (Fin 3)))
    [.call 0 (.push ⟨64, rfl, by decide⟩), .call 1 (.push ⟨128, rfl, by decide⟩),
      .call 2 (.push ⟨192, rfl, by decide⟩),
      -- all three read the empty head; the third wins and the other two visit a slot
      .exec 0 0 false, .exec 0 0 false, .exec 1 0 false, .exec 1 0 false,
      .exec 2 0 false, .exec 2 0 false, .exec 2 0 false, .ret 2,
      .exec 0 0 false, .exec 1 0 false,
      -- the first waits, the second takes its node and leaves its own
      .exec 0 0 false, .exec 0 0 false, .exec 0 0 false, .exec 0 0 false, .exec 0 0 false,
      .exec 1 0 false, .exec 1 0 false, .exec 1 0 false, .exec 1 0 false, .exec 1 0 false,
      -- the first links what it got and returns
      .exec 0 0 false, .exec 0 0 false, .exec 0 0 false, .exec 0 0 false, .exec 0 0 false,
      .exec 0 0 false, .exec 0 0 false, .exec 0 0 false, .ret 0,
      -- the third pops all there is
      .call 2 .pop, .exec 2 0 false, .exec 2 0 false, .exec 2 0 false, .exec 2 0 false, .ret 2,
      .call 2 .pop, .exec 2 0 false, .exec 2 0 false, .exec 2 0 false, .exec 2 0 false, .ret 2,
      .call 2 .pop, .exec 2 0 false, .ret 2]
    (fun h _ => h == lostHistory) (by decide)
  rw [beq_iff_eq] at ht
  subst ht
  exact ⟨s, hr, by decide, lostHistory_not_linearizable⟩

end Multicore.Stacks.EliminationStack
