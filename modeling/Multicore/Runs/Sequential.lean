import Multicore.Runs.Linearizable
import Multicore.Runs.Progress
import Mathlib.Data.List.Induction

/-! Calls one after another. A program that one call at a time uses holds an object
between calls; a call that has begun has only its own steps before it, and each of them
brings it closer to its return. Then every history in which no call begins before the one
before it has returned has the results of the object, and every call of such a history
returns. -/

namespace Multicore.Runs

/-- A call that has returned. -/
structure Returned (T Op Res : Type*) where
  thread : T
  op : Op
  res : Res

variable {T Op Res S σ α : Type*}

/-- The history of calls one after another. -/
def history (L : List (Returned T Op Res)) : List (Event T Op Res) :=
  L.flatMap fun c => [.call c.thread c.op, .ret c.thread c.res]

section History
variable {L M : List (Returned T Op Res)} {c : Returned T Op Res}

@[simp] theorem history_nil : history ([] : List (Returned T Op Res)) = [] := rfl

@[simp] theorem history_cons :
    history (c :: L) = .call c.thread c.op :: .ret c.thread c.res :: history L := rfl

theorem history_append : history (L ++ M) = history L ++ history M := List.flatMap_append

theorem history_length (L : List (Returned T Op Res)) : (history L).length = 2 * L.length := by
  induction L with
  | nil => rfl
  | cons c L ih =>
    simp only [history_cons, List.length_cons, ih]
    omega

/-- Calls one after another can be told from their history. -/
theorem eq_of_history_append (h : history L = history (L ++ M)) : M = [] := by
  have hlen := congrArg List.length h
  rw [history_length, history_length, List.length_append] at hlen
  exact List.length_eq_zero_iff.mp (by omega)

end History

namespace Object

/-- The object after `ops`, from `x` on. -/
def after (O : Object S Op Res) (x : S) (ops : List Op) : S :=
  ops.foldl (fun x op => (O.apply x op).1) x

/-- The results of `ops`, from `x` on. -/
def results (O : Object S Op Res) : S → List Op → List Res
  | _, [] => []
  | x, op :: ops => (O.apply x op).2 :: O.results (O.apply x op).1 ops

/-- Each of the operations is one that `D` admits when its turn comes. -/
def Admits (O : Object S Op Res) (D : S → Op → Prop) (ops : List Op) : Prop :=
  ∀ k op m, ops = k ++ op :: m → D (O.after O.init k) op

variable {O : Object S Op Res} {D : S → Op → Prop} {x : S} {k m : List Op} {op : Op}

@[simp] theorem after_append (O : Object S Op Res) (x : S) (k : List Op) (op : Op) :
    O.after x (k ++ [op]) = (O.apply (O.after x k) op).1 := by
  rw [after, List.foldl_append]
  rfl

@[simp] theorem results_append (O : Object S Op Res) (x : S) (k : List Op) (op : Op) :
    O.results x (k ++ [op]) = O.results x k ++ [(O.apply (O.after x k) op).2] := by
  induction k generalizing x with
  | nil => rfl
  | cons a k ih =>
    rw [List.cons_append, results, ih]
    rfl

theorem Admits.of_append (h : O.Admits D (k ++ m)) : O.Admits D k :=
  fun k' op m' hk => h k' op (m' ++ m) (by rw [hk, List.append_assoc, List.cons_append])

theorem Admits.at (h : O.Admits D (k ++ op :: m)) : D (O.after O.init k) op := h k op m rfl

end Object

/-- How a program is used by one call at a time: `rest` relates it to the object between
calls, `busy` is what holds inside a call, and `left` bounds what the call has to do. -/
structure Sequential (P : Program σ α (Event T Op Res)) (O : Object S Op Res) (D : S → Op → Prop)
    (rest : S → σ → Prop) (busy : S → T → Op → σ → Prop) (left : σ → T → ℕ) : Prop where
  rest_step : ∀ {x s a u}, rest x s → P.step s a = some u →
    ∃ t op, P.shows s a = [.call t op] ∧ (D x op → busy x t op u)
  rest_call : ∀ {x s}, rest x s → ∀ t op, ∃ a u, P.step s a = some u ∧ P.shows s a = [.call t op]
  busy_step : ∀ {x t op s a u}, busy x t op s → P.step s a = some u →
    (P.shows s a = [] ∧ busy x t op u ∧ left u t < left s t) ∨
    (P.shows s a = [.ret t (O.apply x op).2] ∧ rest (O.apply x op).1 u) ∨
    ∃ v op', P.shows s a = [.call v op']
  busy_next : ∀ {x t op s}, busy x t op s →
    ∃ a u, P.step s a = some u ∧ ∀ v op', P.shows s a ≠ [.call v op']

/-- Nobody calls. -/
def Quiet (P : Program σ α (Event T Op Res)) : Guard σ α := fun s a => ∀ v op, P.shows s a ≠ [.call v op]

/-- Calls one after another have the results of the object, which `R` relates the states to,
inside a call as before or as after its operation; there is a run for all such calls; and
every call that has begun can take a step, and returns if steps are taken. -/
structure Serves (P : Program σ α (Event T Op Res)) (s₀ : σ) (O : Object S Op Res) (D : S → Op → Prop)
    (R : S → σ → Prop) : Prop where
  correct : ∀ {L : List (Returned T Op Res)} {u}, O.Admits D (L.map Returned.op) →
    Run P Free s₀ (history L) u →
    L.map Returned.res = O.results O.init (L.map Returned.op) ∧ R (O.after O.init (L.map Returned.op)) u
  inside : ∀ {L : List (Returned T Op Res)} {t op u}, O.Admits D (L.map Returned.op ++ [op]) →
    Run P Free s₀ (history L ++ [.call t op]) u →
    R (O.after O.init (L.map Returned.op)) u ∨ R (O.after O.init (L.map Returned.op ++ [op])) u
  exists_run : ∀ calls : List (T × Op), O.Admits D (calls.map Prod.snd) →
    ∃ (L : List (Returned T Op Res)) (u : σ), L.map (fun c => (c.thread, c.op)) = calls ∧
      Run P Free s₀ (history L) u
  returns : ∀ {L : List (Returned T Op Res)} {t op u}, O.Admits D (L.map Returned.op ++ [op]) →
    Run P Free s₀ (history L ++ [.call t op]) u →
    (∃ a v, Quiet P u a ∧ P.step u a = some v) ∧
    ∀ f act, Execution P (Quiet P) f act → f 0 = u → (∀ n, ∃ m a, n ≤ m ∧ act m = some a) →
      ∃ n r, Run P Free s₀ (history (L ++ [⟨t, op, r⟩])) (f n)

/-- A history of calls one after another so far: some have returned, and perhaps one has begun. -/
inductive SoFar (O : Object S Op Res) (rest : S → σ → Prop) (busy : S → T → Op → σ → Prop)
    (L : List (Returned T Op Res)) (h : List (Event T Op Res)) (u : σ) : Prop
  | rest (K M : List (Returned T Op Res)) : L = K ++ M → h = history K →
      K.map Returned.res = O.results O.init (K.map Returned.op) →
      rest (O.after O.init (K.map Returned.op)) u → SoFar O rest busy L h u
  | busy (K : List (Returned T Op Res)) (c : Returned T Op Res) (M : List (Returned T Op Res)) :
      L = K ++ c :: M → h = history K ++ [.call c.thread c.op] →
      K.map Returned.res = O.results O.init (K.map Returned.op) →
      busy (O.after O.init (K.map Returned.op)) c.thread c.op u → SoFar O rest busy L h u

namespace Sequential
variable {P : Program σ α (Event T Op Res)} {O : Object S Op Res} {D : S → Op → Prop}
  {rest : S → σ → Prop} {busy : S → T → Op → σ → Prop} {left : σ → T → ℕ} {s₀ u : σ} {t : T} {op : Op}
  {L : List (Returned T Op Res)} {h : List (Event T Op Res)} {x : S}

theorem soFar_step (hs : Sequential P O D rest busy left) (hL : O.Admits D (L.map Returned.op)) {s : σ}
    {a : α} (hi : SoFar O rest busy L h s) (ha : P.step s a = some u)
    (hh : h ++ P.shows s a <+: history L) : SoFar O rest busy L (h ++ P.shows s a) u := by
  cases hi with
  | rest K M hK hk hres hrest =>
    obtain ⟨t, op, he, hbusy⟩ := hs.rest_step hrest ha
    subst hK hk
    rw [he, history_append, List.prefix_append_right_inj] at hh
    cases M with
    | nil => exact absurd hh (by simp)
    | cons c M =>
      -- the call is the next one of `L`
      rw [history_cons, List.cons_prefix_cons] at hh
      obtain ⟨rfl, rfl⟩ := Event.call.inj hh.1
      rw [List.map_append, List.map_cons] at hL
      exact .busy K c M rfl (by rw [he]) hres (hbusy hL.at)
  | busy K c M hK hk hres hbusy =>
    subst hK hk
    rw [history_append, List.append_assoc, List.prefix_append_right_inj, history_cons,
      List.singleton_append, List.cons_prefix_cons] at hh
    rcases hs.busy_step hbusy ha with ⟨he, hb, -⟩ | ⟨he, hr⟩ | ⟨v, op', he⟩
    · exact .busy K c M rfl (by rw [he, List.append_nil]) hres hb
    · rw [he, List.cons_prefix_cons] at hh
      obtain ⟨-, hc⟩ := Event.ret.inj hh.2.1
      refine .rest (K ++ [c]) M (by simp) ?_ ?_ ?_
      · rw [he, history_append, history_cons, history_nil, List.append_assoc, List.singleton_append, hc]
      · simp only [List.map_append, List.map_cons, List.map_nil, Object.results_append, hres, hc]
      · simpa only [List.map_append, List.map_cons, List.map_nil, Object.after_append] using hr
    · rw [he, List.cons_prefix_cons] at hh
      cases hh.2.1

theorem soFar (hs : Sequential P O D rest busy left) (h0 : rest O.init s₀)
    (hL : O.Admits D (L.map Returned.op)) (hr : Run P Free s₀ h u) (hh : h <+: history L) :
    SoFar O rest busy L h u :=
  hr.invariant (I := fun h u => h <+: history L → SoFar O rest busy L h u)
    (fun _ => .rest [] L rfl rfl rfl h0)
    (fun _ _ _ _ hi _ ha hh => hs.soFar_step hL (hi ((List.prefix_append ..).trans hh)) ha hh) hh

theorem at_rest (hs : Sequential P O D rest busy left) (h0 : rest O.init s₀)
    (hL : O.Admits D (L.map Returned.op)) (hr : Run P Free s₀ (history L) u) :
    L.map Returned.res = O.results O.init (L.map Returned.op) ∧
      rest (O.after O.init (L.map Returned.op)) u := by
  cases hs.soFar h0 hL hr (List.prefix_refl _) with
  | rest K M hK hk hres hrest =>
    subst hK
    obtain rfl := eq_of_history_append hk.symm
    rw [List.append_nil]
    exact ⟨hres, hrest⟩
  | busy K c M hK hk hres hbusy =>
    -- an even number of events is not odd
    have hlen := congrArg List.length hk
    rw [history_length, List.length_append, history_length, List.length_singleton] at hlen
    omega

theorem at_busy (hs : Sequential P O D rest busy left) (h0 : rest O.init s₀)
    (hL : O.Admits D (L.map Returned.op ++ [op])) (hr : Run P Free s₀ (history L ++ [.call t op]) u) :
    L.map Returned.res = O.results O.init (L.map Returned.op) ∧
      busy (O.after O.init (L.map Returned.op)) t op u := by
  -- as if the call had already returned something
  let c : Returned T Op Res := ⟨t, op, (O.apply O.init op).2⟩
  have hpre : history L ++ [Event.call t op] <+: history (L ++ [c]) := by
    rw [history_append, List.prefix_append_right_inj]
    exact ⟨[.ret t c.res], rfl⟩
  have hL' : O.Admits D ((L ++ [c]).map Returned.op) := by
    rw [List.map_append]
    exact hL
  cases hs.soFar h0 hL' hr hpre with
  | rest K M hK hk hres hrest =>
    have hlen := congrArg List.length hk
    rw [history_length, List.length_append, history_length, List.length_singleton] at hlen
    omega
  | busy K c M hK hk hres hbusy =>
    have hlen := congrArg List.length hk
    rw [List.length_append, List.length_append, history_length, history_length, List.length_singleton,
      List.length_singleton] at hlen
    obtain ⟨rfl, hc⟩ := List.append_inj hK (by omega)
    obtain ⟨rfl, -⟩ := List.cons.inj hc
    exact ⟨hres, hbusy⟩

/-- A call that has begun can be run to its return. -/
theorem exists_return (hs : Sequential P O D rest busy left) (hb : busy x t op u) :
    ∃ v, Run P Free u [.ret t (O.apply x op).2] v ∧ rest (O.apply x op).1 v := by
  induction hd : left u t using Nat.strong_induction_on generalizing u with
  | _ d ih =>
    obtain ⟨a, v, ha, hq⟩ := hs.busy_next hb
    have hone : Run P Free u (P.shows u a) v := Run.single trivial ha
    rcases hs.busy_step hb ha with ⟨he, hb', hlt⟩ | ⟨he, hr⟩ | ⟨w, op', he⟩
    · obtain ⟨w, hw, hr⟩ := ih _ (hd ▸ hlt) hb' rfl
      rw [he] at hone
      exact ⟨w, hone.trans hw, hr⟩
    · exact ⟨v, he ▸ hone, hr⟩
    · exact absurd he (hq w op')

theorem exists_run (hs : Sequential P O D rest busy left) (h0 : rest O.init s₀) (calls : List (T × Op))
    (hD : O.Admits D (calls.map Prod.snd)) : ∃ (L : List (Returned T Op Res)) (u : σ),
      L.map (fun c => (c.thread, c.op)) = calls ∧ Run P Free s₀ (history L) u := by
  induction calls using List.reverseRecOn with
  | nil => exact ⟨[], s₀, rfl, .refl⟩
  | append_singleton calls c ih =>
    rw [List.map_append] at hD
    obtain ⟨L, u, rfl, hr⟩ := ih hD.of_append
    have hops : (L.map fun c => (c.thread, c.op)).map Prod.snd = L.map Returned.op := by
      rw [List.map_map]
      rfl
    rw [hops] at hD
    obtain ⟨-, hrest⟩ := hs.at_rest h0 hD.of_append hr
    obtain ⟨a, v, ha, he⟩ := hs.rest_call hrest c.1 c.2
    obtain ⟨t, op, he', hbusy⟩ := hs.rest_step hrest ha
    obtain ⟨rfl, rfl⟩ := Event.call.inj (List.cons.inj (he.symm.trans he')).1
    obtain ⟨w, hw, -⟩ := hs.exists_return (hbusy hD.at)
    have hone : Run P Free u [.call c.1 c.2] v := he ▸ Run.single trivial ha
    refine ⟨L ++ [⟨c.1, c.2, (O.apply (O.after O.init (L.map Returned.op)) c.2).2⟩], w, by simp, ?_⟩
    rw [history_append]
    exact hr.trans (hone.trans hw)

/-- A call that has begun returns. -/
theorem returns (hs : Sequential P O D rest busy left) (h0 : rest O.init s₀)
    (hL : O.Admits D (L.map Returned.op ++ [op])) (hr : Run P Free s₀ (history L ++ [.call t op]) u)
    {f : ℕ → σ} {act : ℕ → Option α} (he : Execution P (Quiet P) f act) (hu : f 0 = u)
    (hact : ∀ n, ∃ m a, n ≤ m ∧ act m = some a) :
    ∃ n r, Run P Free s₀ (history (L ++ [⟨t, op, r⟩])) (f n) := by
  -- a step brings the call closer to its return, or is its return
  have hstep : ∀ y a z, (Run P Free s₀ (history L ++ [.call t op]) y ∧
      busy (O.after O.init (L.map Returned.op)) t op y) → Quiet P y a → P.step y a = some z →
      ((Run P Free s₀ (history L ++ [.call t op]) z ∧
        busy (O.after O.init (L.map Returned.op)) t op z) ∧ left z t < left y t) ∨
      ∃ r, Run P Free s₀ (history (L ++ [⟨t, op, r⟩])) z := by
    rintro y a z ⟨hy, hb⟩ hq ha
    have hz := hy.tail (a := a) trivial ha
    rcases hs.busy_step hb ha with ⟨he, hb', hlt⟩ | ⟨he, -⟩ | ⟨v, op', he⟩
    · rw [he, List.append_nil] at hz
      exact .inl ⟨⟨hz, hb'⟩, hlt⟩
    · rw [he, List.append_assoc] at hz
      exact .inr ⟨_, by rw [history_append]; exact hz⟩
    · exact absurd he (hq v op')
  refine he.leads (J := fun y => Run P Free s₀ (history L ++ [.call t op]) y ∧
      busy (O.after O.init (L.map Returned.op)) t op y)
    (Q := fun z => ∃ r, Run P Free s₀ (history (L ++ [⟨t, op, r⟩])) z) (fun _ => True) (fun y => left y t)
    ?_ ?_ ?_ (fun _ _ _ _ _ _ hm => absurd trivial hm) ?_
  · rw [hu]
    exact ⟨hr, (hs.at_busy h0 hL hr).2⟩
  · exact fun y a z hy hq ha => (hstep y a z hy hq ha).imp_left And.left
  · exact fun y a z hy hq ha _ => (hstep y a z hy hq ha).imp_left And.right
  · intro n _
    obtain ⟨m, a, hm, ha⟩ := hact n
    exact ⟨m, a, hm, ha, trivial⟩

/-- A program that one call at a time uses serves as the object. -/
theorem serves (hs : Sequential P O D rest busy left) (h0 : rest O.init s₀) {R : S → σ → Prop}
    (hrest : ∀ {x s}, rest x s → R x s)
    (hbusy : ∀ {x t op s}, busy x t op s → R x s ∨ R (O.apply x op).1 s) : Serves P s₀ O D R where
  correct hL hr := (hs.at_rest h0 hL hr).imp_right hrest
  inside hL hr := by
    rw [Object.after_append]
    exact hbusy (hs.at_busy h0 hL hr).2
  exists_run := hs.exists_run h0
  returns hL hr := by
    refine ⟨?_, fun f act he hu hact => hs.returns h0 hL hr he hu hact⟩
    obtain ⟨a, v, ha, hq⟩ := hs.busy_next (hs.at_busy h0 hL hr).2
    exact ⟨a, v, hq, ha⟩

end Sequential

/-- A program in which every action is one of a thread: what `holds` of the states in which
nobody is in a call, and what is so as long as one thread is in a call alone. -/
structure Solo (P : Program σ α (Event T Op Res)) (O : Object S Op Res) (D : S → Op → Prop)
    (idle : σ → T → Prop) (holds : S → σ → Prop) (work : S → T → Op → σ → Prop) (left : σ → T → ℕ) :
    Prop where
  call : ∀ {s t}, idle s t → ∀ op, ∃ a u, P.step s a = some u ∧ P.shows s a = [.call t op]
  step : ∀ {s a u}, P.step s a = some u → ∃ t, (∀ v, v ≠ t → idle s v → idle u v) ∧
    ((∃ op, P.shows s a = [.call t op] ∧ ∀ x, holds x s → D x op → work x t op u) ∨
    (¬ idle s t ∧ P.shows s a = [] ∧ ∀ x op, work x t op s → work x t op u ∧ left u t < left s t) ∨
    ∃ r, ¬ idle s t ∧ idle u t ∧ P.shows s a = [.ret t r] ∧
      ∀ x op, work x t op s → r = (O.apply x op).2 ∧ holds (O.apply x op).1 u)
  next : ∀ {x t op s}, work x t op s → ∃ a u, P.step s a = some u ∧ ∀ v op', P.shows s a ≠ [.call v op']

/-- What the threads do alone is what the program does for one call at a time. -/
theorem Solo.sequential {P : Program σ α (Event T Op Res)} {O : Object S Op Res} {D : S → Op → Prop}
    {idle : σ → T → Prop} {holds : S → σ → Prop} {work : S → T → Op → σ → Prop} {left : σ → T → ℕ}
    (hs : Solo P O D idle holds work left) : Sequential P O D (fun x s => (∀ t, idle s t) ∧ holds x s)
      (fun x t op s => (∀ v, v ≠ t → idle s v) ∧ work x t op s) left where
  rest_step := by
    rintro x s a u ⟨hidle, hx⟩ ha
    obtain ⟨t, hother, ⟨op, he, hwork⟩ | ⟨ht, -⟩ | ⟨r, ht, -⟩⟩ := hs.step ha
    · exact ⟨t, op, he, fun hD => ⟨fun v hv => hother v hv (hidle v), hwork x hx hD⟩⟩
    · exact absurd (hidle t) ht
    · exact absurd (hidle t) ht
  rest_call h t op := hs.call (h.1 t) op
  busy_step := by
    rintro x t op s a u ⟨hidle, hw⟩ ha
    obtain ⟨v, hother, hcase⟩ := hs.step ha
    by_cases hv : v = t
    · subst hv
      rcases hcase with ⟨op', he, -⟩ | ⟨-, he, hwork⟩ | ⟨r, -, hu, he, hret⟩
      · exact .inr (.inr ⟨v, op', he⟩)
      · obtain ⟨hw', hlt⟩ := hwork x op hw
        exact .inl ⟨he, ⟨fun w hw => hother w hw (hidle w hw), hw'⟩, hlt⟩
      · obtain ⟨rfl, hx⟩ := hret x op hw
        refine .inr (.inl ⟨he, fun w => ?_, hx⟩)
        by_cases hwv : w = v
        · exact hwv ▸ hu
        · exact hother w hwv (hidle w hwv)
    · -- the others can only call
      rcases hcase with ⟨op', he, -⟩ | ⟨ht, -⟩ | ⟨r, ht, -⟩
      · exact .inr (.inr ⟨v, op', he⟩)
      · exact absurd (hidle v hv) ht
      · exact absurd (hidle v hv) ht
  busy_next h := hs.next h.2

/-- Programs that serve as one object give the same results. -/
theorem Serves.results_eq {τ β : Type*} {P : Program σ α (Event T Op Res)} {s₀ : σ}
    {Q : Program τ β (Event T Op Res)} {q₀ : τ} {O : Object S Op Res} {D : S → Op → Prop}
    {R : S → σ → Prop} {R' : S → τ → Prop} (hP : Serves P s₀ O D R) (hQ : Serves Q q₀ O D R')
    {L K : List (Returned T Op Res)} (hLK : L.map Returned.op = K.map Returned.op)
    (hL : O.Admits D (L.map Returned.op)) {u : σ} (hu : Run P Free s₀ (history L) u) {v : τ}
    (hv : Run Q Free q₀ (history K) v) : L.map Returned.res = K.map Returned.res := by
  rw [(hP.correct hL hu).1, (hQ.correct (hLK ▸ hL) hv).1, hLK]

end Multicore.Runs
