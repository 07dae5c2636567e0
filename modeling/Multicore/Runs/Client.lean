import Multicore.Runs.Program

/-! A client and the object that it uses. The client has steps of its own, and it takes part in
every event that the object shows: it makes the calls and takes the results. What it does is the
same over an object and over another one that the first refines, so whatever is proved over the
second holds over the first. -/

namespace Multicore.Runs

variable {κ β σ α σ' α' ε δ : Type*}

/-- The steps of a client, what they show, and the part that it takes in an event of the object;
nothing where the event is not its own doing or cannot come now. -/
structure Client (κ β ε δ : Type*) where
  step : κ → β → Option κ
  shows : κ → β → List δ
  takes : κ → ε → Option κ

namespace Client

def takeAll (K : Client κ β ε δ) : κ → List ε → Option κ
  | k, [] => some k
  | k, e :: h => (K.takes k e).bind fun k => K.takeAll k h

/-- The client together with its object. The events of the object stay between the two. -/
def driving (K : Client κ β ε δ) (P : Program σ α ε) : Program (κ × σ) (β ⊕ α) δ where
  step
    | (k, s), .inl b => (K.step k b).map (·, s)
    | (k, s), .inr a => (P.step s a).bind fun u => (K.takeAll k (P.shows s a)).map (·, u)
  shows
    | (k, _), .inl b => K.shows k b
    | _, .inr _ => []

/-- What an action shows between the client and the object. -/
def between (P : Program σ α ε) : κ × σ → β ⊕ α → List ε
  | _, .inl _ => []
  | (_, s), .inr a => P.shows s a

/-- A guard of the client and one of the object. -/
def both (E : Guard κ β) (C : Guard σ α) : Guard (κ × σ) (β ⊕ α)
  | (k, _), .inl b => E k b
  | (_, s), .inr a => C s a

variable {K : Client κ β ε δ} {P : Program σ α ε} {Q : Program σ' α' ε} {E : Guard κ β} {C : Guard σ α}
  {D : Guard σ' α'} {k l : κ} {s u : σ} {h g : List ε}

theorem takeAll_append : K.takeAll k (h ++ g) = (K.takeAll k h).bind fun l => K.takeAll l g := by
  induction h generalizing k with
  | nil => rfl
  | cons e h ih =>
    simp only [List.cons_append, takeAll, ih, Option.bind_assoc]

theorem takeAll_singleton (k : κ) (e : ε) : K.takeAll k [e] = K.takes k e := by
  simp [takeAll]

/-- A run of the object in which the client takes its part. -/
theorem run_object (hr : Run P C s h u) (hk : K.takeAll k h = some l) :
    Run (K.driving P) (both E C) (k, s) [] (l, u) := by
  induction hr generalizing l with
  | refl =>
    cases hk
    exact .refl
  | @tail h v w a _ hc ha ih =>
    rw [takeAll_append, Option.bind_eq_some_iff] at hk
    obtain ⟨m, hm, hl⟩ := hk
    exact (ih hm).tail (a := Sum.inr a) hc
      (by simp only [driving, ha, Option.bind_some, hl, Option.map_some])

theorem run_step {b : β} (hc : E k b) (hb : K.step k b = some l) :
    Run (K.driving P) (both E C) (k, s) (K.shows k b) (l, s) :=
  Run.single (P := K.driving P) (C := both E C) (s := (k, s)) (a := Sum.inl b) hc
    (by simp only [driving, hb, Option.map_some])

/-- An action is one of the client, or one of the object in which the client takes its part. -/
theorem driving_cases {a : β ⊕ α} {z : κ × σ} (hu : (K.driving P).step (k, s) a = some z) :
    (∃ b, a = .inl b ∧ K.step k b = some z.1 ∧ z.2 = s) ∨
      ∃ b, a = .inr b ∧ P.step s b = some z.2 ∧ K.takeAll k (P.shows s b) = some z.1 := by
  cases a with
  | inl b =>
    obtain ⟨l, hl, rfl⟩ := Option.map_eq_some_iff.mp hu
    exact .inl ⟨b, rfl, hl, rfl⟩
  | inr b =>
    simp only [driving, Option.bind_eq_some_iff, Option.map_eq_some_iff] at hu
    obtain ⟨u, hu, l, hl, rfl⟩ := hu
    exact .inr ⟨b, rfl, hu, hl⟩

/-- An object that follows every action of another takes its place: the client has the same run. -/
theorem driving_simulate {s' : σ'} {q : List δ} {x : κ × σ} (R : σ → σ' → Prop) (h0 : R s s')
    (hstep : ∀ x a y x', R x x' → C x a → P.step x a = some y →
      ∃ y', Run Q D x' (P.shows x a) y' ∧ R y y')
    (hr : Run (K.driving P) (both E C) (k, s) q x) :
    ∃ u', Run (K.driving Q) (both E D) (k, s') q (x.1, u') ∧ R x.2 u' := by
  suffices hsim : ∃ y, Run (K.driving Q) (both E D) (k, s') q y ∧ y.1 = x.1 ∧ R x.2 y.2 by
    obtain ⟨⟨l, u'⟩, hu, rfl, hR⟩ := hsim
    exact ⟨u', hu, hR⟩
  refine hr.simulate (fun (x : κ × σ) (y : κ × σ') => y.1 = x.1 ∧ R x.2 y.2) ⟨rfl, h0⟩ ?_
  rintro ⟨m, v⟩ a ⟨m', w⟩ ⟨_, v'⟩ ⟨rfl, hR⟩ hc hu
  obtain ⟨b, rfl, hl, hw⟩ | ⟨b, rfl, hy, hl⟩ := driving_cases hu
  · cases hw
    exact ⟨_, run_step hc hl, rfl, hR⟩
  · obtain ⟨y', hy', hR'⟩ := hstep _ _ _ _ hR hc hy
    exact ⟨_, run_object hy' hl, rfl, hR'⟩

end Client

end Multicore.Runs
