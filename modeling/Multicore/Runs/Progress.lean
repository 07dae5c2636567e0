import Multicore.Runs.Program
import Mathlib.Order.Monotone.Basic
import Mathlib.Order.WellFounded

/-! Executions that go on. At each time an action is taken, or nothing happens, as after the
last action of an execution that ends. A measure that no action raises and one's own actions
lower leads to an end, if one takes an action again and again until then. Where one waits for
others, the measure is lowered by whoever is due. -/

namespace Multicore.Runs

variable {σ α ε : Type*}

/-- The state at each time, and the action that is taken then, if one is. -/
structure Execution (P : Program σ α ε) (C : Guard σ α) (f : ℕ → σ) (act : ℕ → Option α) : Prop where
  idle : ∀ n, act n = none → f (n + 1) = f n
  step : ∀ n a, act n = some a → C (f n) a ∧ P.step (f n) a = some (f (n + 1))

namespace Execution
variable {P : Program σ α ε} {C : Guard σ α} {f : ℕ → σ} {act : ℕ → Option α}

/-- What holds at the start and is kept until something else holds, or what comes then. -/
theorem until_of_step {J Q : σ → Prop} (he : Execution P C f act) (h0 : J (f 0))
    (hstep : ∀ x a y, J x → C x a → P.step x a = some y → J y ∨ Q y) (hQ : ∀ n, ¬ Q (f n)) (n : ℕ) :
    J (f n) := by
  induction n with
  | zero => exact h0
  | succ n ih =>
    cases ha : act n with
    | none => rwa [he.idle n ha]
    | some a =>
      obtain ⟨hc, hu⟩ := he.step n a ha
      exact (hstep _ _ _ ih hc hu).resolve_right (hQ (n + 1))

/-- The rule for progress. -/
theorem leads {β : Type*} [Preorder β] [WellFoundedLT β] {J Q : σ → Prop} (mine : α → Prop) (μ : σ → β)
    (he : Execution P C f act) (h0 : J (f 0))
    (hstep : ∀ x a y, J x → C x a → P.step x a = some y → J y ∨ Q y)
    (hown : ∀ x a y, J x → C x a → P.step x a = some y → mine a → μ y < μ x ∨ Q y)
    (hother : ∀ x a y, J x → C x a → P.step x a = some y → ¬ mine a → μ y = μ x ∨ Q y)
    (hfair : ∀ n, J (f n) → ∃ m a, n ≤ m ∧ act m = some a ∧ mine a) : ∃ n, Q (f n) := by
  by_contra hnot
  have hQ : ∀ n, ¬ Q (f n) := fun n hn => hnot ⟨n, hn⟩
  have hJ := he.until_of_step h0 hstep hQ
  have hle : Antitone fun n => μ (f n) := by
    refine antitone_nat_of_succ_le fun n => ?_
    cases ha : act n with
    | none => rw [he.idle n ha]
    | some a =>
      obtain ⟨hc, hu⟩ := he.step n a ha
      by_cases hm : mine a
      · exact ((hown _ _ _ (hJ n) hc hu hm).resolve_right (hQ _)).le
      · exact ((hother _ _ _ (hJ n) hc hu hm).resolve_right (hQ _)).le
  have hlt : ∀ n, ∃ m, μ (f m) < μ (f n) := by
    intro n
    obtain ⟨m, a, hm, ha, hmine⟩ := hfair n (hJ n)
    obtain ⟨hc, hu⟩ := he.step m a ha
    exact ⟨m + 1, ((hown _ _ _ (hJ m) hc hu hmine).resolve_right (hQ _)).trans_le (hle hm)⟩
  -- no descent goes on for ever
  obtain ⟨_, ⟨n, rfl⟩, hmin⟩ := wellFounded_lt.has_min (Set.range fun n => μ (f n)) ⟨_, 0, rfl⟩
  obtain ⟨m, hm⟩ := hlt n
  exact hmin _ ⟨m, rfl⟩ hm

theorem shift (he : Execution P C f act) (k : ℕ) :
    Execution P C (fun n => f (k + n)) (fun n => act (k + n)) :=
  ⟨fun n hn => he.idle (k + n) hn, fun n a ha => he.step (k + n) a ha⟩

/-- What holds at the start and is kept by every guarded action holds throughout. -/
theorem always {I : σ → Prop} (he : Execution P C f act) (h0 : I (f 0))
    (hstep : ∀ x a y, I x → C x a → P.step x a = some y → I y) (n : ℕ) : I (f n) :=
  he.until_of_step (Q := fun _ => False) h0 (fun x a y hx hc ha => .inl (hstep x a y hx hc ha))
    (fun _ => id) n

/-- The events up to a time. -/
def history (P : Program σ α ε) (f : ℕ → σ) (act : ℕ → Option α) : ℕ → List ε
  | 0 => []
  | n + 1 => history P f act n ++ (act n).elim [] (P.shows (f n))

theorem run_history (he : Execution P C f act) (n : ℕ) : Run P C (f 0) (history P f act n) (f n) := by
  induction n with
  | zero => exact .refl
  | succ n ih =>
    cases ha : act n with
    | none =>
      rw [history, ha, he.idle n ha]
      simpa using ih
    | some a =>
      obtain ⟨hc, hu⟩ := he.step n a ha
      rw [history, ha]
      exact ih.tail hc hu

/-- Every state is reached by a run. -/
theorem reached (he : Execution P C f act) (n : ℕ) : ∃ h, Run P C (f 0) h (f n) := ⟨_, he.run_history n⟩

/-- If the events of a kind have a bound, there is a time from which none is seen. -/
theorem exists_quiet (b : ε → Bool) {max : ℕ} (hmax : ∀ n, (history P f act n).countP b ≤ max) :
    ∃ n, (∀ m, n ≤ m → (history P f act m).countP b = (history P f act n).countP b) ∧
      ∀ m a, n ≤ m → act m = some a → (P.shows (f m) a).countP b = 0 := by
  have hmono : Monotone fun n => (history P f act n).countP b := by
    refine monotone_nat_of_le_succ fun n => ?_
    simp only [history, List.countP_append]
    omega
  obtain ⟨_, ⟨n, rfl⟩, hmin⟩ :=
    wellFounded_lt.has_min (Set.range fun n => max - (history P f act n).countP b) ⟨_, 0, rfl⟩
  have hsame : ∀ m, n ≤ m → (history P f act m).countP b = (history P f act n).countP b := by
    intro m hm
    have hle := hmono hm
    have hm' := hmax m
    have hnot := hmin _ ⟨m, rfl⟩
    simp only at hle hnot
    omega
  refine ⟨n, hsame, fun m a hm ha => ?_⟩
  have hnext := hsame (m + 1) (hm.trans (Nat.le_succ m))
  rw [history, List.countP_append, hsame m hm, ha] at hnext
  simpa using hnext

/-- A guard that the actions of an execution meet. -/
theorem restrict {D : Guard σ α} (he : Execution P C f act) (hd : ∀ n a, act n = some a → D (f n) a) :
    Execution P D f act :=
  ⟨he.idle, fun n a ha => ⟨hd n a ha, (he.step n a ha).2⟩⟩

/-- The rule for progress that waits for others. Somebody is due in every state. An action
lowers the measure, or leaves the measure and those who are due as they are and is none of
theirs; who stays due takes an action at some time. -/
theorem leads_due {β ι : Type*} [Preorder β] [WellFoundedLT β] {J Q : σ → Prop}
    (Due : σ → ι → Prop) (takes : ι → α → Prop) (μ : σ → β) (he : Execution P C f act) (h0 : J (f 0))
    (hdue : ∀ x, J x → ∃ i, Due x i)
    (hstep : ∀ x a y, J x → C x a → P.step x a = some y →
      Q y ∨ J y ∧ (μ y < μ x ∨ μ y = μ x ∧ ∀ i, Due x i → ¬ takes i a ∧ Due y i))
    (hfair : ∀ n i, (∀ m, n ≤ m → Due (f m) i) → ∃ m a, n ≤ m ∧ act m = some a ∧ takes i a) :
    ∃ n, Q (f n) := by
  by_contra hnot
  have hQ : ∀ n, ¬ Q (f n) := fun n hn => hnot ⟨n, hn⟩
  have hJ := he.until_of_step h0 (fun x a y hx hc ha => (hstep x a y hx hc ha).symm.imp_left And.left) hQ
  -- the measure is nowhere below its value at `n`
  obtain ⟨_, ⟨n, rfl⟩, hmin⟩ := wellFounded_lt.has_min (Set.range fun n => μ (f n)) ⟨_, 0, rfl⟩
  have hturn : ∀ m a, μ (f m) = μ (f n) → act m = some a →
      μ (f (m + 1)) = μ (f m) ∧ ∀ i, Due (f m) i → ¬ takes i a ∧ Due (f (m + 1)) i := by
    intro m a hm ha
    obtain ⟨hc, hu⟩ := he.step m a ha
    have hnext := ((hstep _ _ _ (hJ m) hc hu).resolve_left (hQ _)).2
    exact hnext.resolve_left fun hlt => hmin _ ⟨m + 1, rfl⟩ (hlt.trans_eq hm)
  obtain ⟨i, hi⟩ := hdue _ (hJ n)
  have hstay : ∀ m, n ≤ m → μ (f m) = μ (f n) ∧ Due (f m) i := by
    intro m hm
    induction m, hm using Nat.le_induction with
    | base => exact ⟨rfl, hi⟩
    | succ m _ ih =>
      cases ha : act m with
      | none => rwa [he.idle m ha]
      | some a =>
        obtain ⟨heq, hkeep⟩ := hturn m a ih.1 ha
        exact ⟨heq.trans ih.1, (hkeep i ih.2).2⟩
  obtain ⟨m, a, hm, ha, htakes⟩ := hfair n i fun m hm => (hstay m hm).2
  exact ((hturn m a (hstay m hm).1 ha).2 i (hstay m hm).2).1 htakes

/-- If no action raises a measure and those of a kind lower it, there is a time from which none of
the kind is taken. -/
theorem exists_without {β : Type*} [Preorder β] [WellFoundedLT β] (act : ℕ → Option α) (kind : ℕ → α → Prop)
    (μ : ℕ → β) (k : ℕ)
    (hle : ∀ n, k ≤ n → μ (n + 1) ≤ μ n)
    (hlt : ∀ n a, k ≤ n → act n = some a → kind n a → μ (n + 1) < μ n) :
    ∃ n, k ≤ n ∧ ∀ m a, n ≤ m → act m = some a → ¬ kind m a := by
  obtain ⟨_, ⟨n, hn, rfl⟩, hmin⟩ := wellFounded_lt.has_min (μ '' {n | k ≤ n}) ⟨_, k, le_refl k, rfl⟩
  have hanti : ∀ m, n ≤ m → μ m ≤ μ n := by
    intro m hm
    induction m, hm using Nat.le_induction with
    | base => exact le_rfl
    | succ m hm ih => exact (hle m (hn.trans hm)).trans ih
  refine ⟨n, hn, fun m a hm ha hkind => ?_⟩
  have hkm : k ≤ m := hn.trans hm
  exact hmin _ ⟨m + 1, hkm.trans m.le_succ, rfl⟩ ((hlt m a hkm ha hkind).trans_le (hanti m hm))

/-- What can follow every action follows an execution all along. -/
theorem exists_follows {τ : Type*} {J : σ → τ → Prop} {S : σ × τ → α → σ × τ → Prop} {x : τ}
    (he : Execution P C f act) (h0 : J (f 0) x)
    (hstep : ∀ s a u x, J s x → C s a → P.step s a = some u → ∃ y, J u y ∧ S (s, x) a (u, y)) :
    ∃ g : ℕ → τ, ∀ n, J (f n) (g n) ∧ (act n = none → g (n + 1) = g n) ∧
      ∀ a, act n = some a → S (f n, g n) a (f (n + 1), g (n + 1)) := by
  have hnext : ∀ n x, J (f n) x → ∃ y, J (f (n + 1)) y ∧ (act n = none → y = x) ∧
      ∀ a, act n = some a → S (f n, x) a (f (n + 1), y) := by
    intro n x hx
    cases ha : act n with
    | none => exact ⟨x, by rwa [he.idle n ha], fun _ => rfl, nofun⟩
    | some a =>
      obtain ⟨hc, hu⟩ := he.step n a ha
      obtain ⟨y, hy, hS⟩ := hstep _ _ _ x hx hc hu
      refine ⟨y, hy, nofun, fun b hb => ?_⟩
      cases hb
      exact hS
  choose next hJ hidle hS using hnext
  let g : ∀ n, { x // J (f n) x } := fun n =>
    Nat.rec ⟨x, h0⟩ (fun n x => ⟨next n x.1 x.2, hJ n x.1 x.2⟩) n
  exact ⟨fun n => (g n).1, fun n => ⟨(g n).2, hidle n _ (g n).2, hS n _ (g n).2⟩⟩

end Execution

/-- A run is the beginning of an execution in which nothing happens afterwards. -/
theorem Run.execution {P : Program σ α ε} {C : Guard σ α} {s u : σ} {h : List ε} (hr : Run P C s h u) :
    ∃ f act n, Execution P C f act ∧ f 0 = s ∧ ∀ m, n ≤ m → f m = u ∧ act m = none := by
  induction hr with
  | refl => exact ⟨fun _ => s, fun _ => none, 0, ⟨fun _ _ => rfl, nofun⟩, rfl, fun _ _ => ⟨rfl, rfl⟩⟩
  | @tail h v w a _ hc ha ih =>
    obtain ⟨f, act, n, he, h0, hlast⟩ := ih
    have hf : ∀ m, m ≤ n → (if m ≤ n then f m else w) = f m := fun m hm => if_pos hm
    have hw : ∀ m, n < m → (if m ≤ n then f m else w) = w := fun m hm => if_neg hm.not_ge
    refine ⟨fun m => if m ≤ n then f m else w, fun m => if m = n then some a else act m, n + 1,
      ⟨fun m hm => ?_, fun m b hb => ?_⟩, (hf 0 n.zero_le).trans h0, fun m hm => ⟨hw m hm, ?_⟩⟩
    · split at hm
      · cases hm
      · rename_i hne
        rcases Nat.lt_or_gt_of_ne hne with hlt | hgt
        · rw [hf m hlt.le, hf (m + 1) hlt, he.idle m hm]
        · rw [hw m hgt, hw (m + 1) (hgt.trans m.lt_succ_self)]
    · split at hb
      · rename_i heq
        cases hb
        rw [heq, hf n le_rfl, hw (n + 1) n.lt_succ_self, (hlast n le_rfl).1]
        exact ⟨hc, ha⟩
      · rename_i hne
        rcases Nat.lt_or_gt_of_ne hne with hlt | hgt
        · rw [hf m hlt.le, hf (m + 1) hlt]
          exact he.step m b hb
        · rw [(hlast m hgt.le).2] at hb
          cases hb
    · show (if m = n then some a else act m) = none
      rw [if_neg (Nat.lt_of_succ_le hm).ne', (hlast m (Nat.le_of_succ_le hm)).2]

/-! ### Fair executions -/

/-- An action that stays enabled is taken. -/
def Fair (P : Program σ α ε) (f : ℕ → σ) (act : ℕ → Option α) : Prop :=
  ∀ n a, (∀ m, n ≤ m → P.step (f m) a ≠ none) → ∃ m, n ≤ m ∧ act m = some a

/-- A thread that has an enabled action all the time takes an action. -/
def FairTo {ι : Type*} (thread : α → ι) (P : Program σ α ε) (C : Guard σ α) (f : ℕ → σ) (act : ℕ → Option α) :
    Prop :=
  ∀ n i, (∀ m, n ≤ m → ∃ a, thread a = i ∧ C (f m) a ∧ P.step (f m) a ≠ none) →
    ∃ m a, n ≤ m ∧ act m = some a ∧ thread a = i

/-- Where nothing happens any more nothing is enabled. -/
theorem FairTo.stuck {ι : Type*} {thread : α → ι} {P : Program σ α ε} {C : Guard σ α} {f : ℕ → σ}
    {act : ℕ → Option α} (hfair : FairTo thread P C f act) (he : Execution P C f act) {n : ℕ}
    (hn : ∀ m, n ≤ m → act m = none) {a : α} (hc : C (f n) a) : P.step (f n) a = none := by
  by_contra ha
  have hsame : ∀ m, n ≤ m → f m = f n := by
    intro m hm
    induction m, hm using Nat.le_induction with
    | base => rfl
    | succ m hm ih => rw [he.idle m (hn m hm), ih]
  obtain ⟨m, b, hm, hb, -⟩ := hfair n (thread a) fun m hm => ⟨a, rfl, by rw [hsame m hm]; exact ⟨hc, ha⟩⟩
  rw [hn m hm] at hb
  cases hb

/-- Take turns; who cannot act passes. -/
def Program.inTurn (P : Program σ α ε) (turn : ℕ → α) (s : σ) : ℕ → σ
  | 0 => s
  | n + 1 => (P.step (P.inTurn turn s n) (turn n)).getD (P.inTurn turn s n)

/-- From every state there is a fair execution. -/
theorem exists_fair (P : Program σ α ε) (s : σ) {turn : ℕ → α} (hturn : ∀ n a, ∃ m, n ≤ m ∧ turn m = a) :
    ∃ f act, Execution P Free f act ∧ f 0 = s ∧ Fair P f act := by
  let f := P.inTurn turn s
  let act : ℕ → Option α := fun n => (P.step (f n) (turn n)).map fun _ => turn n
  refine ⟨f, act, ⟨fun n hn => ?_, fun n a ha => ?_⟩, rfl, fun n a ha => ?_⟩
  · have hstep : P.step (f n) (turn n) = none := Option.map_eq_none_iff.mp hn
    show (P.step (f n) (turn n)).getD (f n) = f n
    rw [hstep]
    rfl
  · obtain ⟨u, hu, rfl⟩ := Option.map_eq_some_iff.mp ha
    refine ⟨trivial, ?_⟩
    show P.step (f n) (turn n) = some ((P.step (f n) (turn n)).getD (f n))
    rw [hu]
    rfl
  · obtain ⟨m, hm, rfl⟩ := hturn n a
    obtain ⟨u, hu⟩ := Option.ne_none_iff_exists'.mp (ha m hm)
    exact ⟨m, hm, by simp only [act, hu, Option.map_some]⟩

/-- The threads of a finite program one after the other. -/
theorem exists_turn {k n : ℕ} (hk : 0 < k) (t : Fin k) :
    ∃ m, n ≤ m ∧ (⟨m % k, Nat.mod_lt m hk⟩ : Fin k) = t := by
  refine ⟨k * n + t, ?_, Fin.ext ?_⟩
  · exact (Nat.le_mul_of_pos_left n hk).trans (Nat.le_add_right ..)
  · show (k * n + t) % k = t
    rw [Nat.mul_add_mod, Nat.mod_eq_of_lt t.isLt]

/-! ### Executions that end -/

/-- The states along a list of actions, and the last one ever after. -/
def Program.states (P : Program σ α ε) : σ → List α → ℕ → σ
  | s, [], _ => s
  | s, _ :: _, 0 => s
  | s, a :: as, n + 1 => ((P.step s a).map fun u => P.states u as n).getD s

section States
variable {P : Program σ α ε} {C : Guard σ α} [∀ s a, Decidable (C s a)] {s : σ}

@[simp] theorem states_zero (s : σ) (as : List α) : P.states s as 0 = s := by
  cases as <;> rfl

/-- Where every action lowers a measure, no more actions than that can be executed. -/
theorem length_le_of_exec {I : σ → Prop} {μ : σ → ℕ} {as : List α} {r : List ε × σ} (hs : I s)
    (hstep : ∀ x a y, I x → C x a → P.step x a = some y → I y ∧ μ y < μ x)
    (he : P.exec C s as = some r) : as.length + μ r.2 ≤ μ s := by
  induction as generalizing s r with
  | nil =>
    simp only [Program.exec, Option.some.injEq] at he
    subst he
    simp
  | cons a as ih =>
    simp only [Program.exec, Option.ite_none_right_eq_some, Option.bind_eq_some_iff,
      Option.map_eq_some_iff] at he
    obtain ⟨hc, u, hu, p, hp, rfl⟩ := he
    obtain ⟨hI, hlt⟩ := hstep s a u hs hc hu
    have hle := ih hI hp
    simp only [List.length_cons]
    omega

/-- A list of actions that can be executed is an execution. -/
theorem execution_of_exec {as : List α} {r : List ε × σ} (he : P.exec C s as = some r) :
    Execution P C (P.states s as) (fun n => as[n]?) ∧ ∀ n, as.length ≤ n → P.states s as n = r.2 := by
  induction as generalizing s r with
  | nil =>
    simp only [Program.exec, Option.some.injEq] at he
    subst he
    exact ⟨⟨fun _ _ => rfl, fun n a ha => by cases ha⟩, fun _ _ => rfl⟩
  | cons a as ih =>
    simp only [Program.exec, Option.ite_none_right_eq_some, Option.bind_eq_some_iff,
      Option.map_eq_some_iff] at he
    obtain ⟨hc, u, hu, p, hp, rfl⟩ := he
    obtain ⟨hrest, hlast⟩ := ih hp
    have hsucc : ∀ n, P.states s (a :: as) (n + 1) = P.states u as n := fun n => by
      simp only [Program.states, hu, Option.map_some, Option.getD_some]
    refine ⟨⟨fun n hn => ?_, fun n b hb => ?_⟩, fun n hn => ?_⟩
    · cases n with
      | zero => cases hn
      | succ n => rw [hsucc, hsucc, hrest.idle n hn]
    · cases n with
      | zero =>
        cases hb
        rw [hsucc, states_zero, states_zero]
        exact ⟨hc, hu⟩
      | succ n =>
        rw [hsucc, hsucc]
        exact hrest.step n b hb
    · cases n with
      | zero => cases hn
      | succ n =>
        rw [hsucc]
        exact hlast n (Nat.le_of_succ_le_succ hn)

end States

end Multicore.Runs
