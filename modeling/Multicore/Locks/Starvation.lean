import Multicore.Locks.ALock
import Multicore.Runs.Progress
import Multicore.Runs.Totals

/-! Nobody starves at the array lock. Who is due is the thread that passes, or else the holder
of the oldest ticket, whose flag is up; everybody else waits or draws a later ticket. Each step
of the one who is due brings all waiting threads nearer, so every caller gets in as long as no
thread stops between its call of `lock` and the end of `unlock`. -/

namespace Multicore.Locks.ALock

open Runs

variable {T : Type} [DecidableEq T]

/-- A ticket is drawn only while `tail` does not wrap. -/
def NoWrap : Guard (State T) T := fun s t => s.pc t = .idle → s.tail + 1 < 2 ^ 64

instance (s : State T) (t : T) : Decidable (NoWrap s t) :=
  inferInstanceAs (Decidable (s.pc t = .idle → s.tail + 1 < 2 ^ 64))

/-- The steps that a thread takes before it is out of the way of ticket `k`. -/
def Pc.ahead (k : ℕ) : Pc → ℕ
  | .spinning tmp _ => if tmp ≤ k then 5 else 0
  | .clearing _ _ => 4
  | .marking _ => 3
  | .inside => 2
  | .unlocking _ => 1
  | .idle => 0

/-- In `lock` with ticket `k`. -/
def Pc.InLock (k : ℕ) : Pc → Prop
  | .spinning tmp _ => tmp = k
  | .clearing _ _ | .marking _ => True
  | _ => False

/-- The one who passes, or while nobody does whose flag is up. -/
def Due (s : State T) (u : T) : Prop :=
  (s.pc u).Passing ∨
    (∀ v, ¬ (s.pc v).Passing) ∧ ∃ tmp slot, s.pc u = .spinning tmp slot ∧ s.flag slot = true

section Step
variable [Fintype T] {size D E k : ℕ} {s s' : State T} {t v : T}

omit [DecidableEq T] [Fintype T] in
theorem Due.ne_idle (hd : Due s v) : s.pc v ≠ .idle := by
  intro hv
  rcases hd with hd | ⟨-, tmp, slot, hd, -⟩
  · rw [hv] at hd
    exact hd
  · rw [hv] at hd
    cases hd

omit [DecidableEq T] in
/-- While somebody waits, somebody is due. -/
theorem Inv.exists_due (hi : Inv size D E s) (hpos : 0 < size) (hED : E < D) : ∃ u, Due s u := by
  by_cases hpass : ∃ u, (s.pc u).Passing
  · exact hpass.imp fun u hu => .inl hu
  · have hno := not_exists.mp hpass
    obtain ⟨u, slot, hu⟩ := hi.holder E le_rfl hED
    obtain ⟨rfl, -, -⟩ := hi.spin u E slot hu
    exact ⟨u, .inr ⟨hno, E, _, hu, (hi.quiet hno _ (Nat.mod_lt E hpos)).mpr rfl⟩⟩

/-- An action of the array lock: a draw, a look at a flag that is down, an entry in turn, or
a step of the one who passes. -/
theorem Inv.step (hi : Inv size D E s) (hsize : size < 2 ^ 32) (hpos : 0 < size)
    (hT : Fintype.card T ≤ size) (hc : NoWrap s v) (ha : step size s v = some s') :
    (s.pc v = .idle ∧ s'.pc = Function.update s.pc v (.spinning D (D % size)) ∧ s'.flag = s.flag ∧
        Inv size (D + 1) E s') ∨
      (s' = s ∧ ¬ Due s v) ∨
      (∃ slot, s.pc v = .spinning E slot ∧ (∀ u, ¬ (s.pc u).Passing) ∧
        s'.pc = Function.update s.pc v (.clearing E slot) ∧ Inv size D (E + 1) s') ∨
      ((s.pc v).Passing ∧ Inv size D E s' ∧ ∃ p, s'.pc = Function.update s.pc v p ∧
        (p = .inside ∨ ¬ (Pc.InLock k (s.pc v)) ∨ Pc.InLock k p) ∧
        Pc.ahead k p + 1 = Pc.ahead k (s.pc v)) := by
  cases hp : s.pc v with
  | idle =>
    have hD := hc hp
    rw [hi.tail] at hD
    have hnew := hi.draw hsize hpos hD hp
    simp only [ALock.step, hp, Option.some.injEq] at ha
    subst ha
    exact .inl ⟨rfl, by simp only [State.goto, hi.tail, slot_eq hsize hpos], rfl, hnew⟩
  | spinning tmp slot =>
    by_cases hf : s.flag slot = true
    · simp only [ALock.step, hp, hf, if_true, Option.some.injEq] at ha
      subst ha
      obtain ⟨rfl, hno⟩ := hi.turn hT hpos hp hf
      exact .inr (.inr (.inl ⟨slot, rfl, hno, rfl, hi.enter hp hno⟩))
    · simp only [ALock.step, hp, hf, if_false, Option.some.injEq, Bool.false_eq_true] at ha
      subst ha
      refine .inr (.inl ⟨rfl, ?_⟩)
      rintro (hd | ⟨-, tmp', slot', hd, hflag⟩)
      · rw [hp] at hd
        exact hd
      · rw [hp] at hd
        cases hd
        exact hf hflag
  | clearing tmp slot =>
    simp only [ALock.step, hp, Option.some.injEq] at ha
    subst ha
    refine .inr (.inr (.inr ⟨trivial, hi.move (by rw [hp]; trivial) trivial fun k hk => ?_, _, rfl,
      .inr (.inr trivial), rfl⟩))
    rw [hp] at hk
    exact hk.clear
  | marking slot =>
    simp only [ALock.step, hp, Option.some.injEq] at ha
    subst ha
    refine .inr (.inr (.inr ⟨trivial, hi.move (by rw [hp]; trivial) trivial fun k hk => ?_, _, rfl,
      .inl rfl, rfl⟩))
    rwa [hp] at hk
  | inside =>
    simp only [ALock.step, hp, Option.some.injEq] at ha
    subst ha
    refine .inr (.inr (.inr ⟨trivial, hi.move (by rw [hp]; trivial) trivial fun k hk => ?_, _, rfl,
      .inr (.inl id), rfl⟩))
    rwa [hp] at hk
  | unlocking cur =>
    simp only [ALock.step, hp, Option.some.injEq] at ha
    subst ha
    exact .inr (.inr (.inr ⟨trivial, hi.release hsize hpos hp, _, rfl, .inr (.inl id), rfl⟩))

omit [DecidableEq T] [Fintype T] in
/-- Who is due is another than the one who has no ticket yet, and stays due. -/
theorem Due.draw {p : Pc} (hd : Due s v) (hidle : s.pc t = .idle) (hp : ¬ p.Passing)
    (hpc : s'.pc t = p) (hother : ∀ u, u ≠ t → s'.pc u = s.pc u) (hf : s'.flag = s.flag) :
    v ≠ t ∧ Due s' v := by
  have hvt : v ≠ t := fun h => hd.ne_idle (h ▸ hidle)
  refine ⟨hvt, ?_⟩
  rcases hd with hd | ⟨hno, tmp, slot, hd, hflag⟩
  · exact .inl (by rwa [hother v hvt])
  · refine .inr ⟨fun u hu => ?_, tmp, slot, by rw [hother v hvt, hd], by rw [hf, hflag]⟩
    by_cases hut : u = t
    · subst hut
      exact hp (hpc ▸ hu)
    · exact hno u (hother u hut ▸ hu)

/-- What is ahead of ticket `k` gets less by a step of one thread that gets out of the way. -/
theorem ahead_lt {p : Pc} (hpc : s'.pc = Function.update s.pc v p)
    (hp : Pc.ahead k p + 1 = Pc.ahead k (s.pc v)) :
    ∑ u, Pc.ahead k (s'.pc u) < ∑ u, Pc.ahead k (s.pc u) := by
  have hless : Pc.ahead k (s'.pc v) < Pc.ahead k (s.pc v) := by
    rw [hpc, Function.update_self]
    omega
  refine Finset.sum_lt_sum (fun u _ => ?_) ⟨v, Finset.mem_univ v, hless⟩
  by_cases hu : u = v
  · rw [hu]
    exact hless.le
  · rw [hpc, Function.update_of_ne hu]

/-- One action while `t` is in `lock` with ticket `k`. -/
theorem Inv.wait (hi : Inv size D E s) (hsize : size < 2 ^ 32) (hpos : 0 < size)
    (hT : Fintype.card T ≤ size) (hk : E ≤ k + 1) (hkD : k < D) (ht : (s.pc t).InLock k)
    (hc : NoWrap s v) (ha : ALock.step size s v = some s') :
    s'.pc t = .inside ∨ ((∃ D E, Inv size D E s' ∧ E ≤ k + 1 ∧ k < D) ∧ (s'.pc t).InLock k) ∧
      (∑ u, Pc.ahead k (s'.pc u) < ∑ u, Pc.ahead k (s.pc u) ∨
        ∑ u, Pc.ahead k (s'.pc u) = ∑ u, Pc.ahead k (s.pc u) ∧ ∀ u, Due s u → v ≠ u ∧ Due s' u) := by
  rcases hi.step (k := k) hsize hpos hT hc ha with
    ⟨hp, hpc, hf, hi'⟩ | ⟨rfl, hnot⟩ | ⟨slot, hp, hno, hpc, hi'⟩ | ⟨hpass, hi', p, hpc, hin, hahead⟩
  · -- a later ticket
    have hself : s'.pc v = .spinning D (D % size) := by rw [hpc, Function.update_self]
    have hother : ∀ u, u ≠ v → s'.pc u = s.pc u := fun u hu => by rw [hpc, Function.update_of_ne hu]
    have htv : t ≠ v := by
      rintro rfl
      rw [hp] at ht
      exact ht
    refine .inr ⟨⟨⟨D + 1, E, hi', hk, Nat.lt_succ_of_lt hkD⟩, by rwa [hother t htv]⟩, .inr ⟨?_, fun u hu => ?_⟩⟩
    · refine Finset.sum_congr rfl fun u _ => ?_
      by_cases huv : u = v
      · subst huv
        rw [hself, hp]
        exact if_neg (Nat.not_le.mpr hkD)
      · rw [hother u huv]
    · exact (hu.draw hp id hself hother hf).imp_left Ne.symm
  · refine .inr ⟨⟨⟨D, E, hi, hk, hkD⟩, ht⟩, .inr ⟨rfl, fun u hu => ⟨?_, hu⟩⟩⟩
    rintro rfl
    exact hnot hu
  · -- nobody passes, so `t` waits and its turn is not over
    have hE : E ≤ k := by
      cases htp : s.pc t with
      | spinning tmp slot' =>
        rw [htp] at ht
        exact ht ▸ (hi.spin t tmp slot' htp).2.1
      | clearing tmp slot' | marking slot' => exact absurd (by rw [htp]; trivial) (hno t)
      | idle | inside | unlocking cur => rw [htp] at ht; exact ht.elim
    refine .inr ⟨⟨⟨D, E + 1, hi', Nat.succ_le_succ hE, hkD⟩, ?_⟩, .inl (ahead_lt hpc ?_)⟩
    · rw [hpc, Function.update_apply]
      split
      · trivial
      · exact ht
    · rw [hp]
      simp only [Pc.ahead, if_pos hE]
  · by_cases htv : t = v
    · subst htv
      rcases hin with rfl | hin | hin
      · exact .inl (by rw [hpc, Function.update_self])
      · exact absurd ht hin
      · exact .inr ⟨⟨⟨D, E, hi', hk, hkD⟩, by rwa [hpc, Function.update_self]⟩, .inl (ahead_lt hpc hahead)⟩
    · exact .inr ⟨⟨⟨D, E, hi', hk, hkD⟩, by rwa [hpc, Function.update_of_ne htv]⟩,
        .inl (ahead_lt hpc hahead)⟩

end Step

/-! ### Executions -/

section Executions
variable [Fintype T] {capacity : ℕ} {f : ℕ → State T} {act : ℕ → Option T}

omit [DecidableEq T] [Fintype T] in
theorem Inv.initial (size : ℕ) : Inv size 0 0 (initial : State T) := (Served.initial size).inv

/-- No draw wraps `tail`, so the invariant holds throughout. -/
theorem inv_of_execution (hpos : 1 ≤ capacity) (hcap : capacity < 2 ^ 32)
    (hT : Fintype.card T ≤ capacity) (he : Execution (program capacity) NoWrap f act)
    (h0 : f 0 = initial) (n : ℕ) : ∃ D E, Inv capacity D E (f n) := by
  refine he.always (I := fun s => ∃ D E, Inv capacity D E s) ⟨0, 0, h0 ▸ .initial capacity⟩ ?_ n
  rintro s v s' ⟨D, E, hi⟩ hc ha
  rcases hi.step (k := 0) hcap hpos hT hc ha with
    ⟨-, -, -, hi'⟩ | ⟨rfl, -⟩ | ⟨-, -, -, -, hi'⟩ | ⟨-, hi', -⟩
  · exact ⟨_, _, hi'⟩
  · exact ⟨_, _, hi⟩
  · exact ⟨_, _, hi'⟩
  · exact ⟨_, _, hi'⟩

/-- Every call of `lock` returns: who has drawn a ticket comes inside, however many threads
there are and in whatever order they run, if none of them stops between its draw and the
flag store of its `unlock`. -/
theorem alock_starvation_free (hpos : 1 ≤ capacity) (hcap : capacity < 2 ^ 32)
    (hT : Fintype.card T ≤ capacity) (he : Execution (program capacity) NoWrap f act)
    (h0 : f 0 = initial) (hfair : ∀ n u, (f n).pc u ≠ .idle → ∃ m, n ≤ m ∧ act m = some u)
    {n k slot : ℕ} {t : T} (ht : (f n).pc t = .spinning k slot) :
    ∃ m, n ≤ m ∧ (f m).pc t = .inside := by
  have hlead := (he.shift n).leads_due (Q := fun s => s.pc t = .inside)
    (J := fun s => (∃ D E, Inv capacity D E s ∧ E ≤ k + 1 ∧ k < D) ∧ (s.pc t).InLock k)
    Due (fun u v => v = u) (fun s => ∑ u, Pc.ahead k (s.pc u)) ?_ ?_ ?_ ?_
  · obtain ⟨m, hm⟩ := hlead
    exact ⟨n + m, Nat.le_add_right n m, hm⟩
  · obtain ⟨D, E, hi⟩ := inv_of_execution hpos hcap hT he h0 n
    obtain ⟨-, hE, hD⟩ := hi.spin t k slot ht
    exact ⟨⟨D, E, hi, Nat.le_succ_of_le hE, hD⟩, by rw [Nat.add_zero, ht]; rfl⟩
  · rintro s ⟨⟨D, E, hi, hE, hD⟩, hin⟩
    cases hp : s.pc t with
    | spinning tmp slot' =>
      rw [hp] at hin
      obtain ⟨-, hE', -⟩ := hi.spin t tmp slot' hp
      exact hi.exists_due hpos (by rw [← show tmp = k from hin] at hD; omega)
    | clearing tmp slot' | marking slot' => exact ⟨t, .inl (by rw [hp]; trivial)⟩
    | idle | inside | unlocking cur => rw [hp] at hin; exact hin.elim
  · rintro s v s' ⟨⟨D, E, hi, hE, hD⟩, hin⟩ hc ha
    exact hi.wait hcap hpos hT hE hD hin hc ha
  · intro m u hdue
    obtain ⟨j, hj, ha⟩ := hfair (n + m) u (hdue m le_rfl).ne_idle
    obtain ⟨d, rfl⟩ := Nat.exists_eq_add_of_le (show n ≤ j by omega)
    exact ⟨d, u, by omega, ha, rfl⟩

end Executions

/-- The second of two threads waits until the first has gone through. -/
theorem alock_starvation_free_handover : ∃ (f : ℕ → State (Fin 2)) (act : ℕ → Option (Fin 2)),
    Execution (program 2) NoWrap f act ∧ f 0 = initial ∧
      (∀ n u, (f n).pc u ≠ .idle → ∃ m, n ≤ m ∧ act m = some u) ∧ (f 2).pc 1 = .spinning 1 1 ∧
      ∃ m, 2 ≤ m ∧ (f m).pc 1 = .inside := by
  let as : List (Fin 2) := [0, 1, 1, 0, 0, 0, 0, 0, 1, 1, 1, 1, 1]
  obtain ⟨r, hr⟩ : ∃ r, (program 2).exec NoWrap initial as = some r :=
    Option.isSome_iff_exists.mp (by decide +kernel)
  obtain ⟨he, hlast⟩ := execution_of_exec hr
  have hfair : ∀ n u, ((program 2).states initial as n).pc u ≠ .idle → ∃ m, n ≤ m ∧ as[m]? = some u := by
    intro n u hu
    rcases Nat.lt_or_ge n 13 with hn | hn
    · have hall : ∀ n < 13, ∀ u, ((program 2).states initial as n).pc u ≠ .idle →
          ∃ m < 13, n ≤ m ∧ as[m]? = some u := by decide +kernel
      obtain ⟨m, -, hm⟩ := hall n hn u hu
      exact ⟨m, hm⟩
    · have hidle : ∀ u, ((program 2).states initial as 13).pc u = .idle := by decide +kernel
      rw [hlast n hn, ← hlast 13 le_rfl] at hu
      exact absurd (hidle u) hu
  have hwait : ((program 2).states initial as 2).pc 1 = .spinning 1 1 := by decide +kernel
  exact ⟨_, _, he, states_zero .., hfair, hwait,
    alock_starvation_free (by decide) (by decide) (by decide) he (states_zero ..) hfair hwait⟩

end Multicore.Locks.ALock
