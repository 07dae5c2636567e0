import Multicore.Exchange.Deadline

/-! The exchanger with its clock. A call holds its deadline and the time that it has read last,
and its tests compare the two. Every run is one of the exchanger whose tests may go either way,
so the calls pair off as they do there. From its deadline on a call is over after a few steps of
its own, whatever the other threads do meanwhile. -/

namespace Multicore.Exchange.Timed

open Runs Timespec

structure State (T : Type*) where
  now : Timespec
  data : UInt64
  pc : T → Pc
  bound : T → Timespec
  current : T → Timespec

inductive Action (T : Type*)
  | tick (now : Timespec) | call (t : T) (n : Option Node) | exec (t : T) | ret (t : T)
  deriving DecidableEq

variable {T : Type*}

/-- How the test of the clock goes. The outer loop has just read it; the inner loop tests the
reading that it has. -/
def State.late (s : State T) (t : T) : Bool :=
  match s.pc t with
  | .top _ => s.now.gt (s.bound t)
  | .wait _ => !(s.current t).lt (s.bound t)
  | _ => false

/-- The last reading after the step: `clock_gettime` comes first in the outer loop, and in the inner
one after the test. -/
def State.reading (s : State T) (t : T) : Timespec :=
  match s.pc t with
  | .top _ => s.now
  | .wait _ => if (s.current t).lt (s.bound t) then s.now else s.current t
  | _ => s.current t

variable [DecidableEq T]

def State.step (s : State T) : Action T → Option (State T)
  | .tick now => some { s with now := now }
  | .call t n => if s.pc t = .idle then
      some { s with pc := Function.update s.pc t (.top n), bound := Function.update s.bound t s.now.bound }
    else none
  | .exec t => (exchange s.data (s.late t) (s.pc t)).map fun r =>
      { s with
        data := r.1
        pc := Function.update s.pc t r.2
        current := Function.update s.current t (s.reading t) }
  | .ret t => (s.pc t).outcome.map fun _ => { s with pc := Function.update s.pc t .idle }

def State.shows (s : State T) : Action T → List (Event T (Option Node) (Outcome (Option Node)))
  | .tick _ | .exec _ => []
  | .call t n => [.call t n]
  | .ret t => ((s.pc t).outcome.map (Event.ret t)).toList

def exchanger (T : Type*) [DecidableEq T] :
    Program (State T) (Action T) (Event T (Option Node) (Outcome (Option Node))) :=
  ⟨State.step, State.shows⟩

omit [DecidableEq T] in
/-- The clock does not go back. -/
def Steady : Guard (State T) (Action T) := fun s a =>
  match a with
  | .tick now => now.Reading ∧ s.now.nanos ≤ now.nanos
  | _ => True

def initial (T : Type*) (now : Timespec) : State T := ⟨now, 0, fun _ => .idle, fun _ => now, fun _ => now⟩

/-! ### The clock forgotten -/

omit [DecidableEq T] in
def State.untimed (s : State T) : Exchange.State T := ⟨s.data, s.pc⟩

/-- The tests of a timed run go one of the ways that they may go. -/
theorem run_untimed {C : Guard (State T) (Action T)} {s u : State T}
    {h : List (Event T (Option Node) (Outcome (Option Node)))} (hr : Run (exchanger T) C s h u) :
    Run (Exchange.exchanger T) Free s.untimed h u.untimed := by
  refine hr.map State.untimed fun x a y _ hu => ?_
  cases a with
  | tick now =>
    obtain rfl : { x with now := now } = y := Option.some.inj hu
    exact .refl
  | call t n =>
    simp only [exchanger, State.step, Option.ite_none_right_eq_some, Option.some.injEq] at hu
    obtain ⟨ht, rfl⟩ := hu
    exact Run.single (P := Exchange.exchanger T) (s := x.untimed) (a := .call t n) trivial (if_pos ht)
  | exec t =>
    simp only [exchanger, State.step, Option.map_eq_some_iff] at hu
    obtain ⟨r, hr, rfl⟩ := hu
    refine Run.single (P := Exchange.exchanger T) (s := x.untimed) (a := .exec t (x.late t)) trivial ?_
    exact Option.map_eq_some_iff.mpr ⟨r, hr, rfl⟩
  | ret t =>
    simp only [exchanger, State.step, Option.map_eq_some_iff] at hu
    obtain ⟨o, ho, rfl⟩ := hu
    refine Run.single (P := Exchange.exchanger T) (s := x.untimed) (a := .ret t) trivial ?_
    exact Option.map_eq_some_iff.mpr ⟨o, ho, rfl⟩

/-! ### The deadline of a call -/

/-- A call was entered at some reading of the clock that is not ahead of it. -/
structure Inv (s : State T) : Prop where
  clock : s.now.Reading
  entered : ∀ t, s.pc t ≠ .idle → ∃ e : Timespec, e.Reading ∧ e.nanos ≤ s.now.nanos ∧ s.bound t = e.bound

section Inv
variable {s u : State T} {t : T} {a : Action T}

theorem exchange_ne_idle {data : UInt64} {late : Bool} {x : Pc} {r : UInt64 × Pc}
    (he : exchange data late x = some r) : x ≠ .idle ∧ r.2 ≠ .idle := by
  cases x <;> simp only [exchange] at he
  all_goals repeat' split at he
  all_goals cases he
  all_goals exact ⟨Pc.noConfusion, Pc.noConfusion⟩

theorem Inv.step (hi : Inv s) (hc : Steady s a) (hu : s.step a = some u) : Inv u := by
  cases a with
  | tick now =>
    obtain rfl : { s with now := now } = u := Option.some.inj hu
    refine ⟨hc.1, fun t ht => ?_⟩
    obtain ⟨e, he, hle, hb⟩ := hi.entered t ht
    exact ⟨e, he, hle.trans hc.2, hb⟩
  | call t n =>
    simp only [State.step, Option.ite_none_right_eq_some, Option.some.injEq] at hu
    obtain ⟨-, rfl⟩ := hu
    refine ⟨hi.clock, fun v hv => ?_⟩
    by_cases h : v = t
    · rw [h]
      exact ⟨s.now, hi.clock, le_rfl, Function.update_self ..⟩
    · simp only [Function.update_of_ne h] at hv ⊢
      exact hi.entered v hv
  | exec t =>
    simp only [State.step, Option.map_eq_some_iff] at hu
    obtain ⟨r, hr, rfl⟩ := hu
    refine ⟨hi.clock, fun v hv => ?_⟩
    by_cases h : v = t
    · rw [h]
      exact hi.entered t (exchange_ne_idle hr).1
    · simp only [Function.update_of_ne h] at hv
      exact hi.entered v hv
  | ret t =>
    simp only [State.step, Option.map_eq_some_iff] at hu
    obtain ⟨o, ho, rfl⟩ := hu
    refine ⟨hi.clock, fun v hv => ?_⟩
    by_cases h : v = t
    · rw [h] at hv
      exact absurd (Function.update_self ..) hv
    · simp only [Function.update_of_ne h] at hv
      exact hi.entered v hv

theorem inv_of_run {now : Timespec} (hn : now.Reading)
    {h : List (Event T (Option Node) (Outcome (Option Node)))}
    (hr : Run (exchanger T) Steady (initial T now) h s) : Inv s :=
  hr.always ⟨hn, fun _ ht => absurd rfl ht⟩ fun _ _ _ hi hc hu => hi.step hc hu

omit [DecidableEq T] in
/-- Once `NANO_DUR` has passed since its entry, the time of a call is over for good. -/
theorem Inv.late (hi : Inv s) (ht : s.pc t ≠ .idle) (hle : (s.bound t).nanos ≤ s.now.nanos) :
    s.now.lt (s.bound t) = false := by
  obtain ⟨e, he, hn, hb⟩ := hi.entered t ht
  by_contra hlt
  rw [Bool.not_eq_false, hb] at hlt
  have helapsed := elapsed_of_lt_bound he hi.clock hn hlt
  rw [hb] at hle
  simp only [nanos, Timespec.bound] at hle helapsed
  omega

end Inv

/-! ### The steps of a call after its deadline -/

/-- How many steps a call has left when its time is over; if its last reading was before that, it
goes through the inner loop once more. -/
def left (early : Bool) : Pc → ℕ
  | .idle | .returned _ | .threw => 0
  | .top _ | .reset _ _ => 1
  | .casWaiting _ _ | .lastGet2 _ => 2
  | .lastGet1 _ => 3
  | .cancel _ => 4
  | .wait _ => if early then 8 else 5
  | .casEmpty _ _ | .waitGet2 _ _ => if early then 9 else 6
  | .get2 _ _ | .waitGet1 _ => if early then 10 else 7
  | .get1 _ => if early then 11 else 8

def State.left (s : State T) (t : T) : ℕ := Timed.left ((s.current t).lt (s.bound t)) (s.pc t)

section Left
variable {s u : State T} {t : T} {a : Action T}

omit [DecidableEq T] in
theorem left_le (s : State T) (t : T) : s.left t ≤ 11 := by
  unfold State.left Timed.left
  split <;> first | (split <;> decide) | decide

theorem left_lt (hover : s.now.lt (s.bound t) = false) (hu : s.step (.exec t) = some u) :
    u.left t + 1 ≤ s.left t := by
  simp only [State.step, Option.map_eq_some_iff] at hu
  obtain ⟨r, hr, rfl⟩ := hu
  simp only [State.left, Function.update_self]
  cases hp : s.pc t with
  | idle | returned m | threw => simp [hp, exchange] at hr
  | top n =>
    simp only [hp, State.late, exchange, gt, hover, Bool.not_false, if_true, Option.some.injEq] at hr
    subst hr
    exact le_rfl
  | wait n =>
    cases hlt : (s.current t).lt (s.bound t) with
    | true =>
      simp only [hp, State.late, exchange, hlt, Bool.not_true, Bool.false_eq_true, if_false,
        Option.some.injEq] at hr
      subst hr
      simp [State.reading, hp, hlt, hover, Timed.left]
    | false =>
      simp only [hp, State.late, exchange, hlt, Bool.not_false, if_true, Option.some.injEq] at hr
      subst hr
      simp [Timed.left]
  | _ =>
    simp only [hp, exchange] at hr
    simp only [State.reading, hp]
    repeat' split at hr
    all_goals cases hr
    all_goals cases (s.current t).lt (s.bound t) <;> simp [Timed.left]

/-- The steps of one thread. -/
def own (t : T) : State T → Action T → List Unit := fun _ a => if a = .exec t then [()] else []

/-- A call is in progress whose time is over, and it has at most so many steps left. -/
structure Over (t : T) (n : ℕ) (s : State T) : Prop where
  inv : Inv s
  busy : s.pc t ≠ .idle
  late : (s.bound t).nanos ≤ s.now.nanos
  left_le : s.left t ≤ n

/-- What the others and the clock leave as it is. -/
theorem frame (hu : s.step a = some u) (hcall : ∀ n, a ≠ .call t n) (hexec : a ≠ .exec t) (hret : a ≠ .ret t) :
    u.pc t = s.pc t ∧ u.bound t = s.bound t ∧ u.current t = s.current t := by
  cases a with
  | tick now =>
    obtain rfl : { s with now := now } = u := Option.some.inj hu
    exact ⟨rfl, rfl, rfl⟩
  | call v n =>
    simp only [State.step, Option.ite_none_right_eq_some, Option.some.injEq] at hu
    obtain ⟨-, rfl⟩ := hu
    have hv : t ≠ v := fun h => hcall n (h ▸ rfl)
    exact ⟨Function.update_of_ne hv .., Function.update_of_ne hv .., rfl⟩
  | exec v =>
    simp only [State.step, Option.map_eq_some_iff] at hu
    obtain ⟨r, -, rfl⟩ := hu
    have hv : t ≠ v := fun h => hexec (h ▸ rfl)
    exact ⟨Function.update_of_ne hv .., rfl, Function.update_of_ne hv ..⟩
  | ret v =>
    simp only [State.step, Option.map_eq_some_iff] at hu
    obtain ⟨o, -, rfl⟩ := hu
    have hv : t ≠ v := fun h => hret (h ▸ rfl)
    exact ⟨Function.update_of_ne hv .., rfl, rfl⟩

theorem le_now (hc : Steady s a) (hu : s.step a = some u) : s.now.nanos ≤ u.now.nanos := by
  cases a with
  | tick now =>
    obtain rfl : { s with now := now } = u := Option.some.inj hu
    exact hc.2
  | call t n =>
    simp only [State.step, Option.ite_none_right_eq_some, Option.some.injEq] at hu
    rw [← hu.2]
  | exec t | ret t =>
    simp only [State.step, Option.map_eq_some_iff] at hu
    obtain ⟨r, -, rfl⟩ := hu
    exact le_rfl

theorem Over.step {n : ℕ} (ho : Over t n s) (hc : Steady s a) (hret : a ≠ .ret t) (hu : s.step a = some u) :
    Over t (n - (own t s a).length) u ∧ (own t s a).length ≤ n := by
  have hi := ho.inv.step hc hu
  have hnow := le_now hc hu
  by_cases hexec : a = .exec t
  · subst hexec
    have hlen : (own t s (.exec t)).length = 1 := by rw [own, if_pos rfl, List.length_singleton]
    have hlt := left_lt (ho.inv.late ho.busy ho.late) hu
    have hle := ho.left_le
    rw [hlen]
    refine ⟨⟨hi, ?_, ?_, by omega⟩, by omega⟩ <;> simp only [State.step, Option.map_eq_some_iff] at hu <;>
      obtain ⟨r, hr, rfl⟩ := hu
    · simp only [Function.update_self]
      exact (exchange_ne_idle hr).2
    · exact ho.late
  · have hcall : ∀ n, a ≠ .call t n := by
      rintro n rfl
      simp only [State.step, if_neg ho.busy] at hu
      cases hu
    obtain ⟨hpc, hbound, hcurrent⟩ := frame hu hcall hexec hret
    have hlen : (own t s a).length = 0 := by rw [own, if_neg hexec, List.length_nil]
    rw [hlen]
    refine ⟨⟨hi, hpc ▸ ho.busy, ?_, ?_⟩, Nat.zero_le _⟩
    · rw [hbound]
      exact ho.late.trans hnow
    · rw [State.left, hpc, hbound, hcurrent]
      exact ho.left_le

/-- A call that is not over can go on. -/
theorem exec_isSome (ht : s.pc t ≠ .idle) (ho : (s.pc t).outcome = none) : (s.step (.exec t)).isSome := by
  simp only [State.step, Option.isSome_map]
  cases hp : s.pc t with
  | idle => exact absurd hp ht
  | returned m | threw =>
    rw [hp] at ho
    cases ho
  | _ =>
    simp only [exchange]
    first | rfl | (split <;> rfl)

end Left

/-- `exchange` with its clock makes the pairs of the exchanger, and from its deadline on it is
wait-free: once `NANO_DUR` has passed since its entry a call is over after at most 11 steps of its
own, whatever the other threads and the clock do, and it can always take the next. -/
theorem exchange_wait_free {now : Timespec} (hn : now.Reading)
    {h : List (Event T (Option Node) (Outcome (Option Node)))} {s : State T}
    (hr : Run (exchanger T) Steady (initial T now) h s) :
    Run (Exchange.exchanger T) Free (Exchange.initial T) h s.untimed ∧
    ∀ t, s.pc t ≠ .idle → (s.bound t).nanos ≤ s.now.nanos →
      ∀ k u, Run ((exchanger T).observe (own t)) (fun s a => Steady s a ∧ a ≠ .ret t) s k u →
        k.length ≤ 11 ∧ ((u.pc t).outcome = none → (u.step (.exec t)).isSome) := by
  refine ⟨run_untimed hr, fun t ht hle k u hk => ?_⟩
  have hover : Over t (11 - k.length) u ∧ k.length ≤ 11 := by
    refine hk.invariant (I := fun k u => Over t (11 - k.length) u ∧ k.length ≤ 11)
      ⟨⟨inv_of_run hn hr, ht, hle, left_le s t⟩, Nat.zero_le _⟩ ?_
    rintro k x a y ⟨ho, hlen⟩ ⟨hc, hret⟩ hu
    obtain ⟨ho', hle'⟩ := ho.step hc hret hu
    rw [List.length_append]
    show Over t (11 - (k.length + (own t x a).length)) y ∧ k.length + (own t x a).length ≤ 11
    exact ⟨by rwa [← Nat.sub_sub], by omega⟩
  exact ⟨hover.2, fun ho => exec_isSome hover.1.busy ho⟩

instance {T : Type*} (s : State T) : ∀ a : Action T, Decidable (Steady s a)
  | .tick now => inferInstanceAs (Decidable (now.Reading ∧ s.now.nanos ≤ now.nanos))
  | .call _ _ | .exec _ | .ret _ => inferInstanceAs (Decidable True)

/-- A waiter that has read the clock just before its deadline, and finds a partner when it has given
up waiting, takes all 11 steps. -/
theorem exchange_wait_free_waiter : ∃ (h : List (Event (Fin 2) (Option Node) (Outcome (Option Node))))
    (s u : State (Fin 2)) (k : List Unit),
    Run (exchanger (Fin 2)) Steady (initial (Fin 2) ⟨7, 0⟩) h s ∧ (s.bound 0).nanos ≤ s.now.nanos ∧
      Run ((exchanger (Fin 2)).observe (own 0)) (fun s a => Steady s a ∧ a ≠ .ret 0) s k u ∧
      u.pc 0 = .returned none ∧ k.length = 11 ∧ k.length ≤ 11 := by
  let before : List (Action (Fin 2)) := [.call 0 (some ⟨64, rfl, by decide⟩), .exec 0, .tick ⟨7, 512⟩]
  let after : List (Action (Fin 2)) := List.flatten [List.replicate 7 (.exec 0),
    .call 1 none :: List.replicate 4 (.exec 1), List.replicate 4 (.exec 0)]
  obtain ⟨p, hp, ht⟩ : ∃ p : (List _ × State (Fin 2)) × List Unit × State (Fin 2),
      (((exchanger (Fin 2)).exec Steady (initial (Fin 2) ⟨7, 0⟩) before).bind fun r =>
        (((exchanger (Fin 2)).observe (own 0)).exec (fun s a => Steady s a ∧ a ≠ .ret 0) r.2 after).map
          fun q => (r, q)) = some p ∧
      (p.1.2.pc 0 != .idle && decide ((p.1.2.bound 0).nanos ≤ p.1.2.now.nanos) &&
        p.2.2.pc 0 == .returned none && p.2.1.length == 11) = true :=
    (Option.any_eq_true _ _).mp (by decide +kernel)
  simp only [Option.bind_eq_some_iff, Option.map_eq_some_iff] at hp
  obtain ⟨r, hr, q, hq, rfl⟩ := hp
  simp only [Bool.and_eq_true, bne_iff_ne, ne_eq, decide_eq_true_eq, beq_iff_eq] at ht
  obtain ⟨⟨⟨hbusy, hover⟩, hret⟩, hlen⟩ := ht
  have hrun := run_of_exec hr
  have hrest := run_of_exec hq
  exact ⟨_, _, _, _, hrun, hover, hrest, hret, hlen,
    ((exchange_wait_free ⟨by decide, by decide⟩ hrun).2 0 hbusy hover _ _ hrest).1⟩

end Multicore.Exchange.Timed
