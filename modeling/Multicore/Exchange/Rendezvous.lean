import Multicore.Runs.Linearizable
import Mathlib.Logic.Function.Basic
import Mathlib.Tactic.Common

/-! A rendezvous. Threads come with an item, and two that are both there may meet in
one action; from then on each is owed what the other brought. A thread that has met
nobody may fail instead. The calls of a history then fall into pairs: a matching of
the call positions that only grows as the history goes on. -/

namespace Multicore.Exchange

open Runs

/-- How a call to exchange ends. -/
inductive Outcome (I : Type*)
  | returned (r : I) | threw
  deriving DecidableEq

/-- Where a thread stands: away, with an item to give, with one to receive, or having failed. -/
inductive Stage (I : Type*)
  | idle | offering (x : I) | owed (r : I) | failed

/-- How a thread at this stage would return. -/
def Stage.outcome {I : Type*} : Stage I → Option (Outcome I)
  | .owed r => some (.returned r)
  | .failed => some .threw
  | _ => none

inductive Rendezvous.Act (T I : Type*)
  | call (t : T) (x : I) | meet (t u : T) | fail (t : T) | ret (t : T)

variable {T I : Type*} [DecidableEq T]

/-- The stages after `t` and `u` have met, with their items `x` and `y`. -/
def meet (v : T → Stage I) (t u : T) (x y : I) : T → Stage I :=
  Function.update (Function.update v t (.owed y)) u (.owed x)

def Rendezvous.step (v : T → Stage I) : Rendezvous.Act T I → Option (T → Stage I)
  | .call t x => match v t with
    | .idle => some (Function.update v t (.offering x))
    | _ => none
  | .meet t u => match v t, v u with
    | .offering x, .offering y => if t = u then none else some (meet v t u x y)
    | _, _ => none
  | .fail t => match v t with
    | .offering _ => some (Function.update v t .failed)
    | _ => none
  | .ret t => (v t).outcome.map fun _ => Function.update v t .idle

def Rendezvous.shows (v : T → Stage I) : Rendezvous.Act T I → List (Event T I (Outcome I))
  | .call t x => [.call t x]
  | .meet _ _ | .fail _ => []
  | .ret t => ((v t).outcome.map (Event.ret t)).toList

def rendezvous (T I : Type*) [DecidableEq T] :
    Program (T → Stage I) (Rendezvous.Act T I) (Event T I (Outcome I)) := ⟨Rendezvous.step, Rendezvous.shows⟩

section Actions
variable {v : T → Stage I} {t u : T} {x y : I}

theorem rendezvous_call (ht : v t = .idle) (x : I) :
    Run (rendezvous T I) Free v [.call t x] (Function.update v t (.offering x)) :=
  Run.single (P := rendezvous T I) (a := .call t x) trivial (by simp only [rendezvous, Rendezvous.step, ht])

theorem rendezvous_meet (htu : t ≠ u) (ht : v t = .offering x) (hu : v u = .offering y) :
    Run (rendezvous T I) Free v [] (meet v t u x y) :=
  Run.single (P := rendezvous T I) (a := .meet t u) trivial
    (by simp only [rendezvous, Rendezvous.step, ht, hu, if_neg htu])

theorem rendezvous_fail (ht : v t = .offering x) :
    Run (rendezvous T I) Free v [] (Function.update v t .failed) :=
  Run.single (P := rendezvous T I) (a := .fail t) trivial (by simp only [rendezvous, Rendezvous.step, ht])

theorem rendezvous_ret {o : Outcome I} (ht : (v t).outcome = some o) :
    Run (rendezvous T I) Free v [.ret t o] (Function.update v t .idle) := by
  have hr := Run.single (P := rendezvous T I) (C := Free) (s := v) (a := .ret t)
    (u := Function.update v t .idle) trivial (by simp only [rendezvous, Rendezvous.step, ht, Option.map_some])
  simpa only [rendezvous, Rendezvous.shows, ht, Option.map_some, Option.toList_some] using hr

end Actions

/-! ### Matchings -/

/-- `mate` pairs calls of the history `h`: a call that returned normally has a mate and
returned its item; the two overlap; and a call that threw has none. -/
structure Matching (h : List (Event T I (Outcome I))) (mate : ℕ → Option ℕ) : Prop where
  symm : ∀ p q, mate p = some q → mate q = some p
  pair : ∀ p q, mate p = some q → ∃ t x u y, t ≠ u ∧ h[p]? = some (.call t x) ∧
    h[q]? = some (.call u y) ∧ ∀ k o, Returns h t p k o → q < k ∧ o = .returned y
  returned : ∀ t p k r, Returns h t p k (.returned r) → mate p ≠ none
  threw : ∀ t p k, Returns h t p k .threw → mate p = none

/-- What the stage of `t` says about its open call and the mate of that. -/
def Stage.Fits (h : List (Event T I (Outcome I))) (mate : ℕ → Option ℕ) (t : T) : Stage I → Prop
  | .idle => ∀ p x, ¬ Open h p t x
  | .offering x => ∃ p, Open h p t x ∧ mate p = none
  | .owed r => ∃ p x q u, Open h p t x ∧ mate p = some q ∧ h[q]? = some (.call u r)
  | .failed => ∃ p x, Open h p t x ∧ mate p = none

/-- The matching of the history so far and the stages of the threads agree. -/
structure Matched (h : List (Event T I (Outcome I))) (v : T → Stage I) (mate : ℕ → Option ℕ) :
    Prop where
  matching : Matching h mate
  fits : ∀ t, (v t).Fits h mate t

section Matching
variable {h : List (Event T I (Outcome I))} {mate : ℕ → Option ℕ} {v : T → Stage I} {t u : T}
  {x y : I} {p q : ℕ}

omit [DecidableEq T] in
theorem Matching.nil : Matching ([] : List (Event T I (Outcome I))) (fun _ => none) := by
  refine ⟨nofun, nofun, ?_, fun _ _ _ _ => rfl⟩
  intro t p k r hr
  exact absurd hr.lt (Nat.not_lt_zero _)

omit [DecidableEq T] in
/-- A mate is a call of the history. -/
theorem Matching.lt (hm : Matching h mate) (hp : mate p = some q) : p < h.length := by
  obtain ⟨t, x, -, -, -, hc, -, -⟩ := hm.pair p q hp
  exact (List.getElem?_eq_some_iff.mp hc).1

omit [DecidableEq T] in
theorem Matching.call (hm : Matching h mate) (t : T) (x : I) : Matching (h ++ [.call t x]) mate := by
  have hold : ∀ {u p k o}, Returns (h ++ [.call t x]) u p k o → Returns h u p k o := by
    intro u p k o hr
    rcases hr.of_append with ⟨-, he, -⟩ | hr
    · cases he
    · exact hr
  refine ⟨hm.symm, ?_, fun u p k r hr => hm.returned u p k r (hold hr),
    fun u p k hr => hm.threw u p k (hold hr)⟩
  intro p q hpq
  obtain ⟨u, y, w, z, huw, hp, hq, hret⟩ := hm.pair p q hpq
  exact ⟨u, y, w, z, huw, getElem?_append_of_some hp, getElem?_append_of_some hq,
    fun k o hr => hret k o (hold hr)⟩

omit [DecidableEq T] in
/-- Two open calls without a mate are paired. -/
theorem Matching.meet (hm : Matching h mate) (htu : t ≠ u) (hp : Open h p t x) (hq : Open h q u y)
    (hmp : mate p = none) (hmq : mate q = none) :
    Matching h (Function.update (Function.update mate p (some q)) q (some p)) := by
  have hpq : p ≠ q := by
    rintro rfl
    exact htu (call_inj hp.1 hq.1).1
  -- neither of the two was anybody's mate
  have hfree : ∀ a b, mate a = some b → a ≠ p ∧ a ≠ q ∧ b ≠ p ∧ b ≠ q := by
    intro a b hab
    have hba := hm.symm a b hab
    refine ⟨?_, ?_, ?_, ?_⟩ <;> rintro rfl <;> simp_all
  have hmate : ∀ a b, Function.update (Function.update mate p (some q)) q (some p) a = some b →
      (a = p ∧ b = q) ∨ (a = q ∧ b = p) ∨ mate a = some b := by
    intro a b hab
    rcases eq_or_ne a q with rfl | haq
    · rw [Function.update_self] at hab
      exact .inr (.inl ⟨rfl, (Option.some.inj hab).symm⟩)
    · rw [Function.update_of_ne haq] at hab
      rcases eq_or_ne a p with rfl | hap
      · rw [Function.update_self] at hab
        exact .inl ⟨rfl, (Option.some.inj hab).symm⟩
      · rw [Function.update_of_ne hap] at hab
        exact .inr (.inr hab)
  refine ⟨?_, ?_, ?_, ?_⟩
  · intro a b hab
    rcases hmate a b hab with ⟨rfl, rfl⟩ | ⟨rfl, rfl⟩ | hab
    · exact Function.update_self ..
    · rw [Function.update_of_ne hpq]
      exact Function.update_self ..
    · obtain ⟨-, -, hbp, hbq⟩ := hfree a b hab
      rw [Function.update_of_ne hbq, Function.update_of_ne hbp]
      exact hm.symm a b hab
  · intro a b hab
    rcases hmate a b hab with ⟨rfl, rfl⟩ | ⟨rfl, rfl⟩ | hab
    · exact ⟨t, x, u, y, htu, hp.1, hq.1, fun k o hr => absurd hr hp.not_returns⟩
    · exact ⟨u, y, t, x, htu.symm, hq.1, hp.1, fun k o hr => absurd hr hq.not_returns⟩
    · exact hm.pair a b hab
  · intro w a k r hr
    have ha := hm.returned w a k r hr
    obtain ⟨b, hab⟩ := Option.ne_none_iff_exists'.mp ha
    obtain ⟨hap, haq, -, -⟩ := hfree a b hab
    rwa [Function.update_of_ne haq, Function.update_of_ne hap]
  · intro w a k hr
    have hap : a ≠ p := by
      rintro rfl
      exact hp.not_returns hr
    have haq : a ≠ q := by
      rintro rfl
      exact hq.not_returns hr
    rw [Function.update_of_ne haq, Function.update_of_ne hap]
    exact hm.threw w a k hr

omit [DecidableEq T] in
/-- An open call that has a mate returns the item of the mate. -/
theorem Matching.owed (hm : Matching h mate) (hp : Open h p t x) (hpq : mate p = some q)
    (hq : h[q]? = some (.call u y)) : Matching (h ++ [.ret t (.returned y)]) mate := by
  refine ⟨hm.symm, ?_, ?_, ?_⟩
  · intro a b hab
    obtain ⟨w, z, w', z', hne, ha, hb, hret⟩ := hm.pair a b hab
    refine ⟨w, z, w', z', hne, getElem?_append_of_some ha, getElem?_append_of_some hb, ?_⟩
    intro k o hr
    rcases hr.of_append with ⟨rfl, he, z'', ho⟩ | hr
    · obtain ⟨rfl, rfl⟩ : t = w ∧ .returned y = o := by simpa using he
      obtain ⟨rfl, -⟩ := hp.unique ho
      obtain rfl : q = b := Option.some.inj (hpq.symm.trans hab)
      exact ⟨(List.getElem?_eq_some_iff.mp hq).1, congrArg _ (call_inj hq hb).2⟩
    · exact hret k o hr
  · intro w a k r hr
    rcases hr.of_append with ⟨-, he, z, ho⟩ | hr
    · obtain ⟨rfl, -⟩ : t = w ∧ y = r := by simpa using he
      rw [← (hp.unique ho).1, hpq]
      nofun
    · exact hm.returned w a k r hr
  · intro w a k hr
    rcases hr.of_append with ⟨-, he, -⟩ | hr
    · simp at he
    · exact hm.threw w a k hr

omit [DecidableEq T] in
/-- An open call without a mate may throw. -/
theorem Matching.failed (hm : Matching h mate) (hp : Open h p t x) (hmp : mate p = none) :
    Matching (h ++ [.ret t .threw]) mate := by
  refine ⟨hm.symm, ?_, ?_, ?_⟩
  · intro a b hab
    obtain ⟨w, z, w', z', hne, ha, hb, hret⟩ := hm.pair a b hab
    refine ⟨w, z, w', z', hne, getElem?_append_of_some ha, getElem?_append_of_some hb, ?_⟩
    intro k o hr
    rcases hr.of_append with ⟨-, he, z'', ho⟩ | hr
    · obtain ⟨rfl, -⟩ : t = w ∧ .threw = o := by simpa using he
      obtain ⟨rfl, -⟩ := hp.unique ho
      rw [hmp] at hab
      cases hab
    · exact hret k o hr
  · intro w a k r hr
    rcases hr.of_append with ⟨-, he, -⟩ | hr
    · simp at he
    · exact hm.returned w a k r hr
  · intro w a k hr
    rcases hr.of_append with ⟨-, he, z, ho⟩ | hr
    · obtain rfl : t = w := by simpa using he
      rwa [← (hp.unique ho).1]
    · exact hm.threw w a k hr

end Matching

/-! ### Runs of the rendezvous -/

namespace Stage.Fits
variable {h : List (Event T I (Outcome I))} {mate : ℕ → Option ℕ} {t u : T} {x : I} {p q : ℕ}
  {a : Stage I}

omit [DecidableEq T] in
/-- An event of another thread changes nothing for `t`. -/
theorem append {e : Event T I (Outcome I)} (hf : a.Fits h mate t) (he : e.thread ≠ t) :
    a.Fits (h ++ [e]) mate t := by
  cases a with
  | idle =>
    intro p x ho
    rcases ho.of_append with ⟨-, rfl⟩ | ho
    · exact he rfl
    · exact hf p x ho.1
  | offering x =>
    obtain ⟨p, ho, hp⟩ := hf
    exact ⟨p, ho.append he, hp⟩
  | owed r =>
    obtain ⟨p, x, q, u, ho, hp, hq⟩ := hf
    exact ⟨p, x, q, u, ho.append he, hp, getElem?_append_of_some hq⟩
  | failed =>
    obtain ⟨p, x, ho, hp⟩ := hf
    exact ⟨p, x, ho.append he, hp⟩

omit [DecidableEq T] in
/-- A new mate for another thread's call changes nothing for `t`. -/
theorem update {b : Option ℕ} (hf : a.Fits h mate t) (hq : Open h q u x) (hu : u ≠ t) :
    a.Fits h (Function.update mate q b) t := by
  have hne : ∀ {p y}, Open h p t y → p ≠ q := by
    rintro p y ho rfl
    exact hu (call_inj hq.1 ho.1).1
  cases a with
  | idle => exact hf
  | offering y =>
    obtain ⟨p, ho, hp⟩ := hf
    exact ⟨p, ho, by rwa [Function.update_of_ne (hne ho)]⟩
  | owed r =>
    obtain ⟨p, y, q', w, ho, hp, hq'⟩ := hf
    exact ⟨p, y, q', w, ho, by rwa [Function.update_of_ne (hne ho)], hq'⟩
  | failed =>
    obtain ⟨p, y, ho, hp⟩ := hf
    exact ⟨p, y, ho, by rwa [Function.update_of_ne (hne ho)]⟩

end Stage.Fits

section Runs
variable {h : List (Event T I (Outcome I))} {mate : ℕ → Option ℕ} {v w : T → Stage I} {t u : T}
  {x y : I}

omit [DecidableEq T] in
theorem Matched.initial : Matched ([] : List (Event T I (Outcome I))) (fun _ : T => .idle) fun _ => none :=
  ⟨.nil, fun _ _ _ ho => absurd ho.lt (Nat.not_lt_zero _)⟩

omit [DecidableEq T] in
/-- A thread whose open call has a mate is owed the item of the mate. -/
theorem Matched.owed {p q : ℕ} (hm : Matched h v mate) (hpq : mate p = some q) (hp : Open h p t x)
    (hq : h[q]? = some (.call u y)) : v t = .owed y := by
  have hf := hm.fits t
  cases hs : v t with
  | idle =>
    rw [hs] at hf
    exact absurd hp (hf p x)
  | offering z =>
    rw [hs] at hf
    obtain ⟨p', hp', hnone⟩ := hf
    rw [← (hp.unique hp').1, hpq] at hnone
    cases hnone
  | owed r =>
    rw [hs] at hf
    obtain ⟨p', z, q', w, hp', hpq', hq'⟩ := hf
    rw [← (hp.unique hp').1, hpq] at hpq'
    obtain rfl := Option.some.inj hpq'
    rw [(call_inj hq hq').2]
  | failed =>
    rw [hs] at hf
    obtain ⟨p', z, hp', hnone⟩ := hf
    rw [← (hp.unique hp').1, hpq] at hnone
    cases hnone

theorem Matched.call (hm : Matched h v mate) (t : T) (x : I) :
    Matched (h ++ [.call t x]) (Function.update v t (.offering x)) mate := by
  refine ⟨hm.matching.call t x, fun u => ?_⟩
  by_cases hu : u = t
  · subst hu
    rw [Function.update_self]
    refine ⟨h.length, open_call h u x, ?_⟩
    rw [← Option.not_isSome_iff_eq_none, Option.isSome_iff_exists]
    rintro ⟨q, hq⟩
    exact absurd (hm.matching.lt hq) (Nat.lt_irrefl _)
  · rw [Function.update_of_ne hu]
    exact (hm.fits u).append (Ne.symm hu)

theorem Matched.meet (hm : Matched h v mate) (htu : t ≠ u) (ht : v t = .offering x)
    (hu : v u = .offering y) : ∃ mate', Matched h (meet v t u x y) mate' ∧
      ∀ p q, mate p = some q → mate' p = some q := by
  obtain ⟨p, hp, hmp⟩ : (Stage.offering x).Fits h mate t := ht ▸ hm.fits t
  obtain ⟨q, hq, hmq⟩ : (Stage.offering y).Fits h mate u := hu ▸ hm.fits u
  have hpq : p ≠ q := by
    rintro rfl
    exact htu (call_inj hp.1 hq.1).1
  refine ⟨_, ⟨hm.matching.meet htu hp hq hmp hmq, fun w => ?_⟩, fun a b hab => ?_⟩
  · unfold Exchange.meet
    by_cases hwu : w = u
    · subst hwu
      rw [Function.update_self]
      exact ⟨q, y, p, t, hq, Function.update_self .., hp.1⟩
    · rw [Function.update_of_ne hwu]
      by_cases hwt : w = t
      · subst hwt
        rw [Function.update_self]
        refine ⟨p, x, q, u, hp, ?_, hq.1⟩
        rw [Function.update_of_ne hpq]
        exact Function.update_self ..
      · rw [Function.update_of_ne hwt]
        exact ((hm.fits w).update hp (Ne.symm hwt)).update hq (Ne.symm hwu)
  · have hap : a ≠ p := fun h => by simp_all
    have haq : a ≠ q := fun h => by simp_all
    rwa [Function.update_of_ne haq, Function.update_of_ne hap]

theorem Matched.fail (hm : Matched h v mate) (ht : v t = .offering x) :
    Matched h (Function.update v t .failed) mate := by
  refine ⟨hm.matching, fun u => ?_⟩
  by_cases hu : u = t
  · subst hu
    obtain ⟨p, hp, hmp⟩ : (Stage.offering x).Fits h mate u := ht ▸ hm.fits u
    rw [Function.update_self]
    exact ⟨p, x, hp, hmp⟩
  · rw [Function.update_of_ne hu]
    exact hm.fits u

theorem Matched.ret {o : Outcome I} (hm : Matched h v mate) (ht : (v t).outcome = some o) :
    Matched (h ++ [.ret t o]) (Function.update v t .idle) mate := by
  refine ⟨?_, fun u => ?_⟩
  · have hf := hm.fits t
    cases hs : v t <;> rw [hs] at hf ht <;> cases ht
    · obtain ⟨p, x, q, w, hp, hpq, hq⟩ := hf
      exact hm.matching.owed hp hpq hq
    · obtain ⟨p, x, hp, hmp⟩ := hf
      exact hm.matching.failed hp hmp
  · by_cases hu : u = t
    · subst hu
      rw [Function.update_self]
      intro p x ho
      rcases ho.of_append with ⟨-, he⟩ | ho
      · cases he
      · exact ho.2 rfl
    · rw [Function.update_of_ne hu]
      exact (hm.fits u).append (Ne.symm hu)

theorem Matched.step {a : Rendezvous.Act T I} (hm : Matched h v mate) (ha : Rendezvous.step v a = some w) :
    ∃ mate', Matched (h ++ Rendezvous.shows v a) w mate' ∧ ∀ p q, mate p = some q → mate' p = some q := by
  cases a with
  | call t x =>
    simp only [Rendezvous.step] at ha
    split at ha <;> cases ha
    exact ⟨mate, hm.call t x, fun _ _ h => h⟩
  | meet t u =>
    simp only [Rendezvous.step] at ha
    split at ha
    · rename_i x y ht hu
      split at ha <;> cases ha
      rename_i htu
      simpa only [Rendezvous.shows, List.append_nil] using hm.meet htu ht hu
    · cases ha
  | fail t =>
    simp only [Rendezvous.step] at ha
    split at ha <;> cases ha
    rename_i x ht
    exact ⟨mate, by simpa only [Rendezvous.shows, List.append_nil] using hm.fail ht, fun _ _ h => h⟩
  | ret t =>
    simp only [Rendezvous.step, Option.map_eq_some_iff] at ha
    obtain ⟨o, ho, rfl⟩ := ha
    simp only [Rendezvous.shows, ho, Option.map_some, Option.toList_some]
    exact ⟨mate, hm.ret ho, fun _ _ h => h⟩

/-- A run of the rendezvous extends the matching it begins with. -/
theorem Matched.run {k : List (Event T I (Outcome I))} (hm : Matched h v mate)
    (hr : Run (rendezvous T I) Free v k w) :
    ∃ mate', Matched (h ++ k) w mate' ∧ ∀ p q, mate p = some q → mate' p = some q := by
  induction hr with
  | refl => exact ⟨mate, by simpa using hm, fun _ _ h => h⟩
  | tail _ _ ha ih =>
    obtain ⟨mate', hm', hle⟩ := ih
    obtain ⟨mate'', hm'', hle'⟩ := hm'.step ha
    rw [← List.append_assoc]
    exact ⟨mate'', hm'', fun p q h => hle' p q (hle p q h)⟩

end Runs

end Multicore.Exchange
