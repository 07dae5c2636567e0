import Multicore.Runs.Program
import Mathlib.Data.List.Basic
import Mathlib.Data.List.Pairwise
import Mathlib.Data.List.Nodup

/-! Linearizability. The history of an object is the list of the calls and returns
of its threads, and a call is named by its position there. A history is
linearizable when the calls that returned, and perhaps some that did not, can be put
into one order in which the sequential object gives the results that were seen, and
in which no call comes after one that it returned before. The atomic object executes
each operation in one action between its call and its return; its histories are
linearizable, and so are those of every program that it simulates. -/

namespace Multicore.Runs

/-- What an observer of an object sees of its threads. -/
inductive Event (T Op Res : Type*)
  | call (t : T) (op : Op)
  | ret (t : T) (r : Res)
  deriving DecidableEq

/-- A sequential object: where it starts and what an operation does to it. -/
structure Object (S Op Res : Type*) where
  init : S
  apply : S → Op → S × Res

variable {T Op Res S : Type*}

def Event.thread : Event T Op Res → T
  | .call t _ | .ret t _ => t

/-! ### Calls in a history -/

section History
variable {h : List (Event T Op Res)} {p q : ℕ} {t : T} {op : Op} {r : Res} {e : Event T Op Res}

/-- The last event of `t` is the call of `op` at position `p`. -/
def Open (h : List (Event T Op Res)) (p : ℕ) (t : T) (op : Op) : Prop :=
  h[p]? = some (.call t op) ∧ ∀ k e, p < k → h[k]? = some e → e.thread ≠ t

/-- The call of `t` at position `p` returns `r` at position `q`. -/
def Returns (h : List (Event T Op Res)) (t : T) (p q : ℕ) (r : Res) : Prop :=
  p < q ∧ h[q]? = some (.ret t r) ∧ (∃ op, h[p]? = some (.call t op)) ∧
    ∀ k e, p < k → k < q → h[k]? = some e → e.thread ≠ t

theorem Open.lt (ho : Open h p t op) : p < h.length := (List.getElem?_eq_some_iff.mp ho.1).1

theorem Returns.lt (hr : Returns h t p q r) : q < h.length := (List.getElem?_eq_some_iff.mp hr.2.1).1

theorem call_inj {u : T} {op' : Op} (hp : h[p]? = some (.call t op)) (hp' : h[p]? = some (.call u op')) :
    t = u ∧ op = op' := by
  simpa using hp.symm.trans hp'

theorem Open.not_returns {u : T} (ho : Open h p t op) : ¬ Returns h u p q r := by
  rintro ⟨hlt, hq, ⟨op', hop'⟩, -⟩
  obtain ⟨rfl, -⟩ := call_inj ho.1 hop'
  exact ho.2 q _ hlt hq rfl

/-- A thread has at most one open call. -/
theorem Open.unique {p' : ℕ} {op' : Op} (ho : Open h p t op) (ho' : Open h p' t op') :
    p = p' ∧ op = op' := by
  rcases Nat.lt_trichotomy p p' with hlt | rfl | hlt
  · exact absurd rfl (ho.2 p' _ hlt ho'.1)
  · exact ⟨rfl, (call_inj ho.1 ho'.1).2⟩
  · exact absurd rfl (ho'.2 p _ hlt ho.1)

theorem getElem?_append_of_some {k : List (Event T Op Res)} (hp : h[p]? = some e) :
    (h ++ k)[p]? = some e := by
  rw [List.getElem?_append_left (List.getElem?_eq_some_iff.mp hp).1, hp]

theorem Returns.append (k : List (Event T Op Res)) (hr : Returns h t p q r) :
    Returns (h ++ k) t p q r := by
  refine ⟨hr.1, getElem?_append_of_some hr.2.1, ?_, ?_⟩
  · obtain ⟨op, hop⟩ := hr.2.2.1
    exact ⟨op, getElem?_append_of_some hop⟩
  · intro j e hj hjq he
    rw [List.getElem?_append_left (Nat.lt_trans hjq hr.lt)] at he
    exact hr.2.2.2 j e hj hjq he

/-- A new event keeps the open calls of the other threads open. -/
theorem Open.append (ho : Open h p t op) (he : e.thread ≠ t) : Open (h ++ [e]) p t op := by
  refine ⟨getElem?_append_of_some ho.1, ?_⟩
  intro k f hk hf
  rcases Nat.lt_or_ge k h.length with hlt | hge
  · rw [List.getElem?_append_left hlt] at hf
    exact ho.2 k f hk hf
  · rw [List.getElem?_append_right hge, List.getElem?_singleton] at hf
    split at hf
    · rw [← Option.some.inj hf]
      exact he
    · cases hf

theorem open_call (h : List (Event T Op Res)) (t : T) (op : Op) :
    Open (h ++ [.call t op]) h.length t op := by
  refine ⟨by simp, ?_⟩
  intro k f hk hf
  rw [List.getElem?_eq_none (by simpa using Nat.succ_le_of_lt hk)] at hf
  cases hf

/-- An open call after a new event is either that event or was open before. -/
theorem Open.of_append (ho : Open (h ++ [e]) p t op) :
    (p = h.length ∧ e = .call t op) ∨ (Open h p t op ∧ e.thread ≠ t) := by
  rcases Nat.lt_or_ge p h.length with hlt | hge
  · have hp := ho.1
    rw [List.getElem?_append_left hlt] at hp
    refine .inr ⟨⟨hp, ?_⟩, ho.2 h.length e hlt (by simp)⟩
    intro k f hk hf
    exact ho.2 k f hk (getElem?_append_of_some hf)
  · have hp := ho.1
    rw [List.getElem?_append_right hge, List.getElem?_singleton] at hp
    split at hp
    · exact .inl ⟨by omega, Option.some.inj hp⟩
    · cases hp

theorem Open.returns (ho : Open h p t op) (r : Res) :
    Returns (h ++ [.ret t r]) t p h.length r := by
  refine ⟨ho.lt, by simp, ⟨op, getElem?_append_of_some ho.1⟩, ?_⟩
  intro k e hk hlt he
  rw [List.getElem?_append_left hlt] at he
  exact ho.2 k e hk he

/-- A return after a new event is either that event, closing an open call, or was there before. -/
theorem Returns.of_append (hr : Returns (h ++ [e]) t p q r) :
    (q = h.length ∧ e = .ret t r ∧ ∃ op, Open h p t op) ∨ Returns h t p q r := by
  obtain ⟨hlt, hq, ⟨op, hp⟩, hbetween⟩ := hr
  have hle : q ≤ h.length := by
    have := (List.getElem?_eq_some_iff.mp hq).1
    simpa [Nat.lt_succ_iff] using this
  rw [List.getElem?_append_left (Nat.lt_of_lt_of_le hlt hle)] at hp
  have hold : ∀ k f, p < k → k < q → h[k]? = some f → f.thread ≠ t := fun k f hk hkq hf =>
    hbetween k f hk hkq (getElem?_append_of_some hf)
  rcases Nat.lt_or_eq_of_le hle with hqlt | rfl
  · rw [List.getElem?_append_left hqlt] at hq
    exact .inr ⟨hlt, hq, ⟨op, hp⟩, hold⟩
  · refine .inl ⟨rfl, by simpa using hq, op, hp, ?_⟩
    intro k f hk hf
    exact hold k f hk (List.getElem?_eq_some_iff.mp hf).1 hf

instance [DecidableEq T] (e : Event T Op Res) (t : T) : Decidable (∃ op, e = .call t op) :=
  match e with
  | .call u op => decidable_of_iff (u = t) ⟨fun h => ⟨op, h ▸ rfl⟩, fun ⟨_, h⟩ => (Event.call.inj h).1⟩
  | .ret _ _ => isFalse nofun

instance [DecidableEq T] [DecidableEq Res] [DecidableEq Op] : Decidable (Returns h t p q r) :=
  decidable_of_iff (p < q ∧ h[q]? = some (.ret t r) ∧ (∃ e ∈ h[p]?, ∃ op, e = .call t op) ∧
      ∀ k < q, p < k → ∀ e ∈ h[k]?, e.thread ≠ t) <| by
    refine and_congr Iff.rfl (and_congr Iff.rfl (and_congr ⟨?_, ?_⟩ ⟨?_, ?_⟩))
    · rintro ⟨e, he, op, rfl⟩
      exact ⟨op, he⟩
    · rintro ⟨op, hop⟩
      exact ⟨_, hop, op, rfl⟩
    · exact fun hb k e hk hkq he => hb k hkq hk e he
    · exact fun hb k hkq hk e he => hb k e hk hkq he

end History

/-! ### Linearizable histories -/

/-- The calls in `L`, executed in that order by `O`, have the results in `L` and lead to `x`. -/
inductive Legal (O : Object S Op Res) (h : List (Event T Op Res)) : List (ℕ × Res) → S → Prop
  | nil : Legal O h [] O.init
  | snoc {L : List (ℕ × Res)} {x : S} {p : ℕ} {t : T} {op : Op} : Legal O h L x →
      h[p]? = some (.call t op) → Legal O h (L ++ [(p, (O.apply x op).2)]) (O.apply x op).1

/-- `L` is a linearization of `h` that leaves the object in `x`. -/
structure Linearization (O : Object S Op Res) (h : List (Event T Op Res)) (L : List (ℕ × Res))
    (x : S) : Prop where
  legal : Legal O h L x
  nodup : (L.map Prod.fst).Nodup
  complete : ∀ t p q r, Returns h t p q r → (p, r) ∈ L
  order : L.Pairwise fun a b => ∀ t q r, Returns h t b.1 q r → a.1 < q

def Linearizable (O : Object S Op Res) (h : List (Event T Op Res)) : Prop :=
  ∃ L x, Linearization O h L x

section Linearization
variable {O : Object S Op Res} {h : List (Event T Op Res)} {L : List (ℕ × Res)} {x : S} {t : T}
  {op : Op} {p : ℕ}

theorem Legal.append (hl : Legal O h L x) (k : List (Event T Op Res)) : Legal O (h ++ k) L x := by
  induction hl with
  | nil => exact .nil
  | snoc _ hp ih => exact ih.snoc (getElem?_append_of_some hp)

theorem Legal.lt_length (hl : Legal O h L x) : ∀ a ∈ L, a.1 < h.length := by
  induction hl with
  | nil => nofun
  | snoc _ hp ih =>
    intro a ha
    rcases List.mem_append.mp ha with ha | ha
    · exact ih a ha
    · rw [List.mem_singleton.mp ha]
      exact (List.getElem?_eq_some_iff.mp hp).1

/-- Every call in a legal order found the object in a state that the calls before it led to. -/
theorem Legal.entry {r : Res} (hl : Legal O h L x) (hm : (p, r) ∈ L) :
    ∃ L₁ L₂ y t op, L = L₁ ++ (p, r) :: L₂ ∧ Legal O h L₁ y ∧ h[p]? = some (.call t op) ∧
      r = (O.apply y op).2 := by
  induction hl with
  | nil => cases hm
  | @snoc L x p' t op hl hp ih =>
    rcases List.mem_append.mp hm with hm | hm
    · obtain ⟨L₁, L₂, y, u, op', rfl, h1, h2, h3⟩ := ih hm
      exact ⟨L₁, L₂ ++ [(p', (O.apply x op).2)], y, u, op', by simp, h1, h2, h3⟩
    · have he := List.mem_singleton.mp hm
      simp only [Prod.mk.injEq] at he
      obtain ⟨rfl, rfl⟩ := he
      exact ⟨L, [], x, t, op, rfl, hl, hp, rfl⟩

/-- A call has one result. -/
theorem Linearization.result_unique {r r' : Res} (hl : Linearization O h L x) (hm : (p, r) ∈ L)
    (hm' : (p, r') ∈ L) : r = r' :=
  congrArg Prod.snd (List.inj_on_of_nodup_map hl.nodup hm hm' rfl)

/-- A call that returned before another call comes before it. -/
theorem Linearization.before {L₁ L₂ : List (ℕ × Res)} {q p' : ℕ} {r r' : Res}
    (hl : Linearization O h (L₁ ++ (p', r') :: L₂) x) (hr : Returns h t p q r) (hq : q ≤ p') :
    (p, r) ∈ L₁ := by
  rcases List.mem_append.mp (hl.complete t p q r hr) with hm | hm
  · exact hm
  · have hpq := hr.1
    rcases List.mem_cons.mp hm with he | hm
    · simp only [Prod.mk.injEq] at he
      omega
    · have hp' := (List.pairwise_cons.mp (List.pairwise_append.mp hl.order).2.1).1 (p, r) hm t q r hr
      exact absurd hq (Nat.not_le.mpr hp')

theorem Linearization.nil (O : Object S Op Res) :
    Linearization O ([] : List (Event T Op Res)) [] O.init :=
  ⟨.nil, List.nodup_nil, fun _ _ _ _ hr => absurd hr.lt (Nat.not_lt_zero _), .nil⟩

theorem Linearization.call (hl : Linearization O h L x) (t : T) (op : Op) :
    Linearization O (h ++ [.call t op]) L x := by
  have hold : ∀ {u p q r}, Returns (h ++ [.call t op]) u p q r → Returns h u p q r := by
    intro u p q r hr
    rcases hr.of_append with ⟨-, he, -⟩ | hr
    · cases he
    · exact hr
  exact ⟨hl.legal.append _, hl.nodup, fun u p q r hr => hl.complete u p q r (hold hr),
    hl.order.imp fun hab u q r hr => hab u q r (hold hr)⟩

/-- An open call is executed at the end of the order. -/
theorem Linearization.execute (hl : Linearization O h L x) (ho : Open h p t op)
    (hp : p ∉ L.map Prod.fst) :
    Linearization O h (L ++ [(p, (O.apply x op).2)]) (O.apply x op).1 := by
  refine ⟨hl.legal.snoc ho.1, ?_, ?_, ?_⟩
  · rw [List.map_append, List.nodup_append]
    refine ⟨hl.nodup, List.nodup_singleton _, fun a ha b hb => ?_⟩
    rw [List.mem_singleton.mp hb]
    rintro rfl
    exact hp ha
  · intro u p' q r hr
    exact List.mem_append_left _ (hl.complete u p' q r hr)
  · refine List.pairwise_append.mpr ⟨hl.order, List.pairwise_singleton _ _, ?_⟩
    intro a _ b hb u q r hr
    rw [List.mem_singleton.mp hb] at hr
    exact absurd hr ho.not_returns

theorem Linearization.ret {r : Res} (hl : Linearization O h L x) (ho : Open h p t op)
    (hp : (p, r) ∈ L) : Linearization O (h ++ [.ret t r]) L x := by
  refine ⟨hl.legal.append _, hl.nodup, ?_, ?_⟩
  · intro u p' q r' hr
    rcases hr.of_append with ⟨-, he, op', ho'⟩ | hr
    · simp only [Event.ret.injEq] at he
      obtain ⟨rfl, rfl⟩ := he
      rwa [← (ho.unique ho').1]
    · exact hl.complete u p' q r' hr
  · have hlt := hl.legal.lt_length
    refine hl.order.imp_of_mem fun {a b} ha _ hab u q r' hr => ?_
    rcases hr.of_append with ⟨rfl, -, -⟩ | hr
    · exact hlt a ha
    · exact hab u q r' hr

end Linearization

/-! ### The atomic object -/

/-- Where a thread stands between its call and its return. -/
inductive Status (Op Res : Type*)
  | idle | pending (op : Op) | done (r : Res)

/-- A thread calls, its operation is executed, it returns. -/
inductive Act (T Op : Type*)
  | call (t : T) (op : Op) | execute (t : T) | ret (t : T)

/-- A sequential object together with the threads that use it. -/
@[ext] structure Atomic (T S Op Res : Type*) where
  obj : S
  status : T → Status Op Res

section Atomic
variable [DecidableEq T]

def Atomic.goto (s : Atomic T S Op Res) (t : T) (a : Status Op Res) : Atomic T S Op Res :=
  { s with status := Function.update s.status t a }

def Atomic.step (O : Object S Op Res) (s : Atomic T S Op Res) : Act T Op → Option (Atomic T S Op Res)
  | .call t op => match s.status t with
    | .idle => some (s.goto t (.pending op))
    | _ => none
  | .execute t => match s.status t with
    | .pending op => some { s.goto t (.done (O.apply s.obj op).2) with obj := (O.apply s.obj op).1 }
    | _ => none
  | .ret t => match s.status t with
    | .done _ => some (s.goto t .idle)
    | _ => none

def Atomic.shows (s : Atomic T S Op Res) : Act T Op → List (Event T Op Res)
  | .call t op => [.call t op]
  | .execute _ => []
  | .ret t => match s.status t with
    | .done r => [.ret t r]
    | _ => []

/-- The program in which every operation takes effect in one action. -/
def atomic (T : Type*) [DecidableEq T] (O : Object S Op Res) :
    Program (Atomic T S Op Res) (Act T Op) (Event T Op Res) := ⟨Atomic.step O, Atomic.shows⟩

def Atomic.initial (T : Type*) (O : Object S Op Res) : Atomic T S Op Res := ⟨O.init, fun _ => .idle⟩

variable {O : Object S Op Res} {s : Atomic T S Op Res} {t : T} {op : Op} {r : Res}

theorem atomic_call (hs : s.status t = .idle) :
    Run (atomic T O) Free s [.call t op] (s.goto t (.pending op)) :=
  Run.single (P := atomic T O) (a := .call t op) trivial (by simp only [atomic, Atomic.step, hs])

theorem atomic_execute (hs : s.status t = .pending op) :
    Run (atomic T O) Free s []
      ⟨(O.apply s.obj op).1, Function.update s.status t (.done (O.apply s.obj op).2)⟩ :=
  Run.single (P := atomic T O) (a := .execute t) trivial
    (by simp only [atomic, Atomic.step, hs, Atomic.goto])

theorem atomic_ret (hs : s.status t = .done r) :
    Run (atomic T O) Free s [.ret t r] (s.goto t .idle) := by
  have := Run.single (P := atomic T O) (C := Free) (s := s) (a := .ret t) (u := s.goto t .idle) trivial
    (by simp only [atomic, Atomic.step, hs])
  simpa only [atomic, Atomic.shows, hs] using this

/-- A thread calls, its operation is executed, or it returns; the others stay where they are. -/
theorem Atomic.step_cases {b : Act T Op} {u : Atomic T S Op Res} (hb : Atomic.step O s b = some u) :
    ∃ t, (∀ v, v ≠ t → u.status v = s.status v) ∧
      ((∃ op, Atomic.shows s b = [.call t op] ∧ s.status t = .idle ∧ u.status t = .pending op ∧
        u.obj = s.obj) ∨
      (∃ op, Atomic.shows s b = [] ∧ s.status t = .pending op ∧
        u.status t = .done (O.apply s.obj op).2 ∧ u.obj = (O.apply s.obj op).1) ∨
      (∃ r, Atomic.shows s b = [.ret t r] ∧ s.status t = .done r ∧ u.status t = .idle ∧ u.obj = s.obj)) := by
  cases b with
  | call t op =>
    cases hs : s.status t <;> simp only [Atomic.step, hs, Option.some.injEq, reduceCtorEq] at hb
    subst hb
    exact ⟨t, fun v hv => Function.update_of_ne hv .., .inl ⟨op, rfl, hs, Function.update_self .., rfl⟩⟩
  | execute t =>
    cases hs : s.status t <;> simp only [Atomic.step, hs, Option.some.injEq, reduceCtorEq] at hb
    subst hb
    exact ⟨t, fun v hv => Function.update_of_ne hv ..,
      .inr (.inl ⟨_, rfl, hs, Function.update_self .., rfl⟩)⟩
  | ret t =>
    cases hs : s.status t <;> simp only [Atomic.step, hs, Option.some.injEq, reduceCtorEq] at hb
    subst hb
    exact ⟨t, fun v hv => Function.update_of_ne hv ..,
      .inr (.inr ⟨_, by simp only [Atomic.shows, hs], hs, Function.update_self .., rfl⟩)⟩

/-- What the status of `t` says about its open call and the linearization `L`. -/
def Status.Fits (h : List (Event T Op Res)) (L : List (ℕ × Res)) (t : T) : Status Op Res → Prop
  | .idle => ∀ p op, ¬ Open h p t op
  | .pending op => ∃ p, Open h p t op ∧ p ∉ L.map Prod.fst
  | .done r => ∃ p op, Open h p t op ∧ (p, r) ∈ L

namespace Status.Fits
variable {h : List (Event T Op Res)} {L : List (ℕ × Res)} {a : Status Op Res} {u : T}

omit [DecidableEq T] in
/-- An event of another thread leaves the open call and its place in the order. -/
theorem append {e : Event T Op Res} (hf : a.Fits h L u) (he : e.thread ≠ u) :
    a.Fits (h ++ [e]) L u := by
  cases a with
  | idle =>
    intro p op ho
    rcases ho.of_append with ⟨-, rfl⟩ | ho
    · exact he rfl
    · exact hf p op ho.1
  | pending op =>
    obtain ⟨p, ho, hp⟩ := hf
    exact ⟨p, ho.append he, hp⟩
  | done r =>
    obtain ⟨p, op, ho, hp⟩ := hf
    exact ⟨p, op, ho.append he, hp⟩

omit [DecidableEq T] in
/-- The execution of another thread's call leaves the status of `u` in place. -/
theorem execute {p : ℕ} {t : T} {op : Op} {r : Res} (hf : a.Fits h L u) (ho : Open h p t op)
    (hu : t ≠ u) : a.Fits h (L ++ [(p, r)]) u := by
  cases a with
  | idle => exact hf
  | pending op' =>
    obtain ⟨p', ho', hp'⟩ := hf
    refine ⟨p', ho', ?_⟩
    rw [List.map_append, List.mem_append]
    rintro (hmem | hmem)
    · exact hp' hmem
    · rw [List.mem_singleton.mp hmem] at ho'
      exact hu (call_inj ho.1 ho'.1).1
  | done r' =>
    obtain ⟨p', op', ho', hp'⟩ := hf
    exact ⟨p', op', ho', List.mem_append_left _ hp'⟩

end Status.Fits

/-- The history so far has a linearization that every thread's status fits. -/
def Atomic.Inv (O : Object S Op Res) (h : List (Event T Op Res)) (s : Atomic T S Op Res) : Prop :=
  ∃ L, Linearization O h L s.obj ∧ ∀ t, (s.status t).Fits h L t

omit [DecidableEq T] in
theorem Atomic.Inv.initial (O : Object S Op Res) : Atomic.Inv O [] (Atomic.initial T O) :=
  ⟨[], .nil O, fun _ _ _ ho => absurd ho.lt (Nat.not_lt_zero _)⟩

theorem Atomic.Inv.step {h : List (Event T Op Res)} {a : Act T Op} {u : Atomic T S Op Res}
    (hi : Atomic.Inv O h s) (ha : Atomic.step O s a = some u) :
    Atomic.Inv O (h ++ Atomic.shows s a) u := by
  obtain ⟨L, hl, hfit⟩ := hi
  cases a with
  | call t op =>
    cases hs : s.status t <;> simp only [Atomic.step, hs, Option.some.injEq, reduceCtorEq] at ha
    subst ha
    refine ⟨L, hl.call t op, fun v => ?_⟩
    by_cases hv : t = v
    · subst hv
      simp only [Atomic.goto, Function.update_self]
      refine ⟨h.length, open_call h t op, fun hmem => ?_⟩
      obtain ⟨a, ha, hlen⟩ := List.mem_map.mp hmem
      exact absurd (hl.legal.lt_length a ha) (by omega)
    · simp only [Atomic.goto, Function.update_of_ne (Ne.symm hv)]
      exact (hfit v).append hv
  | execute t =>
    cases hs : s.status t <;> simp only [Atomic.step, hs, Option.some.injEq, reduceCtorEq] at ha
    subst ha
    have ht := hfit t
    rw [hs] at ht
    obtain ⟨p, ho, hp⟩ := ht
    simp only [Atomic.shows, List.append_nil]
    refine ⟨_, hl.execute ho hp, fun v => ?_⟩
    by_cases hv : t = v
    · subst hv
      simp only [Atomic.goto, Function.update_self]
      exact ⟨p, _, ho, by simp⟩
    · simp only [Atomic.goto, Function.update_of_ne (Ne.symm hv)]
      exact (hfit v).execute ho hv
  | ret t =>
    cases hs : s.status t <;> simp only [Atomic.step, hs, Option.some.injEq, reduceCtorEq] at ha
    subst ha
    have ht := hfit t
    rw [hs] at ht
    obtain ⟨p, op, ho, hp⟩ := ht
    simp only [Atomic.shows, hs]
    refine ⟨L, hl.ret ho hp, fun v => ?_⟩
    by_cases hv : t = v
    · subst hv
      simp only [Atomic.goto, Function.update_self]
      intro p' op' ho'
      rcases ho'.of_append with ⟨-, he⟩ | ho'
      · cases he
      · exact ho'.2 rfl
    · simp only [Atomic.goto, Function.update_of_ne (Ne.symm hv)]
      exact (hfit v).append hv

/-- Every history of the atomic object is linearizable. -/
theorem linearizable_of_atomic {h : List (Event T Op Res)}
    (hr : Run (atomic T O) Free (Atomic.initial T O) h s) : Linearizable O h := by
  obtain ⟨L, hl, -⟩ := hr.invariant (I := Atomic.Inv O) (Atomic.Inv.initial O)
    (fun _ _ _ _ hi _ ha => hi.step ha)
  exact ⟨L, s.obj, hl⟩

end Atomic

end Multicore.Runs
