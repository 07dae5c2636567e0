import Multicore.Runs.Linearizable
import Mathlib.Logic.Function.Basic
import Mathlib.Logic.Equiv.Basic
import Mathlib.Tactic.Common

/-! Stacks as linked chains. The sequential stack is a list; in memory it is the
chain of `next` fields from a head pointer. Threads push and pop with a
compare-and-swap on the head, and each carries what it has read across the steps of
its attempt; two threads may also deal with each other directly. The program
`treiber` has these steps and nothing else. `Treiber` says when what the threads carry
is good enough for a swap to be a push or a pop: a node that is being pushed is in no
chain and nobody else has its hands on it, and a field that a thread has read or
written still has that value. -/

namespace Multicore.Stacks

open Runs

variable {N T : Type*}

inductive Op (N : Type*)
  | push (n : N) | pop
  deriving DecidableEq

/-- A pop of the empty stack gives `popped none`. -/
inductive Res (N : Type*)
  | pushed | popped (r : Option N)
  deriving DecidableEq

/-- The last-in first-out stack. -/
def lifo (N : Type*) : Object (List N) (Op N) (Res N) where
  init := []
  apply
    | l, .push n => (n :: l, .pushed)
    | [], .pop => ([], .popped none)
    | n :: l, .pop => (l, .popped (some n))

/-! ### Chains -/

/-- The nodes of `l` are what `next` leads through from `p` to the null pointer. -/
def Chain (next : N → Option N) : Option N → List N → Prop
  | p, [] => p = none
  | p, n :: l => p = some n ∧ Chain next (next n) l

section Chain
variable {next : N → Option N} {p : Option N} {l k : List N} {n : N}

theorem Chain.unique (hl : Chain next p l) (hk : Chain next p k) : l = k := by
  induction l generalizing p k with
  | nil =>
    cases k with
    | nil => rfl
    | cons m k => exact absurd (hl.symm.trans hk.1) (by simp)
  | cons n l ih =>
    cases k with
    | nil => exact absurd (hk.symm.trans hl.1) (by simp)
    | cons m k =>
      have hnm : n = m := Option.some.inj (hl.1.symm.trans hk.1)
      subst hnm
      rw [ih hl.2 hk.2]

/-- From a node of the chain on, the chain goes on as a proper part of itself. -/
theorem Chain.of_mem (hl : Chain next p l) (hn : n ∈ l) :
    ∃ k, Chain next (next n) k ∧ k.length < l.length := by
  induction l generalizing p with
  | nil => cases hn
  | cons m l ih =>
    rcases List.mem_cons.mp hn with rfl | hmem
    · exact ⟨l, hl.2, Nat.lt_succ_self _⟩
    · obtain ⟨k, hk, hlt⟩ := ih hl.2 hmem
      exact ⟨k, hk, Nat.lt_succ_of_lt hlt⟩

theorem Chain.nodup (hl : Chain next p l) : l.Nodup := by
  induction l generalizing p with
  | nil => exact List.nodup_nil
  | cons n l ih =>
    refine List.nodup_cons.mpr ⟨fun hmem => ?_, ih hl.2⟩
    obtain ⟨k, hk, hlt⟩ := hl.2.of_mem hmem
    rw [hk.unique hl.2] at hlt
    exact Nat.lt_irrefl _ hlt

/-- A field outside the chain may change. -/
theorem Chain.update [DecidableEq N] (hl : Chain next p l) (hn : n ∉ l) (x : Option N) :
    Chain (Function.update next n x) p l := by
  induction l generalizing p with
  | nil => exact hl
  | cons m l ih =>
    rw [List.mem_cons, not_or] at hn
    refine ⟨hl.1, ?_⟩
    rw [Function.update_of_ne (Ne.symm hn.1)]
    exact ih hl.2 hn.2

/-- A node that nothing points to is in no chain. -/
theorem Chain.not_mem (hl : Chain next p l) (hp : p ≠ some n) (hn : ∀ m, next m ≠ some n) : n ∉ l := by
  induction l generalizing p with
  | nil => exact List.not_mem_nil
  | cons m l ih =>
    rw [List.mem_cons, not_or]
    refine ⟨?_, ih hl.2 (hn m)⟩
    rintro rfl
    exact hp hl.1

theorem Chain.eq_cons (hl : Chain next (some n) l) : l = n :: l.tail ∧ Chain next (next n) l.tail := by
  cases l with
  | nil => cases hl
  | cons m k =>
    obtain ⟨hm, hk⟩ := hl
    cases hm
    exact ⟨rfl, hk⟩

theorem Chain.eq_nil (hl : Chain next none l) : l = [] := by
  cases l with
  | nil => rfl
  | cons m k => cases hl.1

end Chain

/-! ### The threads of a stack -/

/-- Where a thread stands. A push has a node that is not in the chain, then has stored
what it read into its `next` field, and has its node taken over in the end. A pop
searches, has read a node from the head, has also read its `next` field, and has its
result in the end. -/
inductive View (N : Type*)
  | idle
  | placing (n : N) | linked (n : N) (x : Option N) | pushed
  | searching | loaded (n : N) | ready (n : N) (x : Option N) | popped (r : Option N)

namespace View

def enter : Op N → View N
  | .push n => .placing n
  | .pop => .searching

def result : View N → Option (Res N)
  | .pushed => some .pushed
  | .popped r => some (.popped r)
  | _ => none

def status : View N → Status (Op N) (Res N)
  | .idle => .idle
  | .placing n | .linked n _ => .pending (.push n)
  | .pushed => .done .pushed
  | .searching | .loaded _ | .ready _ _ => .pending .pop
  | .popped r => .done (.popped r)

/-- The node that waits to be pushed. -/
def pushes : View N → Option N
  | .placing n | .linked n _ => some n
  | _ => none

/-- The node that was read from the head. -/
def holds : View N → Option N
  | .loaded n | .ready n _ => some n
  | _ => none

/-- The field that is taken to have a certain value. -/
def knows : View N → Option (N × Option N)
  | .linked n x | .ready n x => some (n, x)
  | _ => none

theorem not_both {a : View N} {n m : N} (hn : a.pushes = some n) : a.holds ≠ some m := by
  cases a <;> simp_all [pushes, holds]

theorem of_knows {a : View N} {n : N} {x : Option N} (ha : a.knows = some (n, x)) :
    a = .linked n x ∨ a = .ready n x := by
  cases a <;> simp_all [knows]

end View

/-- The head pointer, the `next` fields and the threads. -/
structure Core (T N : Type*) where
  head : Option N
  next : N → Option N
  view : T → View N

inductive Core.Act (T N : Type*)
  | call (t : T) (op : Op N) | ret (t : T)
  | store (t : T) (x : Option N) | link (t : T) | retry (t : T)
  | empty (t : T) | load (t : T) | read (t : T) | drop (t : T) | unlink (t : T)
  | give (t u : T) | trade (t u : T)

/-- A step that `t` takes by itself between its call and its return. -/
def Core.Act.Alone (t : T) : Core.Act T N → Prop
  | .store u _ | .link u | .retry u | .empty u | .load u | .read u | .drop u | .unlink u => u = t
  | .call _ _ | .ret _ | .give _ _ | .trade _ _ => False

namespace Core

section Program
variable [DecidableEq T] [DecidableEq N]

def goto (c : Core T N) (t : T) (a : View N) : Core T N :=
  { c with view := Function.update c.view t a }

def step (c : Core T N) : Act T N → Option (Core T N)
  | .call t op => match c.view t with
    | .idle => some (c.goto t (.enter op))
    | _ => none
  | .ret t => (c.view t).result.map fun _ => c.goto t .idle
  | .store t x => match c.view t with
    | .placing n => some { c.goto t (.linked n x) with next := Function.update c.next n x }
    | _ => none
  | .link t => match c.view t with
    | .linked n x => if c.head = x then some { c.goto t .pushed with head := some n } else none
    | _ => none
  | .retry t => match c.view t with
    | .linked n _ => some (c.goto t (.placing n))
    | _ => none
  | .empty t => match c.view t, c.head with
    | .searching, none => some (c.goto t (.popped none))
    | _, _ => none
  | .load t => match c.view t, c.head with
    | .searching, some n => some (c.goto t (.loaded n))
    | _, _ => none
  | .read t => match c.view t with
    | .loaded n => some (c.goto t (.ready n (c.next n)))
    | _ => none
  | .drop t => match c.view t with
    | .ready _ _ => some (c.goto t .searching)
    | _ => none
  | .unlink t => match c.view t with
    | .ready n x =>
      if c.head = some n then some { c.goto t (.popped (some n)) with head := x } else none
    | _ => none
  -- a push hands its node to a pop
  | .give t u => match c.view t, c.view u with
    | .placing n, .searching => some ((c.goto t .pushed).goto u (.popped (some n)))
    | _, _ => none
  -- two pushes change nodes
  | .trade t u => match c.view t, c.view u with
    | .placing n, .placing m => some ((c.goto t (.placing m)).goto u (.placing n))
    | _, _ => none

def shows (c : Core T N) : Act T N → List (Event T (Op N) (Res N))
  | .call t op => [.call t op]
  | .ret t => ((c.view t).result.map (Event.ret t)).toList
  | _ => []

end Program

end Core

/-- Lock-free stacks with elimination. -/
def treiber (T N : Type*) [DecidableEq T] [DecidableEq N] :
    Program (Core T N) (Core.Act T N) (Event T (Op N) (Res N)) := ⟨Core.step, Core.shows⟩

/-- A node is given to a push only when it is in no chain, in no other push, and in no
other thread's hands. -/
def Fresh : Guard (Core T N) (Core.Act T N)
  | c, .call t (.push n) => (∀ l, Chain c.next c.head l → n ∉ l) ∧
      ∀ u, u ≠ t → (c.view u).pushes ≠ some n ∧ (c.view u).holds ≠ some n
  | _, _ => True

def NoTrade : Guard (Core T N) (Core.Act T N)
  | _, .trade _ _ => False
  | _, _ => True

/-! ### What the threads may rely on -/

/-- The chain is `l`, and what the threads carry agrees with it. -/
structure Treiber (c : Core T N) (l : List N) : Prop where
  chain : Chain c.next c.head l
  fresh : ∀ t n, (c.view t).pushes = some n → n ∉ l
  apart : ∀ t u n, (c.view t).pushes = some n → (c.view u).pushes = some n → t = u
  held : ∀ t u n, (c.view t).pushes = some n → (c.view u).holds ≠ some n
  field : ∀ t n x, (c.view t).knows = some (n, x) → c.next n = x

namespace Treiber

variable {c : Core T N} {l : List N} {t u : T} {n m : N} {x : Option N} {a : View N}

theorem initial (next : N → Option N) : Treiber (⟨none, next, fun _ => .idle⟩ : Core T N) [] := by
  refine ⟨rfl, ?_, ?_, ?_, ?_⟩ <;> simp [View.pushes, View.knows]

variable [DecidableEq T]

/-- A thread may carry `a` next if that takes nothing away from the others. -/
theorem carry (hs : Treiber c l)
    (hpush : ∀ n, a.pushes = some n →
      n ∉ l ∧ ∀ u ≠ t, (c.view u).pushes ≠ some n ∧ (c.view u).holds ≠ some n)
    (hhold : ∀ n, a.holds = some n → ∀ u ≠ t, (c.view u).pushes ≠ some n)
    (hfield : ∀ n x, a.knows = some (n, x) → c.next n = x) : Treiber (c.goto t a) l := by
  have hself : (c.goto t a).view t = a := Function.update_self ..
  have hother : ∀ {u}, u ≠ t → (c.goto t a).view u = c.view u := fun hu => Function.update_of_ne hu ..
  refine ⟨hs.chain, ?_, ?_, ?_, ?_⟩
  · intro u m
    by_cases hu : u = t
    · rw [hu, hself]
      exact fun hm => (hpush m hm).1
    · rw [hother hu]
      exact hs.fresh u m
  · intro u w m
    by_cases hu : u = t <;> by_cases hw : w = t
    · exact fun _ _ => hu.trans hw.symm
    · rw [hu, hself, hother hw]
      exact fun hm hm' => absurd hm' ((hpush m hm).2 w hw).1
    · rw [hw, hself, hother hu]
      exact fun hm hm' => absurd hm ((hpush m hm').2 u hu).1
    · rw [hother hu, hother hw]
      exact hs.apart u w m
  · intro u w m
    by_cases hu : u = t <;> by_cases hw : w = t
    · rw [hu, hw, hself]
      exact View.not_both
    · rw [hu, hself, hother hw]
      exact fun hm => ((hpush m hm).2 w hw).2
    · rw [hw, hself, hother hu]
      exact fun hm hm' => hhold m hm' u hu hm
    · rw [hother hu, hother hw]
      exact hs.held u w m
  · intro u m y
    by_cases hu : u = t
    · rw [hu, hself]
      exact hfield m y
    · rw [hother hu]
      exact hs.field u m y

/-- A thread that carries nothing. -/
theorem free (hs : Treiber c l) (hp : a.pushes = none) (hh : a.holds = none) (hk : a.knows = none) :
    Treiber (c.goto t a) l :=
  hs.carry (by simp [hp]) (by simp [hh]) (by simp [hk])

/-- A push begins with a fresh node. -/
theorem begin (hs : Treiber c l) (hn : n ∉ l)
    (hu : ∀ u ≠ t, (c.view u).pushes ≠ some n ∧ (c.view u).holds ≠ some n) :
    Treiber (c.goto t (.placing n)) l := by
  refine hs.carry ?_ (by simp [View.holds]) (by simp [View.knows])
  rintro m ⟨⟩
  exact ⟨hn, hu⟩

/-- A push that has lost begins again. -/
theorem retry (hs : Treiber c l) (ht : (c.view t).pushes = some n) :
    Treiber (c.goto t (.placing n)) l :=
  hs.begin (hs.fresh t n ht) fun u hu =>
    ⟨fun hm => hu (hs.apart u t n hm ht), hs.held t u n ht⟩

/-- A pop reads the head. -/
theorem load (hs : Treiber c l) (hn : c.head = some n) : Treiber (c.goto t (.loaded n)) l := by
  refine hs.carry (by simp [View.pushes]) ?_ (by simp [View.knows])
  rintro m ⟨⟩ u - hu
  have hc : Chain c.next (some n) l := hn ▸ hs.chain
  have hmem : n ∈ n :: l.tail := List.mem_cons_self
  rw [← hc.eq_cons.1] at hmem
  exact hs.fresh u n hu hmem

/-- A pop reads the field of the node it holds. -/
theorem read (hs : Treiber c l) (ht : c.view t = .loaded n) :
    Treiber (c.goto t (.ready n (c.next n))) l := by
  refine hs.carry (by simp [View.pushes]) ?_ ?_
  · rintro m ⟨⟩ u - hu
    exact hs.held u t n hu (by rw [ht]; rfl)
  · rintro m y ⟨⟩
    rfl

omit [DecidableEq T] in
/-- Threads change places. -/
theorem permute (hs : Treiber c l) (e : Equiv.Perm T) : Treiber { c with view := c.view ∘ e } l :=
  ⟨hs.chain, fun t => hs.fresh (e t), fun _ _ n ht hu => e.injective (hs.apart _ _ n ht hu),
    fun t u => hs.held (e t) (e u), fun t => hs.field (e t)⟩

omit [DecidableEq T] in
/-- A field that nobody reads may change. -/
theorem write [DecidableEq N] (hs : Treiber c l) (hn : n ∉ l)
    (hknow : ∀ t y, (c.view t).knows ≠ some (n, y)) (x : Option N) :
    Treiber { c with next := Function.update c.next n x } l := by
  refine ⟨hs.chain.update hn x, hs.fresh, hs.apart, hs.held, ?_⟩
  intro t m y hm
  have hmn : m ≠ n := fun h => hknow t y (h ▸ hm)
  show Function.update c.next n x m = y
  rw [Function.update_of_ne hmn]
  exact hs.field t m y hm

/-- A push stores what it has read into the field of its node. -/
theorem store [DecidableEq N] (hs : Treiber c l) (ht : c.view t = .placing n) (x : Option N) :
    Treiber { c.goto t (.linked n x) with next := Function.update c.next n x } l := by
  have hpush : (c.view t).pushes = some n := by rw [ht]; rfl
  have hw : Treiber { c with next := Function.update c.next n x } l := by
    refine hs.write (hs.fresh t n hpush) ?_ x
    intro u y hu
    rcases View.of_knows hu with hu | hu
    · have htu := hs.apart t u n hpush (by rw [hu]; rfl)
      rw [← htu, ht] at hu
      cases hu
    · exact hs.held t u n hpush (by rw [hu]; rfl)
  refine hw.carry (t := t) ?_ (by simp [View.holds]) ?_
  · rintro m ⟨⟩
    exact ⟨hs.fresh t n hpush,
      fun u hu => ⟨fun hm => hu (hs.apart u t n hm hpush), hs.held t u n hpush⟩⟩
  · rintro m y ⟨⟩
    exact Function.update_self ..

/-- The swap of a push prepends its node. -/
theorem link (hs : Treiber c l) (ht : c.view t = .linked n c.head) :
    Treiber { c.goto t .pushed with head := some n } (n :: l) := by
  have hpush : (c.view t).pushes = some n := by rw [ht]; rfl
  have hfield : c.next n = c.head := hs.field t n c.head (by rw [ht]; rfl)
  have hd : Treiber (c.goto t .pushed) l := hs.free rfl rfl rfl
  refine ⟨⟨rfl, show Chain c.next (c.next n) l from hfield ▸ hs.chain⟩, ?_, hd.apart, hd.held, hd.field⟩
  intro u m hm
  rw [List.mem_cons, not_or]
  refine ⟨?_, hd.fresh u m hm⟩
  rintro rfl
  by_cases hu : u = t
  · rw [hu, show (c.goto t .pushed).view t = .pushed from Function.update_self ..] at hm
    cases hm
  · rw [show (c.goto t .pushed).view u = c.view u from Function.update_of_ne hu ..] at hm
    exact hu (hs.apart u t m hm hpush)

/-- The swap of a pop removes the first node. -/
theorem unlink (hs : Treiber c l) (ht : c.view t = .ready n x) (hn : c.head = some n) :
    l = n :: l.tail ∧ Treiber { c.goto t (.popped (some n)) with head := x } l.tail := by
  obtain ⟨hl, hk⟩ := (hn ▸ hs.chain).eq_cons
  have hd : Treiber (c.goto t (.popped (some n))) l := hs.free rfl rfl rfl
  have hfield : c.next n = x := hs.field t n x (by rw [ht]; rfl)
  refine ⟨hl, hfield ▸ hk, ?_, hd.apart, hd.held, hd.field⟩
  exact fun u m hm hmem => hd.fresh u m hm (List.mem_of_mem_tail hmem)

/-- Two pushes change nodes. -/
theorem trade (hs : Treiber c l) (ht : c.view t = .placing n) (hu : c.view u = .placing m) :
    Treiber ((c.goto t (.placing m)).goto u (.placing n)) l := by
  have he : ((c.goto t (.placing m)).goto u (.placing n)).view = c.view ∘ Equiv.swap t u := by
    funext w
    by_cases hwu : w = u
    · subst hwu
      rw [Function.comp_apply, Equiv.swap_apply_right, ht]
      exact Function.update_self ..
    · by_cases hwt : w = t
      · subst hwt
        rw [Function.comp_apply, Equiv.swap_apply_left, hu]
        exact (Function.update_of_ne hwu ..).trans (Function.update_self ..)
      · rw [Function.comp_apply, Equiv.swap_apply_of_ne_of_ne hwt hwu]
        exact (Function.update_of_ne hwu ..).trans (Function.update_of_ne hwt ..)
  have hp := hs.permute (Equiv.swap t u)
  rw [← he] at hp
  exact hp

end Treiber

/-! ### Steps and runs -/

section Steps
variable [DecidableEq T] [DecidableEq N]

/-- The chain after an action. -/
def Core.after (c : Core T N) (l : List N) : Core.Act T N → List N
  | .link t => match c.view t with
    | .linked n _ => n :: l
    | _ => l
  | .unlink _ => l.tail
  | _ => l

def Core.statuses (c : Core T N) : T → Status (Op N) (Res N) := fun t => (c.view t).status

/-- The atomic stack that holds `l`, with the threads of `c`. -/
def Core.atomic (c : Core T N) (l : List N) : Atomic T (List N) (Op N) (Res N) := ⟨l, c.statuses⟩

variable {c d : Core T N} {l : List N} {t u : T} {n : N} {a : View N} {b : Core.Act T N}

omit [DecidableEq N] in
theorem Core.statuses_goto (c : Core T N) (t : T) (a : View N) :
    (c.goto t a).statuses = Function.update c.statuses t a.status :=
  Function.comp_update View.status c.view t a

omit [DecidableEq N] in
theorem Core.statuses_silent (h : a.status = (c.view t).status) : (c.goto t a).statuses = c.statuses := by
  rw [Core.statuses_goto, h]
  exact Function.update_eq_self t c.statuses

/-- Every action keeps what the threads rely on. -/
theorem Treiber.step (hs : Treiber c l) (hf : Fresh c b) (hb : c.step b = some d) :
    Treiber d (c.after l b) := by
  cases b with
  | call t op =>
    simp only [Core.step] at hb
    split at hb <;> cases hb
    cases op with
    | push n => exact hs.begin (hf.1 l hs.chain) hf.2
    | pop => exact hs.free rfl rfl rfl
  | ret t =>
    simp only [Core.step, Option.map_eq_some_iff] at hb
    obtain ⟨r, -, rfl⟩ := hb
    exact hs.free rfl rfl rfl
  | store t x =>
    simp only [Core.step] at hb
    split at hb <;> cases hb
    rename_i n ht
    exact hs.store ht x
  | link t =>
    simp only [Core.step] at hb
    split at hb
    · rename_i n x ht
      split at hb <;> cases hb
      rename_i hx
      subst hx
      simp only [Core.after, ht]
      exact hs.link ht
    · cases hb
  | retry t =>
    simp only [Core.step] at hb
    split at hb <;> cases hb
    rename_i n x ht
    exact hs.retry (by rw [ht]; rfl)
  | empty t | drop t =>
    simp only [Core.step] at hb
    split at hb <;> cases hb
    exact hs.free rfl rfl rfl
  | load t =>
    simp only [Core.step] at hb
    split at hb <;> cases hb
    rename_i n ht hn
    exact hs.load hn
  | read t =>
    simp only [Core.step] at hb
    split at hb <;> cases hb
    rename_i n ht
    exact hs.read ht
  | unlink t =>
    simp only [Core.step] at hb
    split at hb
    · rename_i n x ht
      split at hb <;> cases hb
      rename_i hn
      exact (hs.unlink ht hn).2
    · cases hb
  | give t u =>
    simp only [Core.step] at hb
    split at hb <;> cases hb
    have ht : Treiber (c.goto t .pushed) l := hs.free rfl rfl rfl
    exact ht.free rfl rfl rfl
  | trade t u =>
    simp only [Core.step] at hb
    split at hb <;> cases hb
    rename_i n m ht hu
    exact hs.trade ht hu

omit [DecidableEq N] in
theorem follow_silent (h : a.status = (c.view t).status) :
    Run (atomic T (lifo N)) Free (c.atomic l) [] ((c.goto t a).atomic l) := by
  rw [Core.atomic, Core.atomic, Core.statuses_silent h]
  exact .refl

omit [DecidableEq N] in
theorem follow_execute (op : Op N) (h : (c.view t).status = .pending op)
    (ha : a.status = .done ((lifo N).apply l op).2) :
    Run (atomic T (lifo N)) Free (c.atomic l) [] ((c.goto t a).atomic ((lifo N).apply l op).1) := by
  rw [Core.atomic, Core.atomic, Core.statuses_goto, ha]
  exact atomic_execute (s := c.atomic l) h

omit [DecidableEq N] in
theorem follow_call {op : Op N} (h : c.view t = .idle) :
    Run (atomic T (lifo N)) Free (c.atomic l) [.call t op] ((c.goto t (.enter op)).atomic l) := by
  have ha : (View.enter op).status = .pending op := by cases op <;> rfl
  rw [Core.atomic, Core.atomic, Core.statuses_goto, ha]
  exact atomic_call (s := c.atomic l) (congrArg View.status h)

omit [DecidableEq N] in
theorem follow_ret {r : Res N} (h : (c.view t).result = some r) :
    Run (atomic T (lifo N)) Free (c.atomic l) [.ret t r] ((c.goto t .idle).atomic l) := by
  have hst : (c.view t).status = .done r := by
    cases hv : c.view t <;> rw [hv] at h <;> cases h <;> rfl
  rw [Core.atomic, Core.atomic, Core.statuses_goto]
  exact atomic_ret (s := c.atomic l) hst

/-- Without trades every action is followed by the atomic stack. -/
theorem Treiber.follow (hs : Treiber c l) (hn : NoTrade c b) (hb : c.step b = some d) :
    Run (atomic T (lifo N)) Free (c.atomic l) (c.shows b) (d.atomic (c.after l b)) := by
  cases b with
  | call t op =>
    simp only [Core.step] at hb
    split at hb <;> cases hb
    rename_i ht
    exact follow_call ht
  | ret t =>
    simp only [Core.step, Option.map_eq_some_iff] at hb
    obtain ⟨r, hr, rfl⟩ := hb
    simp only [Core.shows, hr]
    exact follow_ret hr
  | store t x | retry t | read t | drop t =>
    simp only [Core.step] at hb
    split at hb <;> cases hb
    rename_i ht
    exact follow_silent (by rw [ht]; rfl)
  | load t =>
    simp only [Core.step] at hb
    split at hb <;> cases hb
    rename_i ht hn
    exact follow_silent (by rw [ht]; rfl)
  | link t =>
    simp only [Core.step] at hb
    split at hb
    · rename_i n x ht
      split at hb <;> cases hb
      simp only [Core.after, ht]
      exact follow_execute (.push n) (by rw [ht]; rfl) rfl
    · cases hb
  | empty t =>
    simp only [Core.step] at hb
    split at hb <;> cases hb
    rename_i ht hn
    have hl : l = [] := (hn ▸ hs.chain).eq_nil
    subst hl
    exact follow_execute .pop (by rw [ht]; rfl) rfl
  | unlink t =>
    simp only [Core.step] at hb
    split at hb
    · rename_i n x ht
      split at hb <;> cases hb
      rename_i hx
      have hl := (hs.unlink ht hx).1
      simp only [Core.after]
      rw [hl]
      exact follow_execute .pop (by rw [ht]; rfl) rfl
    · cases hb
  | give t u =>
    simp only [Core.step] at hb
    split at hb <;> cases hb
    rename_i n ht hu
    have hut : u ≠ t := by
      rintro rfl
      rw [ht] at hu
      cases hu
    -- the push takes effect, and the pop right after it
    refine Run.trans (h := []) (follow_execute (.push n) (a := .pushed) (by rw [ht]; rfl) rfl) ?_
    refine follow_execute .pop ?_ rfl
    rw [show (c.goto t .pushed).view u = c.view u from Function.update_of_ne hut .., hu]
    rfl
  | trade t u => exact hn.elim

/-- Runs without trades keep what the threads rely on and are runs of the atomic stack. -/
theorem Treiber.run {C : Guard (Core T N) (Core.Act T N)} {h : List (Event T (Op N) (Res N))}
    {next : N → Option N} (hr : Run (treiber T N) C ⟨none, next, fun _ => .idle⟩ h c)
    (hf : ∀ c b, C c b → Fresh c b) (hn : ∀ c b, C c b → NoTrade c b) :
    ∃ l, Treiber c l ∧ Run (atomic T (lifo N)) Free (Atomic.initial T (lifo N)) h (c.atomic l) := by
  induction hr with
  | refl => exact ⟨[], .initial next, .refl⟩
  | tail _ hc hb ih =>
    obtain ⟨l, hs, ha⟩ := ih
    exact ⟨_, hs.step (hf _ _ hc) hb, ha.trans (hs.follow (hn _ _ hc) hb)⟩

end Steps

end Multicore.Stacks
