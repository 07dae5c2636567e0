import Multicore.Runs.Custody
import Multicore.Stacks.Treiber

/-! Where the nodes of a stack are. When no node is pushed twice, every node that has
been passed to a push is in exactly one place: the chain, the hands of one pending
call, or the results of one finished pop. -/

namespace Multicore.Stacks

open Runs

variable {T N : Type*}

/-- The nodes passed to the pushes of a history. -/
def pushed (h : List (Event T (Op N) (Res N))) : List N :=
  h.filterMap fun | .call _ (.push n) => some n | _ => none

/-- The nodes returned by its pops. -/
def popped (h : List (Event T (Op N) (Res N))) : List N :=
  h.filterMap fun | .ret _ (.popped r) => r | _ => none

@[simp] theorem pushed_append (h k : List (Event T (Op N) (Res N))) :
    pushed (h ++ k) = pushed h ++ pushed k := List.filterMap_append


/-- The node that a pending call is responsible for: a push still has to place it, a pop has won it. -/
def View.owns : View N → Option N
  | .placing n | .linked n _ => some n
  | .popped r => r
  | _ => none

theorem View.owns_of_pushes {a : View N} {n : N} (h : a.pushes = some n) : a.owns = some n := by
  cases a <;> simp_all [View.pushes, View.owns]

/-- What a step that a thread takes alone does to what it carries and to the chain. -/
inductive Effect (v : View N) (l : List N) : View N → List N → Prop
  | quiet {a : View N} : a.owns = v.owns → (∀ n, a.holds = some n → v.holds = some n) → Effect v l a l
  | load {n : N} : v.owns = none → n ∈ l → Effect v l (.loaded n) l
  | link {n : N} : v.owns = some n → Effect v l .pushed (n :: l)
  | unlink {n : N} {k : List N} : v.owns = none → l = n :: k → Effect v l (.popped (some n)) k

theorem Treiber.effect [DecidableEq T] [DecidableEq N] {c d : Core T N} {l : List N} {t : T}
    {b : Core.Act T N} (hs : Treiber c l) (hb : c.step b = some d) (ha : b.Alone t) :
    (c.view t).result = none ∧
      ∃ a, d.view = Function.update c.view t a ∧ Effect (c.view t) l a (c.after l b) := by
  cases b with
  | call u op | ret u | give u w | trade u w => cases ha
  | store u x | retry u | drop u =>
    subst ha
    simp only [Core.step] at hb
    split at hb <;> cases hb
    rename_i ht
    rw [ht]
    exact ⟨rfl, _, rfl, .quiet rfl (by simp [View.holds])⟩
  | empty u =>
    subst ha
    simp only [Core.step] at hb
    split at hb <;> cases hb
    rename_i ht hn
    rw [ht]
    exact ⟨rfl, _, rfl, .quiet rfl (by simp [View.holds])⟩
  | read u =>
    subst ha
    simp only [Core.step] at hb
    split at hb <;> cases hb
    rename_i n ht
    rw [ht]
    exact ⟨rfl, _, rfl, .quiet rfl fun m hm => hm⟩
  | load u =>
    subst ha
    simp only [Core.step] at hb
    split at hb <;> cases hb
    rename_i n ht hn
    have hc : Chain c.next (some n) l := hn ▸ hs.chain
    rw [ht]
    exact ⟨rfl, _, rfl, .load rfl (hc.eq_cons.1 ▸ List.mem_cons_self)⟩
  | link u =>
    subst ha
    simp only [Core.step] at hb
    split at hb
    · rename_i n x ht
      split at hb <;> cases hb
      simp only [Core.after, ht]
      exact ⟨rfl, _, rfl, .link rfl⟩
    · cases hb
  | unlink u =>
    subst ha
    simp only [Core.step] at hb
    split at hb
    · rename_i n x ht
      split at hb <;> cases hb
      rename_i hx
      rw [ht]
      exact ⟨rfl, _, rfl, .unlink rfl (hs.unlink ht hx).1⟩
    · cases hb

section Effect
variable {v a : View N} {l l' : List N} {n : N}

/-- What is in the chain stays there or is popped. -/
theorem Effect.mem (he : Effect v l a l') (hn : n ∈ l) : n ∈ l' ∨ a = .popped (some n) := by
  cases he with
  | quiet _ _ | load _ _ => exact .inl hn
  | link _ => exact .inl (List.mem_cons_of_mem _ hn)
  | unlink _ hl =>
    rcases List.mem_cons.mp (hl ▸ hn) with rfl | hmem
    · exact .inr rfl
    · exact .inl hmem

/-- What a pop holds it held before, or has read from the chain. -/
theorem Effect.holds (he : Effect v l a l') (ha : a.holds = some n) : v.holds = some n ∨ n ∈ l' := by
  cases he with
  | quiet _ hh => exact .inl (hh n ha)
  | load _ hn =>
    cases ha
    exact .inr hn
  | link _ | unlink _ _ => cases ha

end Effect

inductive Place (T : Type*)
  | chain | pending (t : T) | returned
  deriving DecidableEq

/-- What each place holds after the history `h`. -/
def places (h : List (Event T (Op N) (Res N))) (v : T → View N) (l : List N) : Place T → List N
  | .chain => l
  | .pending t => (v t).owns.toList
  | .returned => popped h

section Places
variable {h h' : List (Event T (Op N) (Res N))} {v : T → View N} {l l' : List N} {t u : T} {n : N}
  {a : View N}

theorem pending_eq {r : Option N} (ht : (v t).owns = r) : places h v l (.pending t) = r.toList := by
  rw [places, ht]

variable [DecidableEq T]

theorem pending_self : places h (Function.update v t a) l (.pending t) = a.owns.toList := by
  simp only [places, Function.update_self]

theorem pending_of_ne (hu : u ≠ t) :
    places h' (Function.update v t a) l' (.pending u) = places h v l (.pending u) := by
  simp only [places, Function.update_of_ne hu]

/-- The thread owns what it owned. -/
theorem stay_moves (hpop : popped h' = popped h) (ho : a.owns = (v t).owns) :
    Moves (places h v l) (places h' (Function.update v t a) l) [] := by
  refine .stay (funext fun p => ?_)
  cases p with
  | chain => rfl
  | returned => exact hpop
  | pending u =>
    by_cases hu : u = t
    · subst hu
      rw [pending_self, ho]
      rfl
    · exact pending_of_ne (h := h) hu

/-- A push gives its node to the chain. -/
theorem link_moves (ht : (v t).owns = some n) :
    Moves (places h v l) (places h (Function.update v t .pushed) (n :: l)) [] := by
  refine .move (i := Place.pending t) (j := Place.chain) (n := n) (by simp) ?_ (.refl _) ?_
  · rw [pending_self, pending_eq ht]
    exact .refl _
  · intro k hki hkj
    cases k with
    | chain => exact absurd rfl hkj
    | pending u => exact pending_of_ne fun hu => hki (hu ▸ rfl)
    | returned => rfl

/-- A pop takes its node from the chain. -/
theorem unlink_moves (ht : (v t).owns = none) :
    Moves (places h v (n :: l)) (places h (Function.update v t (.popped (some n))) l) [] := by
  refine .move (i := Place.chain) (j := Place.pending t) (n := n) (by simp) (.refl _) ?_ ?_
  · rw [pending_self, pending_eq ht]
    exact .refl _
  · intro k hki hkj
    cases k with
    | chain => exact absurd rfl hki
    | pending u => exact pending_of_ne fun hu => hkj (hu ▸ rfl)
    | returned => rfl

theorem Effect.moves (he : Effect (v t) l a l') :
    Moves (places h v l) (places h (Function.update v t a) l') [] := by
  cases he with
  | quiet ho _ => exact stay_moves rfl ho
  | load ho _ => exact stay_moves rfl (by rw [ho]; rfl)
  | link ho => exact link_moves ho
  | unlink ho hl =>
    rw [hl]
    exact unlink_moves ho

end Places

/-- Every node that was pushed is in exactly one place, and the pops hold no other. -/
structure Kept (h : List (Event T (Op N) (Res N))) (v : T → View N) (l : List N) : Prop where
  custody : Custody (places h v l)
  cover : ∀ n, n ∈ pushed h ↔ ∃ p, n ∈ places h v l p
  seen : ∀ t n, (v t).holds = some n → n ∈ pushed h

namespace Kept

variable {h h' : List (Event T (Op N) (Res N))} {v v' : T → View N} {l l' : List N} {t u : T} {n m : N}
  {a b : View N}

theorem initial : Kept [] (fun _ : T => (.idle : View N)) [] := by
  have he : places [] (fun _ : T => (.idle : View N)) [] = fun _ => [] := by
    funext p
    cases p <;> rfl
  refine ⟨he ▸ .empty, ?_, by simp [View.holds]⟩
  rw [he]
  simp [pushed]

theorem owned (hk : Kept h v l) (hn : (v t).owns = some n) : n ∈ pushed h :=
  (hk.cover n).mpr ⟨.pending t, by simp [places, hn]⟩

theorem linked (hk : Kept h v l) (hn : n ∈ l) : n ∈ pushed h := (hk.cover n).mpr ⟨.chain, hn⟩

/-- A node that was never pushed is fresh. -/
theorem fresh {c : Core T N} (hk : Kept h c.view l) (hs : Treiber c l) (hn : n ∉ pushed h) :
    Fresh c (.call t (.push n)) := by
  refine ⟨?_, fun u _ => ⟨?_, ?_⟩⟩
  · intro k hc hmem
    rw [hc.unique hs.chain] at hmem
    exact hn (hk.linked hmem)
  · exact fun hu => hn (hk.owned (View.owns_of_pushes hu))
  · exact fun hu => hn (hk.seen u n hu)

/-- Nodes change places. -/
theorem moves (hk : Kept h v l) (hm : Moves (places h v l) (places h' v' l') [])
    (hp : pushed h' = pushed h) (hseen : ∀ t m, (v' t).holds = some m → m ∈ pushed h) : Kept h' v' l' := by
  refine ⟨hm.custody hk.custody, fun m => ?_, fun t m hm => hp ▸ hseen t m hm⟩
  rw [hp, hk.cover m, hm.mem_iff]
  simp

variable [DecidableEq T]

/-- What the pops have read, after `t` goes to `a`. -/
theorem seen_update (hk : Kept h v l) (ha : ∀ n, a.holds = some n → n ∈ pushed h) (u : T) (n : N)
    (hn : (Function.update v t a u).holds = some n) : n ∈ pushed h := by
  by_cases hu : u = t
  · rw [hu, Function.update_self] at hn
    exact ha n hn
  · rw [Function.update_of_ne hu] at hn
    exact hk.seen u n hn

/-- The thread owns what it owned. -/
theorem stay (hk : Kept h v l) (hp : pushed h' = pushed h) (hpop : popped h' = popped h)
    (ho : a.owns = (v t).owns) (ha : ∀ n, a.holds = some n → n ∈ pushed h) :
    Kept h' (Function.update v t a) l :=
  hk.moves (stay_moves hpop ho) hp (hk.seen_update ha)

/-- A new node comes with its push. -/
theorem enter (hk : Kept h v l) (ht : (v t).owns = none) (hn : n ∉ pushed h)
    (hp : pushed h' = pushed h ++ [n]) (hpop : popped h' = popped h) :
    Kept h' (Function.update v t (.placing n)) l := by
  have hj : (places h' (Function.update v t (.placing n)) l (.pending t)).Perm
      (n :: places h v l (.pending t)) := by
    rw [pending_self, pending_eq ht]
    exact .refl _
  have hrest : ∀ k, k ≠ .pending t →
      places h' (Function.update v t (.placing n)) l k = places h v l k := by
    intro k hk
    cases k with
    | chain => rfl
    | pending u => exact pending_of_ne fun hu => hk (hu ▸ rfl)
    | returned => exact hpop
  have hnot : ∀ k, n ∉ places h v l k := fun k hm => hn ((hk.cover n).mpr ⟨k, hm⟩)
  refine ⟨hk.custody.enter hnot hj hrest, fun m => ?_, ?_⟩
  · rw [hp, List.mem_append, List.mem_singleton, hk.cover m, Custody.mem_enter hj hrest]
    exact Or.comm
  · intro u m hm
    rw [hp]
    exact List.mem_append_left _ (hk.seen_update (by simp [View.holds]) u m hm)

/-- A push gives its node to a pop. -/
theorem give (hk : Kept h v l) (htu : u ≠ t) (ht : (v t).owns = some n) (hu : (v u).owns = none) :
    Kept h (Function.update (Function.update v t .pushed) u (.popped (some n))) l := by
  refine hk.moves (.move (n := n) (i := Place.pending t) (j := Place.pending u) ?_ ?_ ?_ ?_) rfl ?_
  · exact fun he => htu (Place.pending.inj he).symm
  · rw [pending_of_ne (h := h) (l := l) htu.symm, pending_self, pending_eq ht]
    exact .refl _
  · rw [pending_self, pending_eq hu]
    exact .refl _
  · intro k hki hkj
    cases k with
    | pending w =>
      have hw : w ≠ t := fun hw => hki (congrArg _ hw)
      exact (pending_of_ne (h := h) (l := l) fun hw => hkj (congrArg _ hw)).trans (pending_of_ne hw)
    | _ => rfl
  · intro w m hm
    by_cases hw : w = u
    · rw [hw, Function.update_self] at hm
      cases hm
    · rw [Function.update_of_ne hw] at hm
      exact hk.seen_update (by simp [View.holds]) w m hm

/-- Two pushes change nodes. -/
theorem trade (hk : Kept h v l) (ht : v t = .placing n) (hu : v u = .placing m) :
    Kept h (Function.update (Function.update v t (.placing m)) u (.placing n)) l := by
  have he : places h (Function.update (Function.update v t (.placing m)) u (.placing n)) l =
      places h v l ∘ Equiv.swap (.pending t) (.pending u) := by
    funext k
    rw [Function.comp_apply]
    by_cases hku : k = .pending u
    · rw [hku, pending_self, Equiv.swap_apply_right, places, ht]
    · by_cases hkt : k = .pending t
      · have htu : t ≠ u := fun h => hku (hkt.trans (congrArg _ h))
        rw [hkt, pending_of_ne (h := h) (l := l) htu, pending_self, Equiv.swap_apply_left, places, hu]
      · rw [Equiv.swap_apply_of_ne_of_ne hkt hku]
        cases k with
        | pending w =>
          have hw : w ≠ t := fun hw => hkt (congrArg _ hw)
          exact (pending_of_ne (h := h) (l := l) fun hw => hku (congrArg _ hw)).trans (pending_of_ne hw)
        | _ => rfl
  refine ⟨he ▸ hk.custody.permute _, fun m => ?_, ?_⟩
  · rw [he]
    exact (hk.cover m).trans (Custody.mem_permute _).symm
  · intro w m' hm
    by_cases hw : w = u
    · rw [hw, Function.update_self] at hm
      cases hm
    · rw [Function.update_of_ne hw] at hm
      exact hk.seen_update (by simp [View.holds]) w m' hm

/-- A pop returns its node. -/
theorem ret_popped (hk : Kept h v l) (ht : (v t).owns = some n) (hp : pushed h' = pushed h)
    (hpop : popped h' = popped h ++ [n]) : Kept h' (Function.update v t .idle) l := by
  refine hk.moves (.move (n := n) (i := Place.pending t) (j := Place.returned) (by simp) ?_ ?_ ?_) hp
    (hk.seen_update (by simp [View.holds]))
  · rw [pending_self, pending_eq ht]
    exact .refl _
  · simp only [places, hpop]
    exact List.perm_append_singleton n (popped h)
  · intro k hki hkj
    cases k with
    | chain => rfl
    | pending u => exact pending_of_ne fun hu => hki (hu ▸ rfl)
    | returned => exact absurd rfl hkj

/-- A thread takes a step alone. -/
theorem effect (hk : Kept h v l) (he : Effect (v t) l a l') : Kept h (Function.update v t a) l' := by
  refine hk.moves he.moves rfl (hk.seen_update ?_)
  cases he with
  | quiet _ hh => exact fun m hm => hk.seen t m (hh m hm)
  | load _ hn =>
    rintro m ⟨⟩
    exact hk.linked hn
  | link _ | unlink _ _ => simp [View.holds]

/-- Every action keeps each node in one place, if no node is pushed twice. -/
theorem step [DecidableEq N] {c d : Core T N} {b : Core.Act T N} (hk : Kept h c.view l) (hs : Treiber c l)
    (hd : (pushed (h ++ c.shows b)).Nodup) (hb : c.step b = some d) :
    Kept (h ++ c.shows b) d.view (c.after l b) := by
  cases b with
  | call t op =>
    simp only [Core.step] at hb
    split at hb <;> cases hb
    rename_i ht
    have ho : (c.view t).owns = none := by rw [ht]; rfl
    cases op with
    | push n =>
      have hp : pushed (h ++ [.call t (.push n)]) = pushed h ++ [n] := pushed_append ..
      have hn : n ∉ pushed h := by
        have hd' : (pushed h ++ [n]).Nodup := hp ▸ hd
        exact fun hmem => (List.nodup_append.mp hd').2.2 n hmem n List.mem_cons_self rfl
      exact hk.enter ho hn hp (by simp [Core.shows, popped])
    | pop =>
      exact hk.stay (by simp [Core.shows, pushed]) (by simp [Core.shows, popped]) ho.symm
        (by simp [View.enter, View.holds])
  | ret t =>
    simp only [Core.step, Option.map_eq_some_iff] at hb
    obtain ⟨r, hr, rfl⟩ := hb
    have hshow : c.shows (.ret t) = [.ret t r] := by simp [Core.shows, hr]
    rw [hshow]
    have hp : pushed (h ++ [.ret t r]) = pushed h := by simp [pushed]
    cases hv : c.view t <;> rw [hv] at hr <;> cases hr
    · exact hk.stay hp (by simp [popped]) (by rw [hv]; rfl) (by simp [View.holds])
    · rename_i r
      cases r with
      | none => exact hk.stay hp (by simp [popped]) (by rw [hv]; rfl) (by simp [View.holds])
      | some n => exact hk.ret_popped (n := n) (by rw [hv]; rfl) hp (by simp [popped])
  | store t x | retry t | drop t | empty t | load t | read t | link t | unlink t =>
    obtain ⟨-, a, ha, he⟩ := hs.effect (t := t) hb rfl
    rw [ha]
    simpa only [Core.shows, List.append_nil] using hk.effect he
  | give t u =>
    simp only [Core.step] at hb
    split at hb <;> cases hb
    rename_i n ht hu
    have hut : u ≠ t := by
      rintro rfl
      rw [ht] at hu
      cases hu
    simp only [Core.shows, List.append_nil]
    exact hk.give hut (by rw [ht]; rfl) (by rw [hu]; rfl)
  | trade t u =>
    simp only [Core.step] at hb
    split at hb <;> cases hb
    rename_i n m ht hu
    simp only [Core.shows, List.append_nil]
    exact hk.trade ht hu

end Kept

/-- When nobody owns anything, what went in is what came out and what is left. -/
theorem Kept.count {h : List (Event T (Op N) (Res N))} {v : T → View N} {l : List N} (hk : Kept h v l)
    (hd : (pushed h).Nodup) (hv : ∀ t, (v t).owns = none) :
    (pushed h).length = (popped h).length + l.length := by
  have hdisj : ∀ a ∈ popped h, ∀ b ∈ l, a ≠ b := by
    rintro a ha b hb rfl
    exact hk.custody.disjoint (i := Place.returned) (j := .chain) (by simp) ha hb
  have hnd : (popped h ++ l).Nodup :=
    List.nodup_append.mpr ⟨hk.custody.once .returned, hk.custody.once .chain, hdisj⟩
  have hmem : ∀ n, n ∈ pushed h ↔ n ∈ popped h ++ l := by
    intro n
    rw [hk.cover n, List.mem_append]
    constructor
    · rintro ⟨p, hp⟩
      cases p with
      | chain => exact .inr hp
      | returned => exact .inl hp
      | pending t =>
        rw [pending_eq (hv t)] at hp
        cases hp
    · rintro (hn | hn)
      · exact ⟨.returned, hn⟩
      · exact ⟨.chain, hn⟩
  rw [((List.perm_ext_iff_of_nodup hd hnd).mpr hmem).length_eq, List.length_append]

/-- In a run in which no node is pushed twice every push is fresh, and every node is in
one place. -/
theorem kept_of_run [DecidableEq T] [DecidableEq N] {C : Guard (Core T N) (Core.Act T N)} {c : Core T N}
    {h : List (Event T (Op N) (Res N))} {next : N → Option N}
    (hr : Run (treiber T N) C ⟨none, next, fun _ => .idle⟩ h c) (hd : (pushed h).Nodup) :
    (∃ l, Treiber c l ∧ Kept h c.view l) ∧
      Run (treiber T N) (fun c b => C c b ∧ Fresh c b) ⟨none, next, fun _ => .idle⟩ h c := by
  induction hr with
  | refl => exact ⟨⟨[], .initial next, .initial⟩, .refl⟩
  | @tail h c d b _ hc hb ih =>
    have hsub : (pushed h).Nodup := (List.nodup_append.mp (pushed_append h _ ▸ hd)).1
    obtain ⟨⟨l, hs, hk⟩, hr⟩ := ih hsub
    have hf : Fresh c b := by
      cases b with
      | call t op =>
        cases op with
        | push n =>
          have hp : pushed (h ++ [.call t (.push n)]) = pushed h ++ [n] := pushed_append ..
          have hd' : (pushed h ++ [n]).Nodup := hp ▸ hd
          exact hk.fresh hs fun hmem => (List.nodup_append.mp hd').2.2 n hmem n List.mem_cons_self rfl
        | pop => trivial
      | _ => trivial
    exact ⟨⟨_, hs.step hf hb, hk.step hs hd hb⟩, hr.tail ⟨hc, hf⟩ hb⟩

end Multicore.Stacks
