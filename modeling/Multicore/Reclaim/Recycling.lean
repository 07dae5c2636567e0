import Multicore.Reclaim.GracePeriod

/-! The stack of `testtwo` while its nodes are used again. A node that comes back from the
collector, or from `new` at an old address, is out of the way of every push and pop, so each step
of the workers is one that the atomic stack follows. Every node that is allocated is in one place. -/

namespace Multicore.Reclaim.GracePeriod

open Runs Stacks

variable {T N : Type*} [DecidableEq T] [DecidableEq N]

/-- The calls and returns of the stack. -/
def calls (s : State T N) : Action T N → List (Runs.Event T (Op N) (Res N))
  | .push t =>
    match s.gc.pc t with
    | .allocated n => [.call t (.push n)]
    | _ => []
  | .pop t => [.call t .pop]
  | .ret t => LockFreeStack.shows s.stack (.ret t)
  | .gc _ | .alloc _ _ | .exec _ | .dereg _ => []

/-- The chain is `l`, and the nodes that are allocated are those in some place, each in one. -/
structure Kept (s : State T N) (l : List N) : Prop where
  chain : Treiber s.stack.core l
  custody : Custody (s.places l)
  cover : ∀ n, n ∈ s.live ↔ ∃ p, n ∈ s.places l p
  once : s.live.Nodup

section Kept
variable {s u : State T N} {k : LockFreeStack.State T N} {l l' : List N} {t : T} {n : N} {d : List N}
  {a : View N} {p : Pc T N}

omit [DecidableEq T] [DecidableEq N] in
theorem Kept.initial (next : N → Option N) (gcnClock : T → ℕ) (nodeClock : N → ℕ) :
    Kept (initial next gcnClock nodeClock : State T N) [] := by
  have hp : (GracePeriod.initial next gcnClock nodeClock : State T N).places [] = fun _ => [] := by
    funext p
    rcases p with (_ | _ | _) | (_ | _ | _) <;> rfl
  refine ⟨.initial next, hp ▸ .empty, fun n => ?_, List.nodup_nil⟩
  rw [hp]
  simp [GracePeriod.initial]

omit [DecidableEq N] [DecidableEq T] in
/-- What protects the nodes also keeps them, if none that is allocated is nowhere. -/
theorem Inv.kept (hi : Inv s l) (hcover : ∀ n ∈ s.live, ∃ p, n ∈ s.places l p) (hd : s.live.Nodup) :
    Kept s l :=
  ⟨hi.chain, hi.custody, fun n => ⟨hcover n, fun ⟨p, hp⟩ => hi.live p n hp⟩, hd⟩

omit [DecidableEq T] in
/-- Nodes change places, and those that leave are deleted. -/
theorem Kept.moves (hk : Kept s l) (hchain : Treiber u.stack.core l')
    (hm : Moves (s.places l) (u.places l') d) (hlive : u.live = s.live.filter (· ∉ d)) : Kept u l' := by
  refine ⟨hchain, hm.custody hk.custody, fun n => ?_, hlive ▸ hk.once.filter _⟩
  rw [hlive, List.mem_filter, hk.cover n, hm.mem_iff, decide_eq_true_eq]
  constructor
  · rintro ⟨hd | hp, hn⟩
    · exact absurd hd hn
    · exact hp
  · rintro ⟨p, hp⟩
    exact ⟨.inr ⟨p, hp⟩, fun hd => hm.left hk.custody hd p hp⟩

/-- A step inside the stack, which the atomic stack follows. -/
theorem Kept.exec (hk : Kept s l) (hu : LockFreeStack.step s.stack (.exec t) = some k) :
    ∃ l', Kept { s with stack := k } l' ∧
      Run (atomic T (lifo N)) Free (s.stack.core.atomic l) [] (k.core.atomic l') := by
  have hlive : s.live = s.live.filter (· ∉ ([] : List N)) := by simp
  rcases LockFreeStack.core_exec hu with hcore | ⟨b, hb, hcore⟩
  · have hp : State.places { s with stack := k } l = s.places l := by
      show Sum.elim (Stacks.places [] k.core.view l) s.gc.holds = _
      rw [hcore]
      rfl
    refine ⟨l, hk.moves ?_ (.stay hp) hlive, ?_⟩
    · show Treiber k.core l
      exact hcore ▸ hk.chain
    · rw [hcore]
      exact .refl
  · obtain ⟨-, a, hview, he⟩ := hk.chain.effect hcore hb
    have hquiet : Stacks.Fresh s.stack.core b ∧ NoTrade s.stack.core b ∧ s.stack.core.shows b = [] := by
      cases b <;> first | exact ⟨trivial, trivial, rfl⟩ | cases hb
    have hm : Moves (s.places l) (State.places { s with stack := k } (s.stack.core.after l b)) [] := by
      show Moves (s.places l) (Sum.elim (Stacks.places [] k.core.view _) s.gc.holds) []
      rw [hview]
      exact he.moves.inl
    refine ⟨_, hk.moves (hk.chain.step hquiet.1 hcore) hm hlive, ?_⟩
    have hfollow := hk.chain.follow hquiet.2.1 hcore
    rwa [hquiet.2.2] at hfollow

omit [DecidableEq N] in
/-- A worker that enters the stack or leaves it has afterwards what it had, in its hand or in its call. -/
theorem mem_places_goto (hk : k.core = s.stack.core.goto t a)
    (hkeep : ∀ n, (s.stack.core.view t).owns = some n ∨ (s.gc.pc t).hand = some n →
      a.owns = some n ∨ p.hand = some n) (hn : ∃ q, n ∈ s.places l q) :
    ∃ q, n ∈ State.places { s with stack := k, gc := s.gc.goto t p } l q := by
  obtain ⟨q, hq⟩ := hn
  have htogether : n ∈ a.owns.toList ∨ n ∈ p.hand.toList →
      ∃ q, n ∈ State.places { s with stack := k, gc := s.gc.goto t p } l q := by
    rintro (ha | hp)
    · exact ⟨.inl (.pending t), (places_pending hk).symm ▸ ha⟩
    · refine ⟨.inr (.hand t), ?_⟩
      rwa [places_hand]
  simp only [Option.mem_toList] at htogether
  by_cases hpending : q = .inl (.pending t)
  · exact htogether (hkeep n (.inl (mem_pending.mp (hpending ▸ hq))))
  by_cases hhand : q = .inr (.hand t)
  · exact htogether (hkeep n (.inr (mem_hand.mp (hhand ▸ hq))))
  · exact ⟨q, (places_rest hk q hpending hhand).symm ▸ hq⟩

end Kept

/-! ### Every action is followed -/

section Step
variable {s u : State T N} {k : LockFreeStack.State T N} {l l' : List N} {t : T} {n fresh : N}
  {c : Action T N} {op : Op N}

/-- A node that is handed out is cleared; it was clean, or it is new and was not allocated. -/
theorem alloc_cases (hu : step s (.alloc t fresh) = some u) : s.gc.pc t = .working ∧
    u.stack = s.clear (s.gc.alloc t fresh).2 ∧ u.gc = (s.gc.alloc t fresh).1 ∧
    ((∃ n, (s.gc.gcn t).cleanList.front = some n ∧ u.live = s.live) ∨
      (s.gc.gcn t).cleanList.front = none ∧ fresh ∉ s.live ∧ u.live = fresh :: s.live) := by
  simp only [step] at hu
  split at hu
  · rename_i hp
    split at hu
    · rename_i n hn
      cases hu
      exact ⟨hp.1, by simp only [GarbageCollector.alloc, hn], rfl, .inl ⟨n, hn, rfl⟩⟩
    · rename_i hn
      split at hu <;> cases hu
      rename_i hfresh
      exact ⟨hp.1, by simp only [GarbageCollector.alloc, hn], rfl, .inr ⟨hn, hfresh, rfl⟩⟩
  · cases hu

/-- The node that is handed out is not on the stack, so the chain is what it was. -/
theorem Inv.chain_of_alloc (hi : Inv u l') (hu : GracePeriod.step s (.alloc t fresh) = some u) :
    Chain s.stack.next s.stack.headNext l' := by
  obtain ⟨-, hstack, hgc, -⟩ := alloc_cases hu
  have hhand : (s.gc.alloc t fresh).2 ∈ u.places l' (.inr (.hand t)) := mem_hand.mpr (by
    rw [hgc, GarbageCollector.alloc_pc]
    rfl)
  have hn : (s.gc.alloc t fresh).2 ∉ l' := fun hl =>
    hi.custody.disjoint (i := .inl .chain) Sum.inl_ne_inr hl hhand
  have hchain : Chain u.stack.next u.stack.headNext l' := hi.chain.chain
  rw [hstack] at hchain
  simpa [State.clear] using hchain.update hn (s.stack.next (s.gc.alloc t fresh).2)

theorem Kept.alloc (hk : Kept s l) (hi : Inv u l) (hu : step s (.alloc t fresh) = some u) : Kept u l := by
  obtain ⟨hp, hstack, hgc, ⟨n, hn, hlive⟩ | ⟨hn, hfresh, hlive⟩⟩ := alloc_cases hu
  · have hm : Moves (s.places l) (u.places l) [] := by
      show Moves _ (Sum.elim (Stacks.places [] u.stack.core.view l) u.gc.holds) []
      rw [hstack, hgc]
      exact (GarbageCollector.alloc_moves (by rw [hp]; rfl) hn).inr
    exact hk.moves hi.chain hm (by rw [hlive]; simp)
  · obtain ⟨hhand, hrest⟩ := GarbageCollector.alloc_fresh fresh hn
    refine hi.kept (fun m hm => ?_) (by rw [hlive]; exact List.nodup_cons.mpr ⟨hfresh, hk.once⟩)
    rw [hlive] at hm
    have hj : (u.places l (.inr (.hand t))).Perm (fresh :: s.places l (.inr (.hand t))) := by
      show (u.gc.holds (.hand t)).Perm (fresh :: s.gc.holds (.hand t))
      rw [hgc, hhand, GarbageCollector.hand_nil (by rw [hp]; rfl)]
    have hq : ∀ q, q ≠ .inr (.hand t) → u.places l q = s.places l q := by
      rintro (q | q) hne
      · show Stacks.places [] u.stack.core.view l q = _
        rw [hstack]
        rfl
      · show u.gc.holds q = _
        rw [hgc]
        exact hrest q fun h => hne (h ▸ rfl)
    exact (Custody.mem_enter hj hq).mpr ((List.mem_cons.mp hm).imp_right (hk.cover m).mp)

omit [DecidableEq N] in
/-- A worker that calls, returns or goes on to deregister. -/
theorem Kept.goto {a : View N} {p : Pc T N} (hk : Kept s l) (hcore : k.core = s.stack.core.goto t a)
    (hkeep : ∀ n, (s.stack.core.view t).owns = some n ∨ (s.gc.pc t).hand = some n →
      a.owns = some n ∨ p.hand = some n)
    (hi : Inv { s with stack := k, gc := s.gc.goto t p } l) :
    Kept { s with stack := k, gc := s.gc.goto t p } l :=
  hi.kept (fun n hn => mem_places_goto hcore hkeep ((hk.cover n).mp hn)) hk.once

omit [DecidableEq T] [DecidableEq N] in
theorem owns_of_result {r : Res N} (hr : (s.stack.pc t).result = some r) :
    (s.stack.core.view t).owns = some n ↔ r = .popped (some n) := by
  show ((s.stack.pc t).view).owns = some n ↔ _
  cases hp : s.stack.pc t <;> rw [hp] at hr <;> cases hr <;> simp [LockFreeStack.Pc.view, View.owns]

theorem Kept.ret (hk : Kept s l) (hi : Inv s l) (hu : LockFreeStack.step s.stack (.ret t) = some k)
    (hi' : Inv { s with stack := k, gc := afterPop s.gc t (s.stack.pc t).result } l) :
    Kept { s with stack := k, gc := afterPop s.gc t (s.stack.pc t).result } l := by
  obtain ⟨r, hr, hcore⟩ := LockFreeStack.core_ret hu
  have hp : s.gc.pc t = .working := by
    by_contra hpc
    rw [hi.idle t hpc] at hr
    cases hr
  rw [hr] at hi' ⊢
  by_cases hpop : ∃ n, r = .popped (some n)
  · obtain ⟨n, rfl⟩ := hpop
    refine hk.goto (p := .cleanClock n) hcore (fun m hm => .inr ?_) hi'
    rw [owns_of_result hr, hp] at hm
    rcases hm with hm | hm <;> cases hm
    rfl
  · have hafter : afterPop s.gc t (some r) = s.gc.goto t .working := by
      rw [GarbageCollector.goto_self hp]
      unfold afterPop
      split
      · rename_i n hn
        cases hn
        exact absurd ⟨n, rfl⟩ hpop
      · rfl
    rw [hafter] at hi' ⊢
    refine hk.goto hcore (fun m hm => ?_) hi'
    rw [owns_of_result hr, hp] at hm
    rcases hm with rfl | hm
    · exact absurd ⟨m, rfl⟩ hpop
    · cases hm

/-- Every steady action keeps the nodes, and the atomic stack follows it. -/
theorem Kept.step (hk : Kept s l) (hi : Inv s l) (hc : Steady s c) (hu : GracePeriod.step s c = some u) :
    ∃ l', Inv u l' ∧ Kept u l' ∧
      Run (atomic T (lifo N)) Free (s.stack.core.atomic l) (calls s c) (u.stack.core.atomic l') := by
  obtain ⟨l', hi'⟩ := hi.step hc hu
  refine ⟨l', hi', ?_⟩
  cases c with
  | gc t =>
    simp only [GracePeriod.step, Option.map_eq_some_iff] at hu
    obtain ⟨⟨g, d⟩, hg, rfl⟩ := hu
    obtain rfl : l' = l := hi'.chain.chain.unique hi.chain.chain
    exact ⟨hk.moves hi.chain (Inv.gc_moves hg) rfl, .refl⟩
  | alloc t fresh =>
    obtain rfl : l' = l := (hi'.chain_of_alloc hu).unique hi.chain.chain
    refine ⟨hk.alloc hi' hu, ?_⟩
    rw [(alloc_cases hu).2.1]
    exact .refl
  | push t =>
    simp only [GracePeriod.step] at hu
    split at hu
    · rename_i n hp
      rw [Option.map_eq_some_iff] at hu
      obtain ⟨k, hu, rfl⟩ := hu
      obtain ⟨ht, hcore⟩ := LockFreeStack.core_call hu
      have hview : s.stack.core.view t = .idle := congrArg LockFreeStack.Pc.view ht
      obtain rfl : l' = l := hi'.chain.chain.unique (hi.push_step hp hu).chain.chain
      refine ⟨hk.goto hcore (fun m hm => .inl ?_) hi', ?_⟩
      · rw [hview, hp] at hm
        rcases hm with hm | hm <;> cases hm
        rfl
      · simp only [calls, hp, hcore]
        exact follow_call hview
    · cases hu
  | pop t =>
    simp only [GracePeriod.step, Option.ite_none_right_eq_some, Option.map_eq_some_iff] at hu
    obtain ⟨hp, k, hu, rfl⟩ := hu
    obtain ⟨ht, hcore⟩ := LockFreeStack.core_call hu
    have hview : s.stack.core.view t = .idle := congrArg LockFreeStack.Pc.view ht
    obtain rfl : l' = l := hi'.chain.chain.unique (hi.pop_step hp hu).chain.chain
    refine ⟨?_, ?_⟩
    · rw [← GarbageCollector.goto_self hp] at hi' ⊢
      refine hk.goto hcore (fun m hm => ?_) hi'
      rw [hview, hp] at hm
      rcases hm with hm | hm <;> cases hm
    · simp only [calls, hcore]
      exact follow_call hview
  | exec t =>
    simp only [GracePeriod.step, Option.map_eq_some_iff] at hu
    obtain ⟨k, hu, rfl⟩ := hu
    obtain ⟨m, hm, hfollow⟩ := hk.exec hu
    obtain rfl : l' = m := hi'.chain.chain.unique hm.chain.chain
    exact ⟨hm, hfollow⟩
  | ret t =>
    simp only [GracePeriod.step, Option.map_eq_some_iff] at hu
    obtain ⟨k, hu, rfl⟩ := hu
    obtain rfl : l' = l := hi'.chain.chain.unique (hi.ret_step hu).chain.chain
    obtain ⟨r, hr, hcore⟩ := LockFreeStack.core_ret hu
    refine ⟨hk.ret hi hu hi', ?_⟩
    simp only [calls, LockFreeStack.shows, hr, hcore]
    exact follow_ret ((LockFreeStack.view_result _).trans hr)
  | dereg t =>
    simp only [GracePeriod.step, Option.ite_none_right_eq_some, Option.some.injEq] at hu
    obtain ⟨hp, rfl⟩ := hu
    obtain rfl : l' = l := hi'.chain.chain.unique hi.chain.chain
    have hview : s.stack.core.view t = .idle := congrArg LockFreeStack.Pc.view hp.2
    have hcore : s.stack.core = s.stack.core.goto t .idle := by
      rw [Core.goto, ← hview, Function.update_eq_self]
    refine ⟨hk.goto (k := s.stack) hcore (fun m hm => ?_) hi', .refl⟩
    rw [hview, hp.1] at hm
    rcases hm with hm | hm <;> cases hm

end Step

end Multicore.Reclaim.GracePeriod
