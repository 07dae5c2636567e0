import Multicore.Stacks.EliminationStack

/-! No node is lost or duplicated by `EliminationStack`. An exchange changes hands at the
swap of the second thread: from then on each of the two calls owns the item of the other,
although its local variables catch up later. -/

namespace Multicore.Stacks.EliminationStack

open Runs Exchange

variable {T : Type*} [DecidableEq T]

/-- Every node passed to a push is in exactly one place: in the chain, with the one
pending push that still has to place it or the one pending pop that has won it, or
returned by one pop. When all calls have ended the pushes are as many as the pops that
returned a node and the nodes left in the chain. -/
theorem elimination_stack_keeps_nodes {maxrange : UInt32} {next : Node → Option Node}
    {h : List (Event T (Op Node) (Res Node))} {s : State T}
    (hr : Run (eliminationStack maxrange) Free (initial next) h s) (hd : (pushed h).Nodup) :
    ∃ l, Chain s.next s.headNext l ∧
      (∀ n ∈ pushed h, ∃! p, n ∈ places h s.core.view l p) ∧
      (∀ p, (places h s.core.view l p).Nodup) ∧
      (∀ p, ∀ n ∈ places h s.core.view l p, n ∈ pushed h) ∧
      ((∀ t, s.pc t = .idle) → (pushed h).length = (popped h).length + l.length) := by
  obtain ⟨-, hc⟩ := run_core (E := Free) hr fun _ _ _ _ _ => trivial
  obtain ⟨⟨l, hs, hk⟩, -⟩ := kept_of_run hc hd
  refine ⟨l, hs.chain, ?_, hk.custody.once, fun p n hn => (hk.cover n).mpr ⟨p, hn⟩, fun hidle => ?_⟩
  · intro n hn
    obtain ⟨p, hp⟩ := (hk.cover n).mp hn
    exact hk.custody.existsUnique hp
  · refine hk.count hd fun t => ?_
    rw [show s.core.view t = .idle from congrArg (Pc.view s.exchanger) (hidle t)]
    rfl

/-- A push that lost its swap hands its node to a pop that found the chain empty. -/
theorem elimination_stack_keeps_nodes_handover :
    ∃ (h : List (Event (Fin 3) (Op Node) (Res Node))) (s : State (Fin 3)),
      Run (eliminationStack 1) Free (initial fun _ => none) h s ∧
      popped h = [⟨64, rfl, by decide⟩, ⟨128, rfl, by decide⟩] ∧
      ∃ l, Chain s.next s.headNext l ∧ (pushed h).length = (popped h).length + l.length := by
  obtain ⟨h, s, hr, ht⟩ := exists_run_of_exec (P := eliminationStack 1) (C := Free)
    (s := (initial (fun _ => none) : State (Fin 3)))
    [.call 0 (.push ⟨64, rfl, by decide⟩), .call 1 (.push ⟨128, rfl, by decide⟩),
      -- both read the empty head, the first links its node, the second loses and waits
      .exec 0 0 false, .exec 1 0 false, .exec 0 0 false, .exec 1 0 false, .exec 0 0 false, .ret 0,
      .exec 1 0 false, .exec 1 0 false, .exec 1 0 false, .exec 1 0 false, .exec 1 0 false, .exec 1 0 false,
      -- the third thread finds the stack not empty, the first empties it
      .call 2 .pop, .exec 2 0 false,
      .call 0 .pop, .exec 0 0 false, .exec 0 0 false, .exec 0 0 false, .exec 0 0 false, .ret 0,
      -- the third meets the second
      .exec 2 0 false, .exec 2 0 false, .exec 2 0 false, .exec 2 0 false, .exec 2 0 false,
      .exec 2 0 false, .exec 2 0 false, .ret 2,
      .exec 1 0 false, .exec 1 0 false, .exec 1 0 false, .exec 1 0 false, .exec 1 0 false, .ret 1]
    (fun h s => popped h == [⟨64, rfl, by decide⟩, ⟨128, rfl, by decide⟩] && decide (pushed h).Nodup &&
      decide (∀ t, s.pc t = .idle)) (by decide)
  simp only [Bool.and_eq_true, beq_iff_eq, decide_eq_true_eq] at ht
  obtain ⟨⟨hpop, hd⟩, hidle⟩ := ht
  obtain ⟨l, hl, -, -, -, hcount⟩ := elimination_stack_keeps_nodes hr hd
  exact ⟨h, s, hr, hpop, l, hl, hcount hidle⟩

end Multicore.Stacks.EliminationStack
