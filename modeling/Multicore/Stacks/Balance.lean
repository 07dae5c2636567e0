import Multicore.Stacks.Ownership
import Multicore.Runs.Totals

/-! The balance of an atomic stack. Every push that has returned put a node on the stack, and
the node is still there, or a pop has returned with it or is about to. -/

namespace Multicore.Stacks

open Runs

variable {T N : Type*}

def pushReturned : Event T (Op N) (Res N) → Bool
  | .ret _ .pushed => true
  | _ => false

/-- The push has been executed and has not returned. -/
def placed : Status (Op N) (Res N) → ℕ
  | .done .pushed => 1
  | _ => 0

/-- The pop has got a node and has not returned. -/
def taken : Status (Op N) (Res N) → ℕ
  | .done (.popped (some _)) => 1
  | _ => 0

@[simp] theorem popped_append (h k : List (Event T (Op N) (Res N))) :
    popped (h ++ k) = popped h ++ popped k := List.filterMap_append

variable [Fintype T] [DecidableEq T]

/-- As many nodes have come in as are on the stack and have gone out. -/
theorem balance_of_run {h : List (Event T (Op N) (Res N))} {x : Atomic T (List N) (Op N) (Res N)}
    (hr : Run (atomic T (lifo N)) Free (Atomic.initial T (lifo N)) h x) :
    h.countP pushReturned + ∑ t, placed (x.status t) =
      x.obj.length + (popped h).length + ∑ t, taken (x.status t) := by
  induction hr with
  | refl => simp [Atomic.initial, lifo, placed, taken, popped]
  | @tail h x y b hr hc hb ih =>
    obtain ⟨t, hv, hcase⟩ := Atomic.step_cases (O := lifo N) hb
    have hsum : ∀ f : Status (Op N) (Res N) → ℕ,
        ∑ v, f (y.status v) + f (x.status t) = ∑ v, f (x.status v) + f (y.status t) := fun f =>
      sum_change (fun v => f (x.status v)) (fun v => f (y.status v)) t fun v hvt => by rw [hv v hvt]
    have hplaced := hsum placed
    have htaken := hsum taken
    rcases hcase with ⟨op, hshow, hx, hy, hobj⟩ | ⟨op, hshow, hx, hy, hobj⟩ | ⟨r, hshow, hx, hy, hobj⟩
    all_goals
      rw [show (atomic T (lifo N)).shows x b = Atomic.shows x b from rfl, hshow, hobj, List.countP_append,
        popped_append]
      rw [hx, hy] at hplaced htaken
    · simp [pushReturned, placed, taken, popped] at ih hplaced htaken ⊢
      omega
    · -- the operation takes effect
      cases op with
      | push n =>
        simp [lifo, placed, taken, popped] at ih hplaced htaken ⊢
        omega
      | pop =>
        cases hl : x.obj <;> simp [lifo, hl, placed, taken, popped] at ih hplaced htaken ⊢ <;> omega
    · rcases r with - | (- | n) <;> simp [pushReturned, placed, taken, popped] at ih hplaced htaken ⊢ <;> omega

end Multicore.Stacks
