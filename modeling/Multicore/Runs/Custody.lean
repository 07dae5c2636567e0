import Mathlib.Data.List.Basic
import Mathlib.Data.List.Nodup
import Mathlib.Data.List.Perm.Basic
import Mathlib.Logic.Equiv.Basic

/-! Custody of things. Each place holds a list of them; nothing is in two places, or
twice in one. Things enter a place from outside, move from place to place, and places
may trade all they have. -/

namespace Multicore.Runs

variable {ι N : Type*}

/-- Whatever is in some place is in exactly one, and there only once. -/
structure Custody (holds : ι → List N) : Prop where
  once : ∀ i, (holds i).Nodup
  unique : ∀ i j n, n ∈ holds i → n ∈ holds j → i = j

namespace Custody
variable {holds holds' : ι → List N} {i j : ι} {n m : N}

theorem empty : Custody (fun _ : ι => ([] : List N)) := ⟨fun _ => List.nodup_nil, nofun⟩

theorem existsUnique (hc : Custody holds) (hn : n ∈ holds i) : ∃! k, n ∈ holds k :=
  ⟨i, hn, fun k hk => hc.unique k i n hk hn⟩

/-- What is in place `i` is in no other. -/
theorem disjoint (hc : Custody holds) (hij : i ≠ j) (hi : n ∈ holds i) : n ∉ holds j :=
  fun hj => hij (hc.unique i j n hi hj)

/-- Something new enters place `j`. -/
theorem enter (hc : Custody holds) (hn : ∀ k, n ∉ holds k) (hj : (holds' j).Perm (n :: holds j))
    (hk : ∀ k, k ≠ j → holds' k = holds k) : Custody holds' := by
  have hmem : ∀ k m, m ∈ holds' k → (m = n ∧ k = j) ∨ m ∈ holds k := by
    intro k m hm
    by_cases hkj : k = j
    · subst hkj
      rcases List.mem_cons.mp (hj.mem_iff.mp hm) with rfl | hm
      · exact .inl ⟨rfl, rfl⟩
      · exact .inr hm
    · exact .inr (hk k hkj ▸ hm)
  refine ⟨?_, ?_⟩
  · intro k
    by_cases hkj : k = j
    · subst hkj
      exact hj.nodup_iff.mpr (List.nodup_cons.mpr ⟨hn k, hc.once k⟩)
    · rw [hk k hkj]
      exact hc.once k
  · intro k k' m hm hm'
    rcases hmem k m hm with ⟨rfl, rfl⟩ | hm <;> rcases hmem k' _ hm' with ⟨hmn, rfl⟩ | hm'
    · rfl
    · exact absurd hm' (hn k')
    · exact absurd (hmn ▸ hm) (hn k)
    · exact hc.unique k k' m hm hm'

theorem mem_enter (hj : (holds' j).Perm (n :: holds j)) (hk : ∀ k, k ≠ j → holds' k = holds k) :
    (∃ k, m ∈ holds' k) ↔ m = n ∨ ∃ k, m ∈ holds k := by
  constructor
  · rintro ⟨k, hm⟩
    by_cases hkj : k = j
    · subst hkj
      exact (List.mem_cons.mp (hj.mem_iff.mp hm)).imp_right fun h => ⟨k, h⟩
    · exact .inr ⟨k, hk k hkj ▸ hm⟩
  · rintro (rfl | ⟨k, hm⟩)
    · exact ⟨j, hj.mem_iff.mpr List.mem_cons_self⟩
    · by_cases hkj : k = j
      · subst hkj
        exact ⟨k, hj.mem_iff.mpr (List.mem_cons_of_mem n hm)⟩
      · exact ⟨k, (hk k hkj).symm ▸ hm⟩

/-- Something leaves place `i`, and then is nowhere. -/
theorem leave (hc : Custody holds) (hi : (holds i).Perm (n :: holds' i))
    (hk : ∀ k, k ≠ i → holds' k = holds k) : Custody holds' ∧ ∀ k, n ∉ holds' k := by
  have hnd := List.nodup_cons.mp (hi.nodup_iff.mp (hc.once i))
  have hmem : ∀ k m, m ∈ holds' k → m ∈ holds k := by
    intro k m hm
    by_cases hki : k = i
    · subst hki
      exact hi.mem_iff.mpr (List.mem_cons_of_mem n hm)
    · exact hk k hki ▸ hm
  refine ⟨⟨?_, fun k k' m hm hm' => hc.unique k k' m (hmem k m hm) (hmem k' m hm')⟩, ?_⟩
  · intro k
    by_cases hki : k = i
    · subst hki
      exact hnd.2
    · rw [hk k hki]
      exact hc.once k
  · intro k hm
    obtain rfl := hc.unique k i n (hmem k n hm) (hi.mem_iff.mpr List.mem_cons_self)
    exact hnd.1 hm

/-- Something moves from place `i` to place `j`: it leaves `i` and is new to `j`. -/
theorem move (hc : Custody holds) (hij : i ≠ j) (hi : (holds i).Perm (n :: holds' i))
    (hj : (holds' j).Perm (n :: holds j)) (hk : ∀ k, k ≠ i → k ≠ j → holds' k = holds k) :
    Custody holds' := by
  classical
  have hself : Function.update holds i (holds' i) i = holds' i := Function.update_self ..
  have hother : ∀ k, k ≠ i → Function.update holds i (holds' i) k = holds k :=
    fun k hki => Function.update_of_ne hki ..
  obtain ⟨hrest, hn⟩ : Custody (Function.update holds i (holds' i)) ∧
      ∀ k, n ∉ Function.update holds i (holds' i) k := hc.leave (by rwa [hself]) hother
  refine hrest.enter (j := j) hn ?_ ?_
  · rwa [hother j hij.symm]
  · intro k hkj
    by_cases hki : k = i
    · subst hki
      exact hself.symm
    · rw [hk k hki hkj, hother k hki]

/-- A move loses and adds nothing. -/
theorem mem_move (hij : i ≠ j) (hi : (holds i).Perm (n :: holds' i))
    (hj : (holds' j).Perm (n :: holds j)) (hk : ∀ k, k ≠ i → k ≠ j → holds' k = holds k) :
    (∃ k, m ∈ holds' k) ↔ ∃ k, m ∈ holds k := by
  constructor
  · rintro ⟨k, hm⟩
    by_cases hki : k = i
    · subst hki
      exact ⟨k, hi.mem_iff.mpr (List.mem_cons_of_mem n hm)⟩
    by_cases hkj : k = j
    · subst hkj
      rcases List.mem_cons.mp (hj.mem_iff.mp hm) with rfl | hm
      · exact ⟨i, hi.mem_iff.mpr List.mem_cons_self⟩
      · exact ⟨k, hm⟩
    · exact ⟨k, hk k hki hkj ▸ hm⟩
  · rintro ⟨k, hm⟩
    by_cases hki : k = i
    · subst hki
      rcases List.mem_cons.mp (hi.mem_iff.mp hm) with rfl | hm
      · exact ⟨j, hj.mem_iff.mpr List.mem_cons_self⟩
      · exact ⟨k, hm⟩
    by_cases hkj : k = j
    · subst hkj
      exact ⟨k, hj.mem_iff.mpr (List.mem_cons_of_mem n hm)⟩
    · exact ⟨k, (hk k hki hkj).symm ▸ hm⟩

/-- The places trade. -/
theorem permute (hc : Custody holds) (e : Equiv.Perm ι) : Custody (holds ∘ e) :=
  ⟨fun i => hc.once (e i), fun i j n hi hj => e.injective (hc.unique (e i) (e j) n hi hj)⟩

theorem mem_permute (e : Equiv.Perm ι) : (∃ k, m ∈ (holds ∘ e) k) ↔ ∃ k, m ∈ holds k :=
  ⟨fun ⟨k, hk⟩ => ⟨e k, hk⟩, fun ⟨k, hk⟩ => ⟨e.symm k, by simpa using hk⟩⟩

end Custody

/-- What one action does to the places: nothing, something moves, or something leaves for good. -/
inductive Moves (holds holds' : ι → List N) : List N → Prop
  | stay : holds' = holds → Moves holds holds' []
  | move {i j : ι} {n : N} : i ≠ j → (holds i).Perm (n :: holds' i) → (holds' j).Perm (n :: holds j) →
      (∀ k, k ≠ i → k ≠ j → holds' k = holds k) → Moves holds holds' []
  | leave {i : ι} {n : N} : (holds i).Perm (n :: holds' i) → (∀ k, k ≠ i → holds' k = holds k) →
      Moves holds holds' [n]

namespace Moves
variable {κ : Type*} {holds holds' : ι → List N} {f f' : κ → List N} {d : List N} {m : N}

theorem custody (hm : Moves holds holds' d) (hc : Custody holds) : Custody holds' := by
  cases hm with
  | stay he => exact he ▸ hc
  | move hij hi hj hk => exact hc.move hij hi hj hk
  | leave hi hk => exact (hc.leave hi hk).1

/-- What left is nowhere. -/
theorem left (hm : Moves holds holds' d) (hc : Custody holds) (hd : m ∈ d) (i : ι) : m ∉ holds' i := by
  cases hm with
  | leave hi hk =>
    rw [List.mem_singleton.mp hd]
    exact (hc.leave hi hk).2 i
  | _ => cases hd

/-- What was somewhere still is, or has left. -/
theorem mem_iff (hm : Moves holds holds' d) :
    (∃ k, m ∈ holds k) ↔ m ∈ d ∨ ∃ k, m ∈ holds' k := by
  cases hm with
  | stay he => rw [he]; simp
  | move hij hi hj hk =>
    rw [Custody.mem_move hij hi hj hk]
    simp
  | @leave i n hi hk =>
    rw [List.mem_singleton]
    constructor
    · rintro ⟨k, hmem⟩
      by_cases hki : k = i
      · subst hki
        exact (List.mem_cons.mp (hi.mem_iff.mp hmem)).imp_right fun h => ⟨k, h⟩
      · exact .inr ⟨k, (hk k hki).symm ▸ hmem⟩
    · rintro (rfl | ⟨k, hmem⟩)
      · exact ⟨i, hi.mem_iff.mpr List.mem_cons_self⟩
      · by_cases hki : k = i
        · subst hki
          exact ⟨k, hi.mem_iff.mpr (List.mem_cons_of_mem n hmem)⟩
        · exact ⟨k, hk k hki ▸ hmem⟩

/-- The same among more places. -/
theorem inr (hm : Moves holds holds' d) : Moves (Sum.elim f holds) (Sum.elim f holds') d := by
  cases hm with
  | stay he => exact .stay (by rw [he])
  | @move i j n hij hi hj hk =>
    refine .move (i := .inr i) (j := .inr j) (fun h => hij (Sum.inr.inj h)) hi hj ?_
    rintro (k | k) hki hkj
    · rfl
    · exact hk k (fun h => hki (h ▸ rfl)) (fun h => hkj (h ▸ rfl))
  | @leave i n hi hk =>
    refine .leave (i := (Sum.inr i : κ ⊕ ι)) hi ?_
    rintro (k | k) hki
    · rfl
    · exact hk k fun h => hki (h ▸ rfl)

theorem inl (hm : Moves holds holds' d) : Moves (Sum.elim holds f) (Sum.elim holds' f) d := by
  cases hm with
  | stay he => exact .stay (by rw [he])
  | @move i j n hij hi hj hk =>
    refine .move (i := .inl i) (j := .inl j) (fun h => hij (Sum.inl.inj h)) hi hj ?_
    rintro (k | k) hki hkj
    · exact hk k (fun h => hki (h ▸ rfl)) (fun h => hkj (h ▸ rfl))
    · rfl
  | @leave i n hi hk =>
    refine .leave (i := (Sum.inl i : ι ⊕ κ)) hi ?_
    rintro (k | k) hki
    · exact hk k fun h => hki (h ▸ rfl)
    · rfl

/-- What leaves here arrives at the place `j` outside. -/
theorem deposit {j : κ} (hm : Moves holds holds' d) (hj : (f' j).Perm (d ++ f j))
    (hk : ∀ k, k ≠ j → f' k = f k) (he : d = [] → f' = f) :
    Moves (Sum.elim f holds) (Sum.elim f' holds') [] := by
  cases hm with
  | stay h => exact .stay (by rw [h, he rfl])
  | move hij hi hj' hk' =>
    rw [he rfl]
    exact (Moves.move hij hi hj' hk').inr
  | @leave i n hi hk' =>
    refine .move (i := .inr i) (j := .inl j) Sum.inr_ne_inl hi hj ?_
    rintro (k | k) hki hkj
    · exact hk k fun h => hkj (h ▸ rfl)
    · exact hk' k fun h => hki (h ▸ rfl)

end Moves

end Multicore.Runs
