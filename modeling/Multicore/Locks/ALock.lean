import Multicore.Runs.Cyclic
import Multicore.Runs.Program
import Mathlib.Data.Fintype.Card
import Mathlib.Order.Interval.Finset.Nat

/-! The array lock. A caller draws a ticket by fetch-and-add on `tail` and spins
on the flag of the ticket's slot; the holder takes its own flag down, leaves its
slot in the shared `curslot`, and raises the next flag when it unlocks. Tickets
are drawn and served in the same order, and at most as many are outstanding as
there are slots, so the raised flag is always the one of the oldest ticket not
yet served. -/

namespace Multicore.Locks.ALock

open Runs

/-- Where a thread stands in `lock` and `unlock`. -/
inductive Pc
  | idle
  | spinning (tmp slot : ℕ)
  | clearing (tmp slot : ℕ)
  | marking (slot : ℕ)
  | inside
  | unlocking (cur : ℕ)
  deriving DecidableEq

/-- From leaving the spin loop of `lock` to the flag store of `unlock`. -/
def Pc.Passing : Pc → Prop
  | .clearing _ _ | .marking _ | .inside | .unlocking _ => True
  | _ => False

structure State (T : Type) where
  flag : ℕ → Bool
  tail : ℕ
  curslot : ℕ
  pc : T → Pc

inductive Event (T : Type)
  | draw (t : T) (ticket : ℕ) | enter (t : T) (ticket : ℕ) | leave (t : T)

variable {T : Type} [DecidableEq T]

def State.goto (s : State T) (t : T) (p : Pc) : State T :=
  { s with pc := Function.update s.pc t p }

@[simp] theorem goto_pc (s : State T) (t u : T) (p : Pc) :
    (s.goto t p).pc u = if u = t then p else s.pc u := Function.update_apply ..

@[simp] theorem goto_flag (s : State T) (t : T) (p : Pc) : (s.goto t p).flag = s.flag := rfl

@[simp] theorem goto_curslot (s : State T) (t : T) (p : Pc) :
    (s.goto t p).curslot = s.curslot := rfl

/-- The next access of a thread. `tail` has 64 bits, the slots have 32. -/
def step (size : ℕ) (s : State T) (t : T) : Option (State T) :=
  match s.pc t with
  | .idle => some { s.goto t (.spinning s.tail (s.tail % size % 2 ^ 32)) with
      tail := (s.tail + 1) % 2 ^ 64 }
  | .spinning tmp slot => some (if s.flag slot then s.goto t (.clearing tmp slot) else s)
  | .clearing _ slot => some { s.goto t (.marking slot) with
      flag := Function.update s.flag slot false }
  | .marking slot => some { s.goto t .inside with curslot := slot }
  | .inside => some (s.goto t (.unlocking s.curslot))
  | .unlocking cur => some { s.goto t .idle with
      flag := Function.update s.flag ((cur + 1) % 2 ^ 32 % size) true }

def shows (s : State T) (t : T) : List (Event T) :=
  match s.pc t with
  | .idle => [.draw t s.tail]
  | .spinning tmp slot => if s.flag slot then [.enter t tmp] else []
  | .unlocking _ => [.leave t]
  | _ => []

def program (size : ℕ) : Program (State T) T (Event T) where
  step := step size
  shows := shows

/-- The constructor: only the first flag is raised. -/
def initial : State T :=
  ⟨fun i => decide (i = 0), 0, 0, fun _ => .idle⟩

/-! ### Tickets -/

/-- The tickets in the order in which they were drawn. -/
def drawn (h : List (Event T)) : List ℕ :=
  h.filterMap fun | .draw _ k => some k | _ => none

/-- The tickets in the order in which their holders left the spin loop. -/
def entered (h : List (Event T)) : List ℕ :=
  h.filterMap fun | .enter _ k => some k | _ => none

omit [DecidableEq T] in
@[simp] theorem drawn_append (h k : List (Event T)) : drawn (h ++ k) = drawn h ++ drawn k :=
  List.filterMap_append

omit [DecidableEq T] in
@[simp] theorem entered_append (h k : List (Event T)) : entered (h ++ k) = entered h ++ entered k :=
  List.filterMap_append

/-- What the flags and `curslot` are while the holder of ticket `k` passes. -/
def Passed (size : ℕ) (flag : ℕ → Bool) (curslot k : ℕ) : Pc → Prop
  | .clearing tmp slot => tmp = k ∧ slot = k % size ∧ ∀ i < size, flag i = true ↔ i = k % size
  | .marking slot => slot = k % size ∧ ∀ i < size, flag i = false
  | .inside => curslot = k % size ∧ ∀ i < size, flag i = false
  | .unlocking cur => cur = k % size ∧ ∀ i < size, flag i = false
  | _ => False

/-- The holder takes its own flag down. -/
theorem Passed.clear {size k tmp slot curslot : ℕ} {flag : ℕ → Bool}
    (h : Passed size flag curslot k (.clearing tmp slot)) :
    Passed size (Function.update flag slot false) curslot k (.marking slot) := by
  obtain ⟨-, rfl, hfl⟩ := h
  refine ⟨rfl, fun i hi => ?_⟩
  by_cases he : i = k % size
  · simp [he]
  · simpa [he] using hfl i hi

/-- `D` tickets are drawn and `E` of them have entered. -/
structure Inv (size D E : ℕ) (s : State T) : Prop where
  tail : s.tail = D
  spin : ∀ t tmp slot, s.pc t = .spinning tmp slot → slot = tmp % size ∧ E ≤ tmp ∧ tmp < D
  distinct : ∀ t u tmp slot slot', s.pc t = .spinning tmp slot → s.pc u = .spinning tmp slot' → t = u
  holder : ∀ k, E ≤ k → k < D → ∃ t slot, s.pc t = .spinning k slot
  le : E ≤ D
  exclusive : ∀ t u, (s.pc t).Passing → (s.pc u).Passing → t = u
  passing : ∀ t, (s.pc t).Passing → ∃ k, k + 1 = E ∧ Passed size s.flag s.curslot k (s.pc t)
  quiet : (∀ t, ¬ (s.pc t).Passing) → ∀ i < size, s.flag i = true ↔ i = E % size

def Pc.ticket : Pc → Option ℕ
  | .spinning tmp _ => some tmp
  | _ => none

section Step
variable {size D E : ℕ} {s : State T}

/-- The tickets outstanding are held by distinct threads, `t` not among them. -/
theorem Inv.outstanding_lt [Fintype T] (hi : Inv size D E s) {t : T} (ht : (s.pc t).ticket = none) :
    D < E + Fintype.card T := by
  have hsub : (Finset.Ico E D).image some ⊆ (Finset.univ.erase t).image fun u => (s.pc u).ticket := by
    intro o ho
    obtain ⟨k, hk, rfl⟩ := Finset.mem_image.mp ho
    rw [Finset.mem_Ico] at hk
    obtain ⟨u, slot, hu⟩ := hi.holder k hk.1 hk.2
    refine Finset.mem_image.mpr ⟨u, Finset.mem_erase.mpr ⟨?_, Finset.mem_univ u⟩, by rw [hu]; rfl⟩
    rintro rfl
    rw [hu] at ht
    cases ht
  have hle := (Finset.card_le_card hsub).trans Finset.card_image_le
  rw [Finset.card_image_of_injective _ (Option.some_injective ℕ), Nat.card_Ico,
    Finset.card_erase_of_mem (Finset.mem_univ t), Finset.card_univ] at hle
  have hpos : 0 < Fintype.card T := Fintype.card_pos_iff.mpr ⟨t⟩
  omega

omit [DecidableEq T] in
theorem Inv.outstanding_le [Fintype T] (hi : Inv size D E s) : D ≤ E + Fintype.card T := by
  have hsub : (Finset.Ico E D).image some ⊆ Finset.univ.image fun u => (s.pc u).ticket := by
    intro o ho
    obtain ⟨k, hk, rfl⟩ := Finset.mem_image.mp ho
    rw [Finset.mem_Ico] at hk
    obtain ⟨u, slot, hu⟩ := hi.holder k hk.1 hk.2
    exact Finset.mem_image.mpr ⟨u, Finset.mem_univ u, by rw [hu]; rfl⟩
  have hle := (Finset.card_le_card hsub).trans Finset.card_image_le
  rw [Finset.card_image_of_injective _ (Option.some_injective ℕ), Nat.card_Ico,
    Finset.card_univ] at hle
  omega

section Goto
variable {t u : T} {p : Pc} {tmp slot : ℕ}

/-- Nobody but `t` comes to pass. -/
theorem passing_goto (hp : p.Passing → (s.pc t).Passing) (hu : ((s.goto t p).pc u).Passing) :
    (s.pc u).Passing := by
  rw [goto_pc] at hu
  split at hu
  · rename_i hut
    exact hut ▸ hp hu
  · exact hu

/-- Who still spins is not `t`, which has no ticket. -/
theorem spinning_goto (hp : p.ticket = none) (hu : (s.goto t p).pc u = .spinning tmp slot) :
    u ≠ t ∧ s.pc u = .spinning tmp slot := by
  rcases update_cases hu with ⟨-, rfl⟩ | hu
  · cases hp
  · exact hu

/-- A ticket that is not the one of `t` keeps its holder. -/
theorem Inv.holder_goto (hi : Inv size D E s) {k : ℕ} (hE : E ≤ k) (hD : k < D)
    (ht : ∀ slot, s.pc t ≠ .spinning k slot) : ∃ u slot, (s.goto t p).pc u = .spinning k slot := by
  obtain ⟨u, slot, hu⟩ := hi.holder k hE hD
  have hut : u ≠ t := by
    rintro rfl
    exact ht slot hu
  exact ⟨u, slot, by rw [goto_pc, if_neg hut, hu]⟩

end Goto

/-- A new ticket. -/
theorem Inv.take (hi : Inv size D E s) {t : T} (hp : s.pc t = .idle) :
    Inv size (D + 1) E { s.goto t (.spinning D (D % size)) with tail := D + 1 } := by
  have hpass : ∀ {u}, ((s.goto t (.spinning D (D % size))).pc u).Passing → (s.pc u).Passing :=
    passing_goto nofun
  refine ⟨rfl, ?_, ?_, ?_, Nat.le_succ_of_le hi.le,
    fun u v hu hv => hi.exclusive u v (hpass hu) (hpass hv), ?_, ?_⟩
  · intro u tmp slot hu
    rcases update_cases hu with ⟨-, he⟩ | ⟨-, hu⟩
    · cases he
      exact ⟨rfl, hi.le, Nat.lt_succ_self _⟩
    · obtain ⟨hs, hE, hlt⟩ := hi.spin u tmp slot hu
      exact ⟨hs, hE, Nat.lt_succ_of_lt hlt⟩
  · -- the ticket drawn is `D`, and all others are below it
    intro u v tmp slot slot' hu hv
    rcases update_cases hu with ⟨hut, hu'⟩ | ⟨-, hu'⟩ <;>
      rcases update_cases hv with ⟨hvt, hv'⟩ | ⟨-, hv'⟩
    · exact hut.trans hvt.symm
    · cases hu'
      exact absurd (hi.spin v D slot' hv').2.2 (Nat.lt_irrefl _)
    · cases hv'
      exact absurd (hi.spin u D slot hu').2.2 (Nat.lt_irrefl _)
    · exact hi.distinct u v tmp slot slot' hu' hv'
  · intro k hk hkD
    rcases Nat.lt_or_ge k D with h | h
    · exact hi.holder_goto hk h fun slot => by simp [hp]
    · obtain rfl : k = D := by omega
      exact ⟨t, k % size, by rw [goto_pc, if_pos rfl]⟩
  · intro u hu
    have hut : u ≠ t := by rintro rfl; simp [Pc.Passing] at hu
    obtain ⟨k, hk, hq⟩ := hi.passing u (hpass hu)
    exact ⟨k, hk, by simpa [hut] using hq⟩
  · intro hno i hlt
    refine hi.quiet (fun u hu => hno u ?_) i hlt
    have hut : u ≠ t := by rintro rfl; rw [hp] at hu; exact hu
    simpa [hut] using hu

theorem slot_eq (hsize : size < 2 ^ 32) (hpos : 0 < size) (tmp : ℕ) : tmp % size % 2 ^ 32 = tmp % size := by
  have := Nat.mod_lt tmp hpos
  exact Nat.mod_eq_of_lt (by omega)

/-- A ticket that does not wrap `tail`. -/
theorem Inv.draw (hi : Inv size D E s) (hsize : size < 2 ^ 32) (hpos : 0 < size) (hD : D + 1 < 2 ^ 64)
    {t : T} (hp : s.pc t = .idle) :
    Inv size (D + 1) E { s.goto t (.spinning s.tail (s.tail % size % 2 ^ 32)) with
      tail := (s.tail + 1) % 2 ^ 64 } := by
  rw [hi.tail, slot_eq hsize hpos, Nat.mod_eq_of_lt hD]
  exact hi.take hp

/-- A raised flag seen by a spinning thread is its own turn, and nobody passes. -/
theorem Inv.turn [Fintype T] (hi : Inv size D E s) (hT : Fintype.card T ≤ size) (hpos : 0 < size)
    {t : T} {tmp slot : ℕ} (hp : s.pc t = .spinning tmp slot) (hf : s.flag slot = true) :
    tmp = E ∧ ∀ u, ¬ (s.pc u).Passing := by
  obtain ⟨rfl, hE, hD⟩ := hi.spin t tmp slot hp
  have hlt : tmp % size < size := Nat.mod_lt tmp hpos
  have hno : ∀ u, ¬ (s.pc u).Passing := by
    intro u hu
    obtain ⟨k, hk, hq⟩ := hi.passing u hu
    have hticket : (s.pc u).ticket = none := by
      cases hpu : s.pc u <;> rw [hpu] at hu <;> first | rfl | cases hu
    have hout := hi.outstanding_lt hticket
    cases hpu : s.pc u with
    | idle | spinning => rw [hpu] at hu; cases hu
    | clearing tmp' slot' =>
      rw [hpu] at hq
      -- the flag still up is the one of ticket `E - 1`, out of reach of this ticket
      have := eq_of_mod_eq (by omega) (by omega) ((hq.2.2 _ hlt).mp hf)
      omega
    | marking slot' => rw [hpu] at hq; simp [hq.2 _ hlt] at hf
    | inside => rw [hpu] at hq; simp [hq.2 _ hlt] at hf
    | unlocking cur => rw [hpu] at hq; simp [hq.2 _ hlt] at hf
  have hle := hi.outstanding_le
  exact ⟨eq_of_mod_eq hE (by omega) ((hi.quiet hno _ hlt).mp hf), hno⟩

/-- Leaving the spin loop. -/
theorem Inv.enter (hi : Inv size D E s) {t : T} {slot : ℕ} (hp : s.pc t = .spinning E slot)
    (hno : ∀ u, ¬ (s.pc u).Passing) : Inv size D (E + 1) (s.goto t (.clearing E slot)) := by
  obtain ⟨hslot, -, hED⟩ := hi.spin t E slot hp
  have hspin : ∀ {u tmp slot'}, (s.goto t (.clearing E slot)).pc u = .spinning tmp slot' →
      u ≠ t ∧ s.pc u = .spinning tmp slot' := spinning_goto rfl
  have honly : ∀ u, ((s.goto t (.clearing E slot)).pc u).Passing → u = t := by
    intro u hu
    by_contra hut
    rw [goto_pc, if_neg hut] at hu
    exact hno u hu
  refine ⟨hi.tail, ?_, ?_, ?_, hED, fun u v hu hv => (honly u hu).trans (honly v hv).symm, ?_, ?_⟩
  · intro u tmp slot' hu
    obtain ⟨hut, hu'⟩ := hspin hu
    obtain ⟨hs, hE, hD⟩ := hi.spin u tmp slot' hu'
    have hne : tmp ≠ E := by
      rintro rfl
      exact hut (hi.distinct u t _ _ _ hu' hp)
    exact ⟨hs, by omega, hD⟩
  · exact fun u v tmp slot' slot'' hu hv => hi.distinct u v tmp _ _ (hspin hu).2 (hspin hv).2
  · intro k hk hkD
    refine hi.holder_goto (by omega) hkD fun slot' hk' => ?_
    rw [hp] at hk'
    cases hk'
    omega
  · intro u hu
    obtain rfl := honly u hu
    exact ⟨E, rfl, by rw [goto_pc, if_pos rfl]; exact ⟨rfl, hslot, hi.quiet hno⟩⟩
  · intro hno'
    exact absurd (by rw [goto_pc, if_pos rfl]; trivial) (hno' t)

/-- The holder moves on; the flags and `curslot` change as its new place says. -/
theorem Inv.move (hi : Inv size D E s) {t : T} {p : Pc} {flag : ℕ → Bool} {curslot : ℕ}
    (hp : (s.pc t).Passing) (hp' : p.Passing)
    (hq : ∀ k, Passed size s.flag s.curslot k (s.pc t) → Passed size flag curslot k p) :
    Inv size D E ⟨flag, s.tail, curslot, Function.update s.pc t p⟩ := by
  have hpass : ∀ {u}, ((s.goto t p).pc u).Passing → (s.pc u).Passing := passing_goto fun _ => hp
  have hspin : ∀ {u tmp slot}, (s.goto t p).pc u = .spinning tmp slot →
      u ≠ t ∧ s.pc u = .spinning tmp slot :=
    spinning_goto (by cases p <;> first | rfl | cases hp')
  refine ⟨hi.tail, fun u tmp slot hu => hi.spin u tmp slot (hspin hu).2,
    fun u v tmp slot slot' hu hv => hi.distinct u v tmp _ _ (hspin hu).2 (hspin hv).2,
    fun k hk hkD => hi.holder_goto hk hkD fun slot ht => ?_, hi.le,
    fun u v hu hv => hi.exclusive u v (hpass hu) (hpass hv), ?_, ?_⟩
  · rw [ht] at hp
    exact hp
  · intro u hu
    obtain rfl : u = t := hi.exclusive u t (hpass hu) hp
    obtain ⟨k, hk, hq'⟩ := hi.passing u hp
    exact ⟨k, hk, by simpa using hq k hq'⟩
  · intro hno
    exact absurd (by simpa using hp') (hno t)

/-- The flag store of `unlock` raises the flag of the next ticket. -/
theorem Inv.release (hi : Inv size D E s) (hsize : size < 2 ^ 32) (hpos : 0 < size) {t : T} {cur : ℕ}
    (hp : s.pc t = .unlocking cur) :
    Inv size D E { s.goto t .idle with
      flag := Function.update s.flag ((cur + 1) % 2 ^ 32 % size) true } := by
  have ht : (s.pc t).Passing := by rw [hp]; trivial
  have hpass : ∀ {u}, ((s.goto t .idle).pc u).Passing → (s.pc u).Passing := passing_goto nofun
  have hspin : ∀ {u tmp slot}, (s.goto t .idle).pc u = .spinning tmp slot →
      u ≠ t ∧ s.pc u = .spinning tmp slot := spinning_goto rfl
  obtain ⟨k, hk, hq⟩ := hi.passing t ht
  rw [hp] at hq
  have hnext : (cur + 1) % 2 ^ 32 % size = E % size := by
    have := Nat.mod_lt k hpos
    rw [hq.1, Nat.mod_eq_of_lt (a := k % size + 1) (by omega), succ_mod_mod, hk]
  rw [hnext]
  refine ⟨hi.tail, fun u tmp slot hu => hi.spin u tmp slot (hspin hu).2,
    fun u v tmp slot slot' hu hv => hi.distinct u v tmp _ _ (hspin hu).2 (hspin hv).2,
    fun k hk hkD => hi.holder_goto hk hkD fun slot => by simp [hp], hi.le,
    fun u v hu hv => hi.exclusive u v (hpass hu) (hpass hv), ?_, ?_⟩
  · intro u hu
    obtain rfl : u = t := hi.exclusive u t (hpass hu) ht
    simp [Pc.Passing] at hu
  · intro _ i hlt
    by_cases he : i = E % size
    · subst he; simp
    · simp [hq.2 i hlt, he]

end Step

/-! ### Runs -/

/-- The invariant with the counts read off the events shown so far. -/
structure Served (size : ℕ) (h : List (Event T)) (s : State T) : Prop where
  drawn : drawn h = List.range (drawn h).length
  entered : entered h = List.range (entered h).length
  inv : Inv size (ALock.drawn h).length (ALock.entered h).length s

omit [DecidableEq T] in
theorem Served.initial (size : ℕ) : Served size [] (initial : State T) :=
  ⟨rfl, rfl, ⟨rfl, nofun, nofun, nofun, le_rfl, nofun, nofun, by simp [ALock.initial, ALock.entered]⟩⟩

omit [DecidableEq T] in
/-- An action that shows neither a draw nor an entry. -/
theorem Served.silent {size : ℕ} {h k : List (Event T)} {s s' : State T} (hs : Served size h s)
    (hd : ALock.drawn k = []) (he : ALock.entered k = [])
    (hi : Inv size (ALock.drawn h).length (ALock.entered h).length s') : Served size (h ++ k) s' := by
  obtain ⟨h1, h2, -⟩ := hs
  constructor <;> simpa only [drawn_append, entered_append, hd, he, List.append_nil]

theorem Served.step [Fintype T] {size : ℕ} (hsize : size < 2 ^ 32) (hpos : 0 < size)
    (hT : Fintype.card T ≤ size) {h : List (Event T)} {s s' : State T} {t : T} (hs : Served size h s)
    (hD : (ALock.drawn (h ++ shows s t)).length < 2 ^ 64) (ha : step size s t = some s') :
    Served size (h ++ shows s t) s' := by
  have hi := hs.inv
  cases hp : s.pc t with
  | idle =>
    simp only [ALock.step, hp, Option.some.injEq] at ha
    have hsh : shows s t = [.draw t s.tail] := by simp only [shows, hp]
    rw [hsh] at hD ⊢
    simp only [drawn_append, List.length_append] at hD
    have hk : ALock.drawn [Event.draw t s.tail] = [s.tail] := rfl
    have hk' : ALock.entered [Event.draw t s.tail] = [] := rfl
    subst ha
    refine ⟨?_, ?_, ?_⟩
    · rw [drawn_append, hk, List.length_append, List.length_singleton, List.range_succ, ← hs.drawn,
        hi.tail]
    · rw [entered_append, hk', List.append_nil, ← hs.entered]
    · rw [drawn_append, entered_append, hk, hk', List.append_nil, List.length_append,
        List.length_singleton]
      exact hi.draw hsize hpos hD hp
  | spinning tmp slot =>
    by_cases hf : s.flag slot = true
    · simp only [ALock.step, hp, hf, if_true, Option.some.injEq] at ha
      have hsh : shows s t = [.enter t tmp] := by simp only [shows, hp, hf, if_true]
      obtain ⟨rfl, hno⟩ := hi.turn hT hpos hp hf
      have hk : ALock.drawn [Event.enter t (ALock.entered h).length] = [] := rfl
      have hk' : ALock.entered [Event.enter t (ALock.entered h).length] = [(ALock.entered h).length] := rfl
      rw [hsh]
      subst ha
      refine ⟨?_, ?_, ?_⟩
      · rw [drawn_append, hk, List.append_nil, ← hs.drawn]
      · rw [entered_append, hk', List.length_append, List.length_singleton, List.range_succ,
          ← hs.entered]
      · rw [drawn_append, entered_append, hk, hk', List.append_nil, List.length_append,
          List.length_singleton]
        exact hi.enter hp hno
    · simp only [ALock.step, hp, hf, if_false, Option.some.injEq, Bool.false_eq_true] at ha
      subst ha
      exact hs.silent (by simp [shows, hp, hf, ALock.drawn]) (by simp [shows, hp, hf, ALock.entered]) hi
  | clearing tmp slot =>
    simp only [ALock.step, hp, Option.some.injEq] at ha
    subst ha
    refine hs.silent (by simp [shows, hp, ALock.drawn]) (by simp [shows, hp, ALock.entered])
      (hi.move (by rw [hp]; trivial) trivial fun k hk => ?_)
    rw [hp] at hk
    exact hk.clear
  | marking slot =>
    simp only [ALock.step, hp, Option.some.injEq] at ha
    subst ha
    refine hs.silent (by simp [shows, hp, ALock.drawn]) (by simp [shows, hp, ALock.entered])
      (hi.move (by rw [hp]; trivial) trivial fun k hk => ?_)
    rwa [hp] at hk
  | inside =>
    simp only [ALock.step, hp, Option.some.injEq] at ha
    subst ha
    refine hs.silent (by simp [shows, hp, ALock.drawn]) (by simp [shows, hp, ALock.entered])
      (hi.move (by rw [hp]; trivial) trivial fun k hk => ?_)
    rwa [hp] at hk
  | unlocking cur =>
    simp only [ALock.step, hp, Option.some.injEq] at ha
    subst ha
    exact hs.silent (by simp [shows, hp, ALock.drawn]) (by simp [shows, hp, ALock.entered])
      (hi.release hsize hpos hp)

theorem served_of_run [Fintype T] {size : ℕ} (hsize : size < 2 ^ 32) (hpos : 0 < size)
    (hT : Fintype.card T ≤ size) {h : List (Event T)} {s : State T}
    (hr : Run (program size) Free initial h s) (hD : (drawn h).length < 2 ^ 64) : Served size h s := by
  refine hr.invariant (I := fun h s => (ALock.drawn h).length < 2 ^ 64 → Served size h s)
    (fun _ => Served.initial size) (fun h s t s' hs _ ha hD => ?_) hD
  refine Served.step hsize hpos hT (hs ?_) hD ha
  rw [drawn_append, List.length_append] at hD
  omega

/-- Mutual exclusion in ticket order with exactly one token. Tickets come in the
order 0, 1, 2, ...; they enter in the order drawn; while nobody passes, the one
raised flag is that of the next ticket to enter, drawn already or not. -/
theorem alock_ticket_order {capacity : ℕ} (hpos : 1 ≤ capacity) (hcap : capacity < 2 ^ 32) [Fintype T]
    (hT : Fintype.card T ≤ capacity) {h : List (Event T)} {s : State T}
    (hr : Run (program capacity) Free initial h s) (hD : (drawn h).length < 2 ^ 64) :
    (∀ t u, (s.pc t).Passing → (s.pc u).Passing → t = u) ∧
      entered h <+: drawn h ∧
      ((∀ t, ¬ (s.pc t).Passing) →
        ∃ k, (drawn h ++ [s.tail])[(entered h).length]? = some k ∧
          ∀ i < capacity, s.flag i = true ↔ i = k % capacity) := by
  obtain ⟨hd, he, hi⟩ := served_of_run hcap hpos hT hr hD
  have hle := hi.le
  refine ⟨hi.exclusive, ?_, fun hno => ⟨(entered h).length, ?_, hi.quiet hno⟩⟩
  · rw [hd, he, List.prefix_iff_eq_take, List.length_range, List.take_range, min_eq_left hle]
  · rw [hd, hi.tail, ← List.range_succ, List.getElem?_range (by omega)]

/-- Two threads draw, the first passes and hands over: the second may enter. -/
theorem alock_ticket_order_handover : ∃ h s,
    Run (program 2) Free (initial : State (Fin 2)) h s ∧ drawn h = [0, 1] ∧ entered h = [0] ∧
      s.flag 0 = false ∧ s.flag 1 = true := by
  obtain ⟨h, s, hr, ht⟩ := exists_run_of_exec (C := Free) (P := program 2) (s := (initial : State (Fin 2)))
    [0, 1, 1, 0, 0, 0, 0, 0]
    (fun h s => drawn h == [0, 1] && entered h == [0] && s.pc 0 == .idle &&
      s.pc 1 == .spinning 1 1) (by decide)
  simp only [Bool.and_eq_true, beq_iff_eq] at ht
  obtain ⟨⟨⟨hd, he⟩, h0⟩, h1⟩ := ht
  obtain ⟨-, -, hflag⟩ := alock_ticket_order (by decide) (by decide) (by decide) hr (by rw [hd]; decide)
  obtain ⟨k, hk, hf⟩ := hflag (Fin.forall_fin_two.mpr ⟨by rw [h0]; exact id, by rw [h1]; exact id⟩)
  rw [hd, he] at hk
  obtain rfl : 1 = k := by simpa using hk
  refine ⟨h, s, hr, hd, he, ?_, (hf 1 (by decide)).mpr rfl⟩
  simpa using (hf 0 (by decide)).not.mpr (by decide)

end Multicore.Locks.ALock
