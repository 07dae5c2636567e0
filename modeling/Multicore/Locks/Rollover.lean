import Multicore.Locks.ALock
import Mathlib.Data.List.Range
import Mathlib.Data.Nat.Prime.Basic
import Mathlib.Algebra.Order.Group.Nat

/-! The rollover of `tail`. `lock` takes its slot from a ticket of 64 bits and `unlock` steps
the slot that it finds. The two agree as long as the tickets go up, and they agree when
the tickets begin again at zero if the number of slots divides the number of tickets. The
state is then the image of one whose tickets do not begin again. -/

namespace Multicore.Locks.ALock

open Runs

variable {T : Type}

/-- The slot that `lock` computes for a ticket. -/
def slotOf (size tmp : ℕ) : ℕ := tmp % size % 2 ^ 32

/-- The threads that entered, with their tickets. -/
def entries (h : List (Event T)) : List (T × ℕ) :=
  h.filterMap fun | .enter t k => some (t, k) | _ => none

@[simp] theorem entries_append (h k : List (Event T)) : entries (h ++ k) = entries h ++ entries k :=
  List.filterMap_append

theorem entered_eq (h : List (Event T)) : entered h = (entries h).map Prod.snd := by
  unfold entered entries
  rw [List.map_filterMap]
  congr 1
  funext e
  cases e <;> rfl

/-- The tickets in the order in which they are drawn, up to the next one. -/
def tickets (h : List (Event T)) (s : State T) : List ℕ := drawn h ++ [s.tail]

/-- The slots follow each other, and a thread that unlocks raises the flag of the ticket after
its own. -/
structure Follows (size : ℕ) (h : List (Event T)) (s : State T) : Prop where
  slots : (tickets h s).IsChain fun a b => slotOf size b = (slotOf size a + 1) % size
  passes : ∀ t cur, s.pc t = .unlocking cur → ∃ j a b, (entries h).length = j + 1 ∧
    (entries h)[j]? = some (t, a) ∧ (tickets h s)[j]? = some a ∧ (tickets h s)[j + 1]? = some b ∧
    (cur + 1) % 2 ^ 32 % size = slotOf size b

/-! ### The tickets of a run -/

section Tickets
variable [DecidableEq T] {size : ℕ} {h : List (Event T)} {s u : State T} {t : T}

/-- A step draws the next ticket, or none. -/
theorem step_drawn (hu : step size s t = some u) :
    (drawn (shows s t) = [] ∧ u.tail = s.tail) ∨
      (drawn (shows s t) = [s.tail] ∧ u.tail = (s.tail + 1) % 2 ^ 64) := by
  cases hp : s.pc t with
  | idle =>
    simp only [step, hp, Option.some.injEq] at hu
    subst hu
    exact .inr ⟨by simp only [shows, hp]; rfl, rfl⟩
  | spinning tmp slot =>
    simp only [step, hp, Option.some.injEq] at hu
    subst hu
    refine .inl ⟨?_, ?_⟩
    · simp only [shows, hp]
      split <;> rfl
    · split <;> rfl
  | _ =>
    simp only [step, hp, Option.some.injEq] at hu
    subst hu
    exact .inl ⟨by simp only [shows, hp]; rfl, rfl⟩

/-- The tickets are numbered, and begin again at zero after the last one. -/
def Numbered (h : List (Event T)) (s : State T) : Prop :=
  drawn h = (List.range (drawn h).length).map (· % 2 ^ 64) ∧ s.tail = (drawn h).length % 2 ^ 64

theorem numbered_of_run (hr : Run (program size) Free initial h s) : Numbered h s := by
  refine hr.invariant (I := Numbered) ⟨rfl, rfl⟩ ?_
  rintro h s t u ⟨hd, ht⟩ - hu
  rcases step_drawn hu with ⟨hsh, htail⟩ | ⟨hsh, htail⟩
  · have he : drawn (h ++ shows s t) = drawn h := by rw [drawn_append, hsh, List.append_nil]
    show drawn (h ++ shows s t) = (List.range (drawn (h ++ shows s t)).length).map _ ∧
      u.tail = (drawn (h ++ shows s t)).length % 2 ^ 64
    rw [he]
    exact ⟨hd, htail.trans ht⟩
  · have he : drawn (h ++ shows s t) = drawn h ++ [s.tail] := by rw [drawn_append, hsh]
    have hlen : (drawn (h ++ shows s t)).length = (drawn h).length + 1 := by
      rw [he, List.length_append, List.length_singleton]
    show drawn (h ++ shows s t) = (List.range (drawn (h ++ shows s t)).length).map _ ∧
      u.tail = (drawn (h ++ shows s t)).length % 2 ^ 64
    rw [hlen, he, List.range_succ, List.map_append, ← hd, htail, ht, Nat.mod_add_mod]
    exact ⟨rfl, rfl⟩

theorem tickets_of_run (hr : Run (program size) Free initial h s) :
    tickets h s = (List.range ((drawn h).length + 1)).map (· % 2 ^ 64) := by
  obtain ⟨hd, ht⟩ := numbered_of_run hr
  rw [List.range_succ, List.map_append, ← hd, tickets, ht]
  rfl

end Tickets

section Slots
variable {size d : ℕ}

/-- With a power of two of slots, or before the tickets begin again, a ticket has the slot of its
number. -/
theorem slotOf_mod (hsize : size < 2 ^ 32) (hpos : 0 < size) {k : ℕ} (hk : size ∣ 2 ^ 64 ∨ k < 2 ^ 64) :
    slotOf size (k % 2 ^ 64) = k % size := by
  rw [slotOf, slot_eq hsize hpos]
  rcases hk with hdvd | hlt
  · exact Nat.mod_mod_of_dvd k hdvd
  · rw [Nat.mod_eq_of_lt hlt]

/-- Ticket zero follows the last one if and only if the slots divide the tickets. -/
theorem dvd_of_follows (hsize : size < 2 ^ 32) (hpos : 0 < size)
    (h : slotOf size 0 = (slotOf size (2 ^ 64 - 1) + 1) % size) : size ∣ 2 ^ 64 := by
  rw [slotOf, slotOf, slot_eq hsize hpos, slot_eq hsize hpos, succ_mod_mod, Nat.zero_mod] at h
  exact Nat.dvd_of_mod_eq_zero h.symm

theorem isChain_slots_iff (hsize : size < 2 ^ 32) (hpos : 0 < size) :
    ((List.range (d + 1)).map (· % 2 ^ 64)).IsChain
      (fun a b => slotOf size b = (slotOf size a + 1) % size) ↔ size ∣ 2 ^ 64 ∨ d < 2 ^ 64 := by
  rw [List.isChain_map, List.isChain_range_succ]
  constructor
  · intro h
    by_contra hnot
    obtain ⟨hdvd, hd⟩ := not_or.mp hnot
    have hlast := h (2 ^ 64 - 1) (by omega)
    exact hdvd (dvd_of_follows hsize hpos (by simpa using hlast))
  · intro h m hm
    rw [slotOf_mod hsize hpos (h.imp_right fun hd => by omega),
      slotOf_mod hsize hpos (h.imp_right fun hd => by omega), succ_mod_mod]

theorem dvd_iff_two_pow (hsize : size < 2 ^ 32) : size ∣ 2 ^ 64 ↔ ∃ i, size = 2 ^ i := by
  constructor
  · intro h
    obtain ⟨i, -, hi⟩ := (Nat.dvd_prime_pow Nat.prime_two).mp h
    exact ⟨i, hi⟩
  · rintro ⟨i, rfl⟩
    have hi : i < 32 := (Nat.pow_lt_pow_iff_right (by decide)).mp hsize
    exact Nat.pow_dvd_pow 2 (by omega)

end Slots

/-! ### Tickets that go on -/

/-- What is seen of a thread whose ticket goes on. -/
def Pc.wrap : Pc → Pc
  | .spinning tmp slot => .spinning (tmp % 2 ^ 64) slot
  | .clearing tmp slot => .clearing (tmp % 2 ^ 64) slot
  | p => p

/-- What is seen of a state whose tickets go on. -/
def State.wrap (i : State T) : State T := ⟨i.flag, i.tail % 2 ^ 64, i.curslot, fun t => (i.pc t).wrap⟩

theorem passing_wrap (p : Pc) : p.wrap.Passing ↔ p.Passing := by cases p <;> rfl

/-- The state is seen of one in which the tickets go on, the entered tickets are numbered like the
drawn ones, and whoever passes has entered last. -/
structure Rolling [DecidableEq T] (size : ℕ) (h : List (Event T)) (s : State T) : Prop where
  state : ∃ i : State T, Inv size (drawn h).length (entered h).length i ∧ s = i.wrap
  numbers : entered h = (List.range (entered h).length).map (· % 2 ^ 64)
  last : ∀ t, (s.pc t).Passing → ∃ k, (entries h).getLast? = some (t, k)

section Rolling
variable [DecidableEq T] {size : ℕ} {h k : List (Event T)} {s i u : State T} {t : T} {p : Pc}

theorem wrap_update (flag : ℕ → Bool) (tail curslot : ℕ) (pc : T → Pc) (t : T) (p : Pc) :
    State.wrap ⟨flag, tail, curslot, Function.update pc t p⟩ =
      ⟨flag, tail % 2 ^ 64, curslot, Function.update (fun v => (pc v).wrap) t p.wrap⟩ :=
  congrArg (State.mk flag (tail % 2 ^ 64) curslot) (Function.comp_update Pc.wrap pc t p)

theorem Rolling.initial (size : ℕ) : Rolling size [] (initial : State T) :=
  ⟨⟨ALock.initial, (Served.initial size).inv, rfl⟩, rfl, fun _ hp => hp.elim⟩

/-- A step that shows neither a draw nor an entry. -/
theorem Rolling.silent (hs : Rolling size h s) (hd : drawn k = []) (he : entries k = [])
    (hi : Inv size (drawn h).length (entered h).length i) (hu : u = i.wrap)
    (hp : ∀ v, (u.pc v).Passing → (s.pc v).Passing) : Rolling size (h ++ k) u := by
  have he' : entered k = [] := by rw [entered_eq, he, List.map_nil]
  refine ⟨⟨i, ?_, hu⟩, ?_, fun v hv => ?_⟩
  · rwa [drawn_append, entered_append, hd, he', List.append_nil, List.append_nil]
  · rw [entered_append, he', List.append_nil]
    exact hs.numbers
  · rw [entries_append, he, List.append_nil]
    exact hs.last v (hp v hv)

/-- The thread that passes moves on. -/
theorem Rolling.move (hs : Rolling size h s) (hd : drawn k = []) (he : entries k = [])
    (hi : Inv size (drawn h).length (entered h).length i) (hsi : s = i.wrap) {flag : ℕ → Bool} {curslot : ℕ}
    (hp : (i.pc t).Passing) (hp' : p.Passing) (hw : p.wrap = p)
    (hq : ∀ k, Passed size i.flag i.curslot k (i.pc t) → Passed size flag curslot k p) :
    Rolling size (h ++ k) ⟨flag, s.tail, curslot, Function.update s.pc t p⟩ := by
  subst hsi
  refine hs.silent hd he (hi.move hp hp' hq) ?_ fun v hv => ?_
  · rw [wrap_update, hw]
    rfl
  · exact passing_goto (s := i.wrap) (p := p) (fun _ => (passing_wrap _).mpr hp) hv

theorem Rolling.draw (hs : Rolling size h s) (hsize : size < 2 ^ 32) (hpos : 0 < size)
    (hw : size ∣ 2 ^ 64 ∨ (drawn h).length < 2 ^ 64)
    (hi : Inv size (drawn h).length (entered h).length i) (hsi : s = i.wrap) (hp : i.pc t = .idle) :
    Rolling size (h ++ [.draw t s.tail]) { s.goto t (.spinning s.tail (s.tail % size % 2 ^ 32)) with
      tail := (s.tail + 1) % 2 ^ 64 } := by
  subst hsi
  have hslot : (drawn h).length % 2 ^ 64 % size % 2 ^ 32 = (drawn h).length % size := slotOf_mod hsize hpos hw
  have htail : i.wrap.tail = (drawn h).length % 2 ^ 64 := congrArg (· % 2 ^ 64) hi.tail
  have hd : drawn (h ++ [.draw t i.wrap.tail]) = drawn h ++ [i.wrap.tail] := drawn_append ..
  have he : entries (h ++ [.draw t i.wrap.tail]) = entries h := by
    rw [entries_append]
    exact List.append_nil _
  have he' : entered (h ++ [.draw t i.wrap.tail]) = entered h := by rw [entered_eq, he, ← entered_eq]
  refine ⟨⟨{ i.goto t (.spinning (drawn h).length ((drawn h).length % size)) with
    tail := (drawn h).length + 1 }, ?_, ?_⟩, by rw [he']; exact hs.numbers, fun v hv => ?_⟩
  · rw [hd, he', List.length_append, List.length_singleton]
    exact hi.take hp
  · rw [htail, hslot, Nat.mod_add_mod]
    exact (wrap_update i.flag ((drawn h).length + 1) i.curslot i.pc t
      (.spinning (drawn h).length ((drawn h).length % size))).symm
  · rw [he]
    exact hs.last v (passing_goto (s := i.wrap) (p := .spinning _ _) (fun h => h.elim) hv)

theorem Rolling.enter (hs : Rolling size h s) (hi : Inv size (drawn h).length (entered h).length i)
    (hsi : s = i.wrap) {slot : ℕ} (hp : i.pc t = .spinning (entered h).length slot)
    (hno : ∀ v, ¬ (i.pc v).Passing) :
    Rolling size (h ++ [.enter t ((entered h).length % 2 ^ 64)])
      (s.goto t (.clearing ((entered h).length % 2 ^ 64) slot)) := by
  subst hsi
  have hd : drawn (h ++ [.enter t ((entered h).length % 2 ^ 64)]) = drawn h := by
    rw [drawn_append]
    exact List.append_nil _
  have he : entries (h ++ [.enter t ((entered h).length % 2 ^ 64)]) =
      entries h ++ [(t, (entered h).length % 2 ^ 64)] := entries_append ..
  have he' : entered (h ++ [.enter t ((entered h).length % 2 ^ 64)]) =
      entered h ++ [(entered h).length % 2 ^ 64] := entered_append ..
  refine ⟨⟨i.goto t (.clearing (entered h).length slot), ?_, ?_⟩, ?_, fun v hv => ?_⟩
  · rw [hd, he', List.length_append, List.length_singleton]
    exact hi.enter hp hno
  · exact (wrap_update i.flag i.tail i.curslot i.pc t (.clearing (entered h).length slot)).symm
  · rw [he', List.length_append, List.length_singleton, List.range_succ, List.map_append, ← hs.numbers]
    rfl
  · have hvt : v = t := by
      by_contra hvt
      rw [goto_pc, if_neg hvt] at hv
      exact hno v ((passing_wrap _).mp hv)
    exact ⟨_, by rw [he, List.getLast?_append, hvt]; rfl⟩

theorem Rolling.step [Fintype T] (hs : Rolling size h s) (hsize : size < 2 ^ 32) (hpos : 0 < size)
    (hT : Fintype.card T ≤ size) (hw : size ∣ 2 ^ 64 ∨ (drawn h).length < 2 ^ 64)
    (hu : step size s t = some u) : Rolling size (h ++ shows s t) u := by
  obtain ⟨i, hi, hsi⟩ := hs.state
  have hpc : s.pc t = (i.pc t).wrap := by rw [hsi]; rfl
  cases hp : i.pc t with
  | idle =>
    have hps : s.pc t = .idle := by rw [hpc, hp]; rfl
    simp only [ALock.step, hps, Option.some.injEq] at hu
    subst hu
    simp only [shows, hps]
    exact hs.draw hsize hpos hw hi hsi hp
  | spinning tmp slot =>
    have hps : s.pc t = .spinning (tmp % 2 ^ 64) slot := by rw [hpc, hp]; rfl
    have hflag : s.flag = i.flag := by rw [hsi]; rfl
    simp only [ALock.step, hps, Option.some.injEq] at hu
    by_cases hf : s.flag slot = true
    · rw [if_pos hf] at hu
      subst hu
      obtain ⟨rfl, hno⟩ := hi.turn hT hpos hp (hflag ▸ hf)
      simp only [shows, hps, hf, if_true]
      exact hs.enter hi hsi hp hno
    · rw [if_neg hf] at hu
      subst hu
      simp only [shows, hps, hf, Bool.false_eq_true, if_false]
      exact hs.silent rfl rfl hi hsi fun _ => id
  | clearing tmp slot =>
    have hps : s.pc t = .clearing (tmp % 2 ^ 64) slot := by rw [hpc, hp]; rfl
    simp only [ALock.step, hps, Option.some.injEq] at hu
    subst hu
    simp only [shows, hps]
    have hflag : s.flag = i.flag := by rw [hsi]; rfl
    refine hs.move rfl rfl hi hsi (by rw [hp]; trivial) trivial rfl fun k hk => ?_
    rw [hp] at hk
    rw [hflag]
    exact hk.clear
  | marking slot | inside =>
    have hps : s.pc t = i.pc t := by rw [hpc, hp]; rfl
    rw [hp] at hps
    simp only [ALock.step, hps, Option.some.injEq] at hu
    subst hu
    simp only [shows, hps]
    have hflag : s.flag = i.flag := by rw [hsi]; rfl
    have hcur : s.curslot = i.curslot := by rw [hsi]; rfl
    refine hs.move rfl rfl hi hsi (by rw [hp]; trivial) trivial rfl fun k hk => ?_
    rw [hp] at hk
    simp only [goto_flag, hflag, hcur]
    exact hk
  | unlocking cur =>
    have hps : s.pc t = .unlocking cur := by rw [hpc, hp]; rfl
    simp only [ALock.step, hps, Option.some.injEq] at hu
    subst hu
    simp only [shows, hps]
    refine hs.silent rfl rfl (hi.release hsize hpos hp) ?_ fun v hv => ?_
    · rw [hsi]
      exact (wrap_update _ _ i.curslot i.pc t .idle).symm
    · exact passing_goto (p := .idle) (fun h => h.elim) hv

theorem rolling_of_run [Fintype T] (hsize : size < 2 ^ 32) (hpos : 0 < size) (hT : Fintype.card T ≤ size)
    (hr : Run (program size) Free initial h s) (hw : size ∣ 2 ^ 64 ∨ (drawn h).length < 2 ^ 64) :
    Rolling size h s := by
  refine hr.invariant (I := fun h s => (size ∣ 2 ^ 64 ∨ (drawn h).length < 2 ^ 64) → Rolling size h s)
    (fun _ => .initial size) (fun h s t u hs _ hu hw => ?_) hw
  have hw' : size ∣ 2 ^ 64 ∨ (drawn h).length < 2 ^ 64 := by
    refine hw.imp_right fun hlt => ?_
    rw [drawn_append, List.length_append] at hlt
    omega
  exact (hs hw').step hsize hpos hT hw' hu

/-- Whoever unlocks raises the flag of the ticket after its own. -/
theorem Rolling.passes (hs : Rolling size h s) (hsize : size < 2 ^ 32) (hpos : 0 < size)
    (hw : size ∣ 2 ^ 64 ∨ (drawn h).length < 2 ^ 64)
    (ht : tickets h s = (List.range ((drawn h).length + 1)).map (· % 2 ^ 64)) {cur : ℕ}
    (hp : s.pc t = .unlocking cur) : ∃ j a b, (entries h).length = j + 1 ∧ (entries h)[j]? = some (t, a) ∧
      (tickets h s)[j]? = some a ∧ (tickets h s)[j + 1]? = some b ∧
      (cur + 1) % 2 ^ 32 % size = slotOf size b := by
  obtain ⟨i, hi, hsi⟩ := hs.state
  have hlen : (entered h).length = (entries h).length := by rw [entered_eq, List.length_map]
  have hpi : i.pc t = .unlocking cur := by
    have hwrap : (i.pc t).wrap = .unlocking cur := by rw [← hp, hsi]; rfl
    cases hpi : i.pc t <;> rw [hpi] at hwrap <;> first | exact hwrap | cases hwrap
  obtain ⟨k, hk, hq⟩ := hi.passing t (by rw [hpi]; trivial)
  rw [hpi] at hq
  obtain ⟨rfl, -⟩ := hq
  obtain ⟨a, ha⟩ := hs.last t (by rw [hp]; trivial)
  have hle := hi.le
  have hentry : (entries h)[k]? = some (t, a) := by
    rw [← ha, List.getLast?_eq_getElem?]
    congr 1
    omega
  have hticket : ∀ m, m ≤ (drawn h).length → (tickets h s)[m]? = some (m % 2 ^ 64) := by
    intro m hm
    rw [ht, List.getElem?_map, List.getElem?_range (by omega)]
    rfl
  -- the ticket with which it entered is the one of its turn
  have hnum : (entered h)[k]? = some (k % 2 ^ 64) := by
    rw [hs.numbers, List.getElem?_map, List.getElem?_range (by omega)]
    rfl
  obtain rfl : a = k % 2 ^ 64 := by
    rw [entered_eq, List.getElem?_map, hentry] at hnum
    exact Option.some.inj hnum
  refine ⟨k, _, _, by omega, hentry, hticket k (by omega), hticket (k + 1) (by omega), ?_⟩
  have hmod := Nat.mod_lt k hpos
  rw [slotOf_mod hsize hpos (hw.imp_right fun hlt => by omega), Nat.mod_eq_of_lt (a := k % size + 1) (by omega),
    succ_mod_mod]

end Rolling

/-- The slots of the tickets follow each other, and every unlock raises the flag of the next
ticket, if and only if the capacity is a power of two or fewer than `2 ^ 64` tickets are drawn. -/
theorem slots_follow_iff {capacity : ℕ} (hpos : 1 ≤ capacity) (hcap : capacity < 2 ^ 32) [Fintype T]
    [DecidableEq T] (hT : Fintype.card T ≤ capacity) {h : List (Event T)} {s : State T}
    (hr : Run (program capacity) Free initial h s) :
    Follows capacity h s ↔ (∃ i, capacity = 2 ^ i) ∨ (drawn h).length < 2 ^ 64 := by
  have ht := tickets_of_run hr
  rw [← dvd_iff_two_pow hcap]
  constructor
  · intro hf
    have hslots := hf.slots
    rw [ht] at hslots
    exact (isChain_slots_iff hcap hpos).mp hslots
  · intro hw
    refine ⟨?_, fun t cur hp => (rolling_of_run hcap hpos hT hr hw).passes hcap hpos hw ht hp⟩
    rw [ht]
    exact (isChain_slots_iff hcap hpos).mpr hw

/-- Three slots: the second of two threads has the flag that the first one raises. -/
theorem slots_follow_iff_handover : ∃ (h : List (Event (Fin 2))) (s : State (Fin 2)),
    Run (program 3) Free initial h s ∧ s.pc 0 = .unlocking 0 ∧ Follows 3 h s := by
  obtain ⟨h, s, hr, ht⟩ := exists_run_of_exec (C := Free) (P := program 3) (s := (initial : State (Fin 2)))
    [0, 1, 0, 0, 0, 0] (fun h s => (drawn h).length == 2 && s.pc 0 == .unlocking 0) (by decide)
  rw [Bool.and_eq_true, beq_iff_eq, beq_iff_eq] at ht
  exact ⟨h, s, hr, ht.2, (slots_follow_iff (by decide) (by decide) (by decide) hr).mpr (.inr (by rw [ht.1]; decide))⟩

/-! ### Three slots and one thread -/

/-- The only thread stands at `p`. -/
def lone (flag : ℕ → Bool) (tail curslot : ℕ) (p : Pc) : State Unit := ⟨flag, tail, curslot, fun _ => p⟩

/-- The flag of ticket `j` of three slots is up. -/
def raised (j : ℕ) : ℕ → Bool := fun i => decide (i = j % 3)

section Lone
variable {flag : ℕ → Bool} {tail cur j : ℕ} {p q : Pc}

/-- A step of the only thread. -/
theorem step_lone {flag' : ℕ → Bool} {tail' cur' : ℕ}
    (hu : step 3 (lone flag tail cur p) () = some ⟨flag', tail', cur', Function.update (fun _ => p) () q⟩) :
    step 3 (lone flag tail cur p) () = some (lone flag' tail' cur' q) := by
  rw [hu]
  exact congrArg (fun pc => some (State.mk flag' tail' cur' pc)) (funext fun _ => Function.update_self ..)

theorem lower_raised : Function.update (raised j) (j % 3) false = fun _ => false := by
  funext i
  by_cases hi : i = j % 3
  · rw [hi, Function.update_self]
  · rw [Function.update_of_ne hi]
    exact decide_eq_false hi

theorem raise_next : Function.update (fun _ => false) ((j % 3 + 1) % 2 ^ 32 % 3) true = raised (j + 1) := by
  have hslot : (j % 3 + 1) % 2 ^ 32 % 3 = (j + 1) % 3 := by
    rw [Nat.mod_eq_of_lt (a := j % 3 + 1) (by omega), succ_mod_mod]
  funext i
  rw [hslot]
  by_cases hi : i = (j + 1) % 3
  · rw [hi, Function.update_self]
    exact (decide_eq_true rfl).symm
  · rw [Function.update_of_ne hi]
    exact (decide_eq_false hi).symm

/-- Whoever has the flag of its ticket locks and unlocks. -/
theorem lone_round (j cur : ℕ) : ∃ h, Run (program 3) Free (lone (raised j) j cur .idle) h
    (lone (raised (j + 1)) ((j + 1) % 2 ^ 64) (j % 3) .idle) ∧ (drawn h).length = 1 := by
  have hone : ∀ {s u : State Unit}, step 3 s () = some u → Run (program 3) Free s (shows s ()) u :=
    fun hu => Run.single (P := program 3) (a := ()) trivial hu
  have hslot : j % 3 % 2 ^ 32 = j % 3 := slot_eq (by decide) (by decide) j
  have hup : raised j (j % 3) = true := decide_eq_true rfl
  have h1 : step 3 (lone (raised j) j cur .idle) () =
      some (lone (raised j) ((j + 1) % 2 ^ 64) cur (.spinning j (j % 3))) :=
    step_lone (by simp only [step, lone, State.goto, hslot])
  have h2 : step 3 (lone (raised j) ((j + 1) % 2 ^ 64) cur (.spinning j (j % 3))) () =
      some (lone (raised j) ((j + 1) % 2 ^ 64) cur (.clearing j (j % 3))) :=
    step_lone (by simp only [step, lone, State.goto, hup, if_true])
  have h3 : step 3 (lone (raised j) ((j + 1) % 2 ^ 64) cur (.clearing j (j % 3))) () =
      some (lone (fun _ => false) ((j + 1) % 2 ^ 64) cur (.marking (j % 3))) :=
    step_lone (by simp only [step, lone, State.goto, lower_raised])
  have h4 : step 3 (lone (fun _ => false) ((j + 1) % 2 ^ 64) cur (.marking (j % 3))) () =
      some (lone (fun _ => false) ((j + 1) % 2 ^ 64) (j % 3) .inside) :=
    step_lone (by simp only [step, lone, State.goto])
  have h5 : step 3 (lone (fun _ => false) ((j + 1) % 2 ^ 64) (j % 3) .inside) () =
      some (lone (fun _ => false) ((j + 1) % 2 ^ 64) (j % 3) (.unlocking (j % 3))) :=
    step_lone (by simp only [step, lone, State.goto])
  have h6 : step 3 (lone (fun _ => false) ((j + 1) % 2 ^ 64) (j % 3) (.unlocking (j % 3))) () =
      some (lone (raised (j + 1)) ((j + 1) % 2 ^ 64) (j % 3) .idle) :=
    step_lone (by simp only [step, lone, State.goto, raise_next])
  refine ⟨_, (hone h1).trans <| (hone h2).trans <| (hone h3).trans <| (hone h4).trans <| (hone h5).trans <|
    hone h6, ?_⟩
  simp only [shows, lone, hup, if_true, drawn_append, List.length_append]
  rfl

/-- It takes as many tickets as it likes. -/
theorem lone_run (j : ℕ) (hj : j ≤ 2 ^ 64) : ∃ h cur, Run (program 3) Free initial h
    (lone (raised j) (j % 2 ^ 64) cur .idle) ∧ (drawn h).length = j := by
  induction j with
  | zero => exact ⟨[], 0, .refl, rfl⟩
  | succ j ih =>
    obtain ⟨h, cur, hr, hlen⟩ := ih (by omega)
    rw [Nat.mod_eq_of_lt (by omega : j < 2 ^ 64)] at hr
    obtain ⟨k, hk, hone⟩ := lone_round j cur
    exact ⟨h ++ k, _, hr.trans hk, by rw [drawn_append, List.length_append, hlen, hone]⟩

end Lone

/-- With three slots, the ticket after the last one of 64 bits has the slot of the last one again.
Its flag is down for ever: even a single thread waits for itself. -/
theorem slots_follow_rollover : ∃ (h : List (Event Unit)) (s : State Unit),
    Run (program 3) Free initial h s ∧ (drawn h).length = 2 ^ 64 + 1 ∧ ¬ Follows 3 h s ∧
      s.pc () = .spinning 0 0 ∧ step 3 s () = some s := by
  obtain ⟨h, cur, hr, hlen⟩ := lone_run (2 ^ 64) le_rfl
  have hu : step 3 (lone (raised (2 ^ 64)) (2 ^ 64 % 2 ^ 64) cur .idle) () =
      some (lone (raised (2 ^ 64)) 1 cur (.spinning 0 0)) :=
    step_lone (by simp only [step, lone, State.goto]; rfl)
  have hr' := hr.tail (a := ()) trivial hu
  refine ⟨_, _, hr', ?_, fun hf => ?_, rfl, ?_⟩
  · rw [drawn_append, List.length_append, hlen]
    rfl
  · have hslots := hf.slots
    rw [tickets_of_run hr', isChain_slots_iff (by decide) (by decide), drawn_append, List.length_append,
      hlen] at hslots
    rcases hslots with hdvd | hlt
    · exact absurd hdvd (by decide)
    · omega
  · have hdown : raised (2 ^ 64) 0 = false := by decide
    simp only [step, lone, hdown, Bool.false_eq_true, if_false]

end Multicore.Locks.ALock
