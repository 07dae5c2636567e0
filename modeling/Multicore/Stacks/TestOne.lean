import Multicore.Runs.Program
import Multicore.Runs.Totals
import Mathlib.Algebra.Order.BigOperators.Group.Finset

/-! `testone` of project 3 over an atomic stack. Each worker pushes or pops 10000 times, at
random, and does not count a pop that finds the stack empty. In the end it adds its two
counts to the totals, which are plain variables: each addition reads the total and then
writes it. When all workers are joined, `main` empties the stack and prints the sum. -/

namespace Multicore.Stacks.TestOne

open Runs

/-- Where a worker stands: before it publishes the stack, at the test of its loop, or in one of
the additions, with what it has read of the total. -/
inductive Pc
  | start | loop (i : Int32) (pushcount popcount : UInt64)
  | readPush (pushcount popcount : UInt64) | writePush (pushcount popcount total : UInt64)
  | readPop (pushcount popcount : UInt64) | writePop (pushcount popcount total : UInt64)
  | done (pushcount popcount : UInt64)
  deriving DecidableEq

inductive Main
  | joining | popping (mypopcount : UInt64) | returned
  deriving DecidableEq

/-- The data of the nodes on the stack, whether the stack has been published, and the totals. -/
@[ext] structure State (numthreads : ℕ) where
  stack : List Int32
  globalstack : Bool
  totalpushcount : UInt64
  totalpopcount : UInt64
  pc : Fin numthreads → Pc
  main : Main

/-- A worker takes a step, with the side on which `zeroone` falls, or `main` does. -/
inductive Action (numthreads : ℕ)
  | exec (t : Fin numthreads) (heads : Bool) | main

variable {numthreads : ℕ}

def State.goto (s : State numthreads) (t : Fin numthreads) (p : Pc) : State numthreads :=
  { s with pc := Function.update s.pc t p }

/-- `new Node((tid*10000) + i)` -/
def node (t : Fin numthreads) (i : Int32) : Int32 := (UInt32.ofNat t * 10000 + i.toUInt32).toInt32

def exec (s : State numthreads) (t : Fin numthreads) (heads : Bool) : Option (State numthreads) :=
  match s.pc t with
  | .start => some { s.goto t (.loop 0 0 0) with globalstack := true }
  | .loop i pushes pops =>
    if i < 10000 then
      if heads then
        some { s.goto t (.loop (i + 1) (pushes + 1) pops) with stack := node t i :: s.stack }
      else match s.stack with
        | _ :: l => some { s.goto t (.loop (i + 1) pushes (pops + 1)) with stack := l }
        -- `i--` and `i++`
        | [] => some (s.goto t (.loop (i - 1 + 1) pushes pops))
    else some (s.goto t (.readPush pushes pops))
  | .readPush pushes pops => some (s.goto t (.writePush pushes pops s.totalpushcount))
  | .writePush pushes pops total =>
    some { s.goto t (.readPop pushes pops) with totalpushcount := total + pushes }
  | .readPop pushes pops => some (s.goto t (.writePop pushes pops s.totalpopcount))
  | .writePop pushes pops total =>
    some { s.goto t (.done pushes pops) with totalpopcount := total + pops }
  | .done _ _ => none

/-- The worker has returned. -/
def Pc.isDone : Pc → Bool
  | .done _ _ => true
  | _ => false

def execMain (s : State numthreads) : Option (State numthreads) :=
  match s.main with
  | .joining => if ∀ t, (s.pc t).isDone then some { s with main := .popping 0 } else none
  -- without a worker the stack was never published
  | .popping mypopcount => if s.globalstack then
      match s.stack with
      | _ :: l => some { s with stack := l, main := .popping (mypopcount + 1) }
      | [] => some { s with main := .returned }
    else none
  | .returned => none

def step (s : State numthreads) : Action numthreads → Option (State numthreads)
  | .exec t heads => exec s t heads
  | .main => execMain s

/-- What `printf` shows. -/
def shows (s : State numthreads) : Action numthreads → List UInt64
  | .exec _ _ => []
  | .main => match s.main, s.stack with
    | .popping _, [] => [s.totalpushcount + s.totalpopcount]
    | _, _ => []

def testone (numthreads : ℕ) : Program (State numthreads) (Action numthreads) UInt64 := ⟨step, shows⟩

def initial (numthreads : ℕ) : State numthreads := ⟨[], false, 0, 0, fun _ => .start, .joining⟩

/-- Every write of a total finds there what the worker has read. -/
def Undisturbed : Guard (State numthreads) (Action numthreads) := fun s a =>
  match a with
  | .exec t _ => match s.pc t with
    | .writePush _ _ total => s.totalpushcount = total
    | .writePop _ _ total => s.totalpopcount = total
    | _ => True
  | .main => True

/-! ### What the workers have counted -/

namespace Pc

def pushcount : Pc → UInt64
  | .start => 0
  | .loop _ p _ | .readPush p _ | .writePush p _ _ | .readPop p _ | .writePop p _ _ | .done p _ => p

def popcount : Pc → UInt64
  | .start => 0
  | .loop _ _ q | .readPush _ q | .writePush _ q _ | .readPop _ q | .writePop _ q _ | .done _ q => q

/-- What the worker has added to `totalpushcount`. -/
def addedPush : Pc → ℕ
  | .readPop p _ | .writePop p _ _ | .done p _ => p.toNat
  | _ => 0

/-- What the worker has added to `totalpopcount`. -/
def addedPop : Pc → ℕ
  | .done _ q => q.toNat
  | _ => 0

/-- The counts add up to the index of the loop, and after the loop to 10000. -/
def Fits : Pc → Prop
  | .start => True
  | .loop i p q => i.toInt = p.toNat + q.toNat ∧ p.toNat + q.toNat ≤ 10000
  | .readPush p q | .writePush p q _ | .readPop p q | .writePop p q _ | .done p q =>
    p.toNat + q.toNat = 10000

variable {p : Pc}

theorem Fits.le (hp : p.Fits) : p.pushcount.toNat + p.popcount.toNat ≤ 10000 := by
  cases p with
  | start => exact Nat.zero_le _
  | loop i a b => exact hp.2
  | _ => exact le_of_eq hp

theorem Fits.done (hp : p.Fits) (hd : p.isDone) : p.pushcount.toNat + p.popcount.toNat = 10000 ∧
    p.addedPush = p.pushcount.toNat ∧ p.addedPop = p.popcount.toNat := by
  cases p with
  | done a b => exact ⟨hp, rfl, rfl⟩
  | _ => exact absurd hd Bool.false_ne_true

theorem addedPush_le (p : Pc) : p.addedPush ≤ p.pushcount.toNat := by
  cases p <;> first | exact Nat.zero_le _ | exact le_rfl

theorem addedPop_le (p : Pc) : p.addedPop ≤ p.popcount.toNat := by
  cases p <;> first | exact Nat.zero_le _ | exact le_rfl

end Pc

/-- The totals have what the workers have added. -/
structure Counted (s : State numthreads) : Prop where
  fits : ∀ t, (s.pc t).Fits
  push : s.totalpushcount.toNat = ∑ t, (s.pc t).addedPush
  pop : s.totalpopcount.toNat = ∑ t, (s.pc t).addedPop
  joined : s.main ≠ .joining → ∀ t, (s.pc t).isDone

section Step
variable {s u : State numthreads} {t : Fin numthreads} {p : Pc}

/-- The sum of the counts of workers that fit is no number that needs more than 64 bits. -/
theorem sum_lt_size (hn : numthreads < 2 ^ 32) {f : Fin numthreads → ℕ} (hf : ∀ t, f t ≤ 10000) :
    ∑ t, f t < 2 ^ 64 := by
  have hle : ∑ t, f t ≤ numthreads * 10000 := by
    have h := Finset.sum_le_card_nsmul Finset.univ f 10000 fun t _ => hf t
    rwa [Finset.card_univ, Fintype.card_fin, Nat.nsmul_eq_mul] at h
  omega

theorem Counted.initial : Counted (initial numthreads) := by
  refine ⟨fun _ => trivial, ?_, ?_, fun h => absurd rfl h⟩
  · exact (Finset.sum_eq_zero fun _ _ => rfl).symm
  · exact (Finset.sum_eq_zero fun _ _ => rfl).symm

theorem Counted.move {a b : ℕ} (hs : Counted s) (hu : u.pc = Function.update s.pc t p) (hp : p.Fits)
    (hmain : u.main = s.main) (ht : ¬ (s.pc t).isDone)
    (ha : p.addedPush = (s.pc t).addedPush + a) (hb : p.addedPop = (s.pc t).addedPop + b)
    (hpush : u.totalpushcount.toNat = s.totalpushcount.toNat + a)
    (hpop : u.totalpopcount.toNat = s.totalpopcount.toNat + b) : Counted u := by
  have hself : u.pc t = p := by rw [hu, Function.update_self]
  have hother : ∀ v, v ≠ t → u.pc v = s.pc v := fun v hv => by rw [hu, Function.update_of_ne hv]
  refine ⟨fun v => ?_, ?_, ?_, fun h => absurd (hs.joined (hmain ▸ h) t) ht⟩
  · by_cases hv : v = t
    · rw [hv, hself]
      exact hp
    · rw [hother v hv]
      exact hs.fits v
  · rw [hpush, hs.push]
    exact (sum_add_at t (by rw [hself, ha]) fun v hv => by rw [hother v hv]).symm
  · rw [hpop, hs.pop]
    exact (sum_add_at t (by rw [hself, hb]) fun v hv => by rw [hother v hv]).symm

/-- A step that adds nothing to the totals. -/
theorem Counted.keep (hs : Counted s) (hu : u.pc = Function.update s.pc t p) (hp : p.Fits)
    (hmain : u.main = s.main) (ht : ¬ (s.pc t).isDone) (ha : p.addedPush = (s.pc t).addedPush)
    (hb : p.addedPop = (s.pc t).addedPop) (hpush : u.totalpushcount = s.totalpushcount)
    (hpop : u.totalpopcount = s.totalpopcount) : Counted u :=
  hs.move (a := 0) (b := 0) hu hp hmain ht ha hb (congrArg _ hpush) (congrArg _ hpop)

/-- One round of the loop that counts. -/
theorem fits_succ {i : Int32} {a b : UInt64} (hi : i < 10000) (hp : (Pc.loop i a b).Fits) :
    (Pc.loop (i + 1) (a + 1) b).Fits ∧ (Pc.loop (i + 1) a (b + 1)).Fits := by
  obtain ⟨heq, -⟩ := hp
  have hlt : i.toInt < 10000 := Int32.lt_iff_toInt_lt.mp hi
  have hnext : (i + 1).toInt = i.toInt + 1 := by
    rw [Int32.toInt_add]
    exact Int.bmod_eq_of_le_mul_two (by rw [show Int32.toInt 1 = 1 from rfl]; omega)
      (by rw [show Int32.toInt 1 = 1 from rfl]; omega)
  have hcount : ∀ c : UInt64, c.toNat ≤ 10000 → (c + 1).toNat = c.toNat + 1 := by
    intro c hc
    rw [UInt64.toNat_add]
    exact Nat.mod_eq_of_lt (by rw [UInt64.toNat_one]; omega)
  have ha := hcount a (by omega)
  have hb := hcount b (by omega)
  exact ⟨⟨by rw [hnext, ha, heq]; omega, by omega⟩, ⟨by rw [hnext, hb, heq]; omega, by omega⟩⟩

/-- An addition to a total does not wrap. -/
theorem toNat_total_add {f : Pc → ℕ} {total c : UInt64} (hn : numthreads < 2 ^ 32)
    (hf : ∀ q : Pc, q.Fits → f q ≤ 10000) (hs : ∀ v, (s.pc v).Fits) (hp : p.Fits)
    (htotal : total.toNat = ∑ v, f (s.pc v)) (hc : f p = f (s.pc t) + c.toNat) :
    (total + c).toNat = total.toNat + c.toNat := by
  have hsum : ∑ v, f (Function.update s.pc t p v) = ∑ v, f (s.pc v) + c.toNat :=
    sum_add_at t (by rw [Function.update_self, hc]) fun v hv => by rw [Function.update_of_ne hv]
  have hlt : ∑ v, f (Function.update s.pc t p v) < 2 ^ 64 := by
    refine sum_lt_size hn fun v => hf _ ?_
    by_cases hv : v = t
    · subst hv
      rwa [Function.update_self]
    · rw [Function.update_of_ne hv]
      exact hs v
  rw [UInt64.toNat_add]
  exact Nat.mod_eq_of_lt (by omega)

theorem addedPush_le_of_fits (q : Pc) (hq : q.Fits) : q.addedPush ≤ 10000 :=
  (q.addedPush_le.trans (Nat.le_add_right _ _)).trans hq.le

theorem addedPop_le_of_fits (q : Pc) (hq : q.Fits) : q.addedPop ≤ 10000 :=
  (q.addedPop_le.trans (Nat.le_add_left _ _)).trans hq.le

theorem Counted.exec {heads : Bool} (hn : numthreads < 2 ^ 32) (hs : Counted s)
    (hc : Undisturbed s (.exec t heads)) (hu : exec s t heads = some u) : Counted u := by
  have hfits := hs.fits t
  cases hp : s.pc t with
  | start =>
    simp only [TestOne.exec, hp, Option.some.injEq] at hu
    subst hu
    exact hs.keep rfl ⟨rfl, Nat.zero_le _⟩ rfl (by rw [hp]; nofun) (by rw [hp]; rfl) (by rw [hp]; rfl)
      rfl rfl
  | loop i a b =>
    rw [hp] at hfits
    have hkeep : ∀ {q : Pc} {v : State numthreads}, v.pc = Function.update s.pc t q → q.Fits →
        q.addedPush = 0 → q.addedPop = 0 → v.main = s.main →
        v.totalpushcount = s.totalpushcount → v.totalpopcount = s.totalpopcount → Counted v := by
      intro q v hv hq ha hb hmain hpush hpop
      exact hs.keep hv hq hmain (by rw [hp]; nofun) (by rw [hp, ha]; rfl) (by rw [hp, hb]; rfl) hpush hpop
    simp only [TestOne.exec, hp] at hu
    split at hu
    · rename_i hi
      split at hu
      · cases hu
        exact hkeep rfl (fits_succ hi hfits).1 rfl rfl rfl rfl rfl
      · split at hu <;> cases hu
        · exact hkeep rfl (fits_succ hi hfits).2 rfl rfl rfl rfl rfl
        · exact hkeep rfl (by rwa [Int32.sub_add_cancel]) rfl rfl rfl rfl rfl
    · rename_i hi
      cases hu
      refine hkeep rfl ?_ rfl rfl rfl rfl rfl
      -- the loop ends at 10000 and not later
      have hge : 10000 ≤ i.toInt := Int.not_lt.mp fun h => hi (Int32.lt_iff_toInt_lt.mpr h)
      obtain ⟨heq, hle⟩ := hfits
      show a.toNat + b.toNat = 10000
      omega
  | readPush a b | readPop a b =>
    rw [hp] at hfits
    simp only [TestOne.exec, hp, Option.some.injEq] at hu
    subst hu
    exact hs.keep rfl hfits rfl (by rw [hp]; nofun) (by rw [hp]; rfl) (by rw [hp]; rfl) rfl rfl
  | writePush a b total =>
    rw [hp] at hfits
    simp only [TestOne.exec, hp, Option.some.injEq] at hu
    simp only [Undisturbed, hp] at hc
    subst hu hc
    refine hs.move (p := .readPop a b) (a := a.toNat) (b := 0) rfl hfits rfl (by rw [hp]; nofun) ?_ ?_ ?_ rfl
    · rw [hp]
      exact (Nat.zero_add _).symm
    · rw [hp]
      rfl
    · refine toNat_total_add (t := t) (p := .readPop a b) hn addedPush_le_of_fits hs.fits hfits hs.push ?_
      rw [hp]
      exact (Nat.zero_add _).symm
  | writePop a b total =>
    rw [hp] at hfits
    simp only [TestOne.exec, hp, Option.some.injEq] at hu
    simp only [Undisturbed, hp] at hc
    subst hu hc
    refine hs.move (p := .done a b) (a := 0) (b := b.toNat) rfl hfits rfl (by rw [hp]; nofun) ?_ ?_ rfl ?_
    · rw [hp]
      rfl
    · rw [hp]
      exact (Nat.zero_add _).symm
    · refine toNat_total_add (t := t) (p := .done a b) hn addedPop_le_of_fits hs.fits hfits hs.pop ?_
      rw [hp]
      exact (Nat.zero_add _).symm
  | done a b => simp [TestOne.exec, hp] at hu

theorem Counted.execMain (hs : Counted s) (hu : execMain s = some u) : Counted u := by
  unfold TestOne.execMain at hu
  cases hm : s.main with
  | joining =>
    simp only [hm, Option.ite_none_right_eq_some, Option.some.injEq] at hu
    obtain ⟨hd, rfl⟩ := hu
    exact ⟨hs.fits, hs.push, hs.pop, fun _ => hd⟩
  | popping c =>
    have hd := hs.joined (by rw [hm]; nofun)
    simp only [hm, Option.ite_none_right_eq_some] at hu
    obtain ⟨-, hu⟩ := hu
    split at hu <;> cases hu <;> exact ⟨hs.fits, hs.push, hs.pop, fun _ => hd⟩
  | returned => simp [hm] at hu

/-- When all workers are done the totals are the sums of their counts. -/
theorem Counted.totals (hs : Counted s) (hd : ∀ t, (s.pc t).isDone) :
    s.totalpushcount.toNat = ∑ t, (s.pc t).pushcount.toNat ∧
      s.totalpopcount.toNat = ∑ t, (s.pc t).popcount.toNat := by
  rw [hs.push, hs.pop]
  exact ⟨Finset.sum_congr rfl fun t _ => ((hs.fits t).done (hd t)).2.1,
    Finset.sum_congr rfl fun t _ => ((hs.fits t).done (hd t)).2.2⟩

/-- The number that is printed then. -/
theorem Counted.printed (hn : numthreads < 2 ^ 32) (hs : Counted s) (hd : ∀ t, (s.pc t).isDone) :
    (s.totalpushcount + s.totalpopcount).toNat = 10000 * numthreads := by
  obtain ⟨hpush, hpop⟩ := hs.totals hd
  have hsum : s.totalpushcount.toNat + s.totalpopcount.toNat = 10000 * numthreads := by
    rw [hpush, hpop, ← Finset.sum_add_distrib,
      Finset.sum_congr rfl fun t _ => ((hs.fits t).done (hd t)).1, Finset.sum_const, Finset.card_univ,
      Fintype.card_fin, Nat.nsmul_eq_mul, Nat.mul_comm]
  rw [UInt64.toNat_add, hsum]
  exact Nat.mod_eq_of_lt (by omega)

end Step

/-- In every run in which no write of a total overwrites what another worker has added, the
totals are the sums of the workers' counts when all workers are done, and what is printed
is 10000 times their number. -/
theorem testone_reports_all {h : List UInt64} {s : State numthreads} (hn : numthreads < 2 ^ 32)
    (hr : Run (testone numthreads) Undisturbed (initial numthreads) h s) :
    ((∀ t, (s.pc t).isDone) →
      s.totalpushcount.toNat = ∑ t, (s.pc t).pushcount.toNat ∧
        s.totalpopcount.toNat = ∑ t, (s.pc t).popcount.toNat) ∧
      ∀ k ∈ h, k.toNat = 10000 * numthreads := by
  have hinv : Counted s ∧ ∀ k ∈ h, k.toNat = 10000 * numthreads := by
    refine hr.invariant (I := fun h s => Counted s ∧ ∀ k ∈ h, k.toNat = 10000 * numthreads)
      ⟨.initial, nofun⟩ ?_
    rintro h s a u ⟨hs, hh⟩ hc hu
    cases a with
    | exec t heads =>
      refine ⟨hs.exec hn hc hu, fun k hk => hh k ?_⟩
      simpa only [testone, shows, List.append_nil] using hk
    | main =>
      refine ⟨hs.execMain hu, fun k hk => ?_⟩
      rcases List.mem_append.mp hk with hk | hk
      · exact hh k hk
      · simp only [testone, shows] at hk
        split at hk
        · rename_i hm _
          rw [List.mem_singleton.mp hk]
          exact hs.printed hn (hs.joined (by rw [hm]; nofun))
        · cases hk
  exact ⟨hinv.1.totals, hinv.2⟩

/-! ### Whole runs -/

section Whole
variable {s u : State numthreads} {t : Fin numthreads}

theorem run_exec (t : Fin numthreads) (heads : Bool) (hc : Undisturbed s (.exec t heads))
    (hu : exec s t heads = some u) :
    Run (testone numthreads) Undisturbed s [] u :=
  Run.single (P := testone numthreads) (a := .exec t heads) hc hu

/-- A worker whose every toss is a head pushes in every round. -/
theorem run_pushes (ht : s.pc t = .loop 0 0 0) : ∀ k ≤ 10000, ∃ l, Run (testone numthreads) Undisturbed s []
    { s.goto t (.loop (Int32.ofNat k) (UInt64.ofNat k) 0) with stack := l }
  | 0, _ => by
    refine ⟨s.stack, ?_⟩
    have hs : s.goto t (.loop 0 0 0) = s := by
      rw [State.goto, ← ht, Function.update_eq_self]
    show Run _ _ s [] (s.goto t (.loop 0 0 0))
    rw [hs]
    exact .refl
  | k + 1, hk => by
    obtain ⟨l, hr⟩ := run_pushes ht k (by omega)
    have hlt : Int32.ofNat k < 10000 := by
      rw [Int32.lt_iff_toInt_lt, Int32.toInt_ofNat_of_lt (by omega)]
      show (k : ℤ) < 10000
      omega
    have hi : Int32.ofNat (k + 1) = Int32.ofNat k + 1 := Int32.ofNat_add ..
    have hc : UInt64.ofNat (k + 1) = UInt64.ofNat k + 1 := UInt64.ofNat_add ..
    refine ⟨node t (Int32.ofNat k) :: l, hr.trans (run_exec t true ?_ ?_)⟩
    · simp only [Undisturbed, State.goto, Function.update_self]
    · simp only [exec, State.goto, Function.update_self, Function.update_idem, if_pos hlt, if_true, hi, hc]

/-- Such a worker from its first step to the first addition. -/
theorem run_worker (ht : s.pc t = .start) : ∃ u, Run (testone numthreads) Undisturbed s [] u ∧
    u.pc = Function.update s.pc t (.readPush 10000 0) ∧ u.globalstack = true ∧ u.main = s.main ∧
      u.totalpushcount = s.totalpushcount ∧ u.totalpopcount = s.totalpopcount := by
  have h1 : Run (testone numthreads) Undisturbed s [] { s.goto t (.loop 0 0 0) with globalstack := true } :=
    run_exec t true (by simp only [Undisturbed, ht]) (by simp only [exec, ht])
  obtain ⟨l, h2⟩ := run_pushes (s := { s.goto t (.loop 0 0 0) with globalstack := true }) (t := t)
    (Function.update_self ..) 10000 le_rfl
  simp only [State.goto, Function.update_idem] at h2
  refine ⟨{ s.goto t (.readPush 10000 0) with stack := l, globalstack := true },
    h1.trans (h2.trans (run_exec t true ?_ ?_)), rfl, rfl, rfl, rfl, rfl⟩
  · simp only [Undisturbed, Function.update_self]
  · have hi : ¬ Int32.ofNat 10000 < 10000 := by decide
    simp only [exec, State.goto, Function.update_self, Function.update_idem, if_neg hi]
    rfl

/-- A worker that nobody disturbs adds its counts. -/
theorem run_additions {a b : UInt64} (ht : s.pc t = .readPush a b) :
    ∃ u, Run (testone numthreads) Undisturbed s [] u ∧ u.pc = Function.update s.pc t (.done a b) ∧
      u.globalstack = s.globalstack ∧ u.main = s.main := by
  have h1 : Run (testone numthreads) Undisturbed s [] (s.goto t (.writePush a b s.totalpushcount)) :=
    run_exec t true (by simp only [Undisturbed, ht]) (by simp only [exec, ht])
  have h2 := run_exec (s := s.goto t (.writePush a b s.totalpushcount))
    (u := { s.goto t (.readPop a b) with totalpushcount := s.totalpushcount + a }) t true
    (by simp only [Undisturbed, State.goto, Function.update_self])
    (by simp only [exec, State.goto, Function.update_self, Function.update_idem])
  have h3 := run_exec (s := { s.goto t (.readPop a b) with totalpushcount := s.totalpushcount + a })
    (u := { s.goto t (.writePop a b s.totalpopcount) with totalpushcount := s.totalpushcount + a }) t true
    (by simp only [Undisturbed, State.goto, Function.update_self])
    (by simp only [exec, State.goto, Function.update_self, Function.update_idem])
  refine ⟨{ s.goto t (.done a b) with
    totalpushcount := s.totalpushcount + a, totalpopcount := s.totalpopcount + b },
    ((h1.trans h2).trans h3).trans (run_exec t true ?_ ?_), rfl, rfl, rfl⟩
  · simp only [Undisturbed, State.goto, Function.update_self]
  · simp only [exec, State.goto, Function.update_self, Function.update_idem]

/-- `main` empties the stack and prints. -/
theorem run_main (hg : s.globalstack = true) : ∀ l c, s.stack = l → s.main = .popping c →
    ∃ u, Run (testone numthreads) Undisturbed s [s.totalpushcount + s.totalpopcount] u ∧ u.pc = s.pc ∧
      u.totalpushcount = s.totalpushcount ∧ u.totalpopcount = s.totalpopcount := by
  intro l
  induction l generalizing s with
  | nil =>
    intro c hs hm
    have hr := Run.single (P := testone numthreads) (C := Undisturbed) (s := s) (a := .main)
      (u := { s with main := .returned }) trivial
      (by simp only [testone, step, execMain, hm, hs, hg, if_true])
    simp only [testone, shows, hm, hs] at hr
    exact ⟨_, hr, rfl, rfl, rfl⟩
  | cons n l ih =>
    intro c hs hm
    have hr := Run.single (P := testone numthreads) (C := Undisturbed) (s := s) (a := .main)
      (u := { s with stack := l, main := .popping (c + 1) }) trivial
      (by simp only [testone, step, execMain, hm, hs, hg, if_true])
    simp only [testone, shows, hm, hs] at hr
    obtain ⟨u, hu, hpc, hpush, hpop⟩ :=
      ih (s := { s with stack := l, main := .popping (c + 1) }) hg (c + 1) rfl rfl
    exact ⟨u, hr.trans hu, hpc, hpush, hpop⟩

/-- When the workers are done `main` joins them, empties the stack and prints. -/
theorem run_join (hd : ∀ t, (s.pc t).isDone) (hg : s.globalstack = true) (hm : s.main = .joining) :
    ∃ u, Run (testone numthreads) Undisturbed s [s.totalpushcount + s.totalpopcount] u ∧ u.pc = s.pc ∧
      u.totalpushcount = s.totalpushcount ∧ u.totalpopcount = s.totalpopcount := by
  have hr := Run.single (P := testone numthreads) (C := Undisturbed) (s := s) (a := .main)
    (u := { s with main := .popping 0 }) trivial
    (by simp only [testone, step, execMain, hm]; exact if_pos hd)
  simp only [testone, shows, hm] at hr
  obtain ⟨u, hu, hpc⟩ := run_main (s := { s with main := .popping 0 }) hg s.stack 0 rfl rfl
  exact ⟨u, hr.trans hu, hpc⟩

end Whole

/-- One worker that pushes in every round: all of it is reported. -/
theorem testone_reports_all_one : ∃ (h : List UInt64) (s : State 1),
    Run (testone 1) Undisturbed (initial 1) h s ∧ s.pc 0 = .done 10000 0 ∧ h ≠ [] ∧
      s.totalpushcount.toNat = ∑ t, (s.pc t).pushcount.toNat ∧ ∀ k ∈ h, k.toNat = 10000 * 1 := by
  obtain ⟨u₁, h1, hp1, hg1, hm1, -⟩ := run_worker (s := initial 1) (t := 0) rfl
  obtain ⟨u₂, h2, hp2, hg2, hm2⟩ := run_additions (t := 0) (by rw [hp1, Function.update_self])
  have hdone : ∀ t, u₂.pc t = .done 10000 0 := by
    intro t
    rw [Subsingleton.elim t 0, hp2, Function.update_self]
  obtain ⟨u, h3, hpc, -⟩ := run_join (fun t => by rw [hdone t]; rfl) (hg2.trans hg1) (hm2.trans hm1)
  obtain ⟨htotals, hprinted⟩ := testone_reports_all (by decide) ((h1.trans h2).trans h3)
  refine ⟨_, u, (h1.trans h2).trans h3, by rw [hpc, hdone], nofun, (htotals fun t => ?_).1, hprinted⟩
  rw [hpc, hdone]
  rfl

/-- Two workers both read a total before either writes it. -/
theorem run_lost (l : List Int32) (a : UInt64) : ∃ u, Run (testone 2) Free
    ⟨l, true, 0, 0, fun _ => .readPush a 0, .joining⟩ [] u ∧ (∀ t, u.pc t = .done a 0) ∧
      u.totalpushcount = 0 + a ∧ u.totalpopcount = 0 + 0 ∧ u.globalstack = true ∧ u.main = .joining :=
  ⟨_, run_of_exec (r := ([], _)) (rfl : (testone 2).exec Free _ [.exec 0 true, .exec 1 true, .exec 0 true,
    .exec 1 true, .exec 0 true, .exec 0 true, .exec 1 true, .exec 1 true] = _),
    Fin.forall_fin_two.mpr ⟨rfl, rfl⟩, rfl, rfl, rfl, rfl⟩

/-- The additions of one of two workers are lost: 10000 operations are reported of 20000. -/
theorem testone_loses_counts : ∃ (h : List UInt64) (s : State 2), Run (testone 2) Free (initial 2) h s ∧
    (∀ t, (s.pc t).isDone) ∧ s.totalpushcount.toNat = 10000 ∧ ∑ t, (s.pc t).pushcount.toNat = 20000 ∧
      h = [10000] := by
  obtain ⟨u₁, h1, hp1, -, hm1, hpush1, hpop1⟩ := run_worker (s := initial 2) (t := 0) rfl
  obtain ⟨u₂, h2, hp2, hg2, hm2, hpush2, hpop2⟩ := run_worker (s := u₁) (t := 1) (by rw [hp1]; rfl)
  have hpc : u₂.pc = fun _ => .readPush 10000 0 := by
    rw [hp2, hp1]
    exact funext (Fin.forall_fin_two.mpr ⟨rfl, rfl⟩)
  have hu₂ : u₂ = ⟨u₂.stack, true, 0, 0, fun _ => .readPush 10000 0, .joining⟩ :=
    State.ext rfl hg2 (hpush2.trans hpush1) (hpop2.trans hpop1) hpc (hm2.trans hm1)
  obtain ⟨u₃, h3, hd, hpush3, hpop3, hg3, hm3⟩ := run_lost u₂.stack 10000
  rw [← hu₂] at h3
  obtain ⟨u, h4, hpc, hpush, hpop⟩ := run_join (fun t => by rw [hd t]; rfl) hg3 hm3
  have hdone : ∀ t, u.pc t = .done 10000 0 := fun t => by rw [hpc, hd t]
  refine ⟨_, u, ((h1.trans h2).mono fun _ _ _ => trivial).trans (h3.trans (h4.mono fun _ _ _ => trivial)),
    fun t => by rw [hdone t]; rfl, ?_, ?_, ?_⟩
  · rw [hpush, hpush3]
    rfl
  · simp only [hdone]
    rfl
  · rw [hpush3, hpop3]
    rfl

end Multicore.Stacks.TestOne
