import Multicore.Exchange.Deadline
import Multicore.Locks.SimpleTest

/-! second_test over every lock. Each worker waits for the start time; then, until it sees that
the stop time has come, it takes the lock, counts, and adds up how long it has waited for the
lock. The clock goes on by itself and never back. -/

namespace Multicore.Locks.SecondTest

open Runs Exchange

/-! ### Times -/

def tsLt (a b : Timespec) : Bool :=
  if a.tvSec > b.tvSec then false
  else if a.tvSec < b.tvSec then true
  else if a.tvNsec < b.tvNsec then true
  else false

def NSEC_SEC : ℤ := 1000000000

/-- `ts_sub`, for differences that 64 bits hold. -/
def tsSub (x y : Timespec) : ℕ :=
  let retval := if x.tvNsec < y.tvNsec then x.tvNsec - y.tvNsec + NSEC_SEC else x.tvNsec - y.tvNsec
  let second := if x.tvNsec < y.tvNsec then x.tvSec - y.tvSec - 1 else x.tvSec - y.tvSec
  if retval + second * NSEC_SEC < 0 then 0 else (retval + second * NSEC_SEC).toNat

variable {a b c x y : Timespec}

/-- Unlike `operator<` of `Common.h` this is the order of the times. -/
theorem tsLt_iff (ha : a.Reading) (hb : b.Reading) : tsLt a b = true ↔ a.nanos < b.nanos := by
  have := ha.nonneg
  have := ha.le
  have := hb.nonneg
  have := hb.le
  unfold tsLt Timespec.nanos
  split_ifs <;> simp <;> omega

theorem tsSub_eq (h : y.nanos ≤ x.nanos) : (tsSub x y : ℤ) = x.nanos - y.nanos := by
  unfold Timespec.nanos at h ⊢
  simp only [tsSub, NSEC_SEC]
  split_ifs <;> omega

/-- The stop time is `num_seconds` after the start time. -/
def later (start : Timespec) (numSeconds : UInt32) : Timespec :=
  { start with tvSec := start.tvSec + numSeconds.toNat }

theorem reading_later (h : a.Reading) (n : UInt32) : (later a n).Reading := ⟨h.nonneg, h.le⟩

theorem le_later (a : Timespec) (n : UInt32) : a.nanos ≤ (later a n).nanos := by
  simp only [later, Timespec.nanos]
  omega

/-! ### The workers -/

/-- Where a worker stands, with its local times. -/
inductive Pc (L : Type*)
  | start | waiting (current : Timespec)
  | loop (lock2 : Timespec)
  | locking (lock1 : Timespec) (l : L) | locked (lock1 : Timespec)
  | timed (lock1 lock2 : Timespec) | adding (lock1 lock2 : Timespec) (v : ℕ)
  | unlocking (lock1 lock2 : Timespec) (l : L) | unlocked (lock1 lock2 : Timespec)
  | done
  deriving DecidableEq

structure State (T S L : Type*) where
  now : Timespec
  shared : S
  counter : ℕ
  tcounters : T → ℕ
  tnsecs : T → ℕ
  pc : T → Pc L

inductive Action (T : Type*)
  | tick (now : Timespec) | step (t : T)

variable {T S L : Type*} [DecidableEq T]

def State.goto (s : State T S L) (t : T) (p : Pc L) : State T S L :=
  { s with pc := Function.update s.pc t p }

/-- A worker moves and leaves the lock and the counter so. -/
def State.put (s : State T S L) (shared : S) (counter : ℕ) (t : T) (p : Pc L) : State T S L :=
  { s with shared := shared, counter := counter, pc := Function.update s.pc t p }

/-- A worker has counted a round in its own two entries. -/
def State.tally (s : State T S L) (t : T) (nsecs : ℕ) (p : Pc L) : State T S L :=
  { s with
    tcounters := Function.update s.tcounters t ((s.tcounters t + 1) % 2 ^ 64)
    tnsecs := Function.update s.tnsecs t ((s.tnsecs t + nsecs) % 2 ^ 64)
    pc := Function.update s.pc t p }

/-- The next step of `worker_thread`. -/
def workerThread (K : Lock S L) (start stop : Timespec) (s : State T S L) (t : T) : Option (State T S L) :=
  match s.pc t with
  | .start => some (s.goto t (.waiting s.now))
  | .waiting current => some (s.goto t (if tsLt current start then .waiting s.now else .loop current))
  | .loop lock2 => some (s.goto t (if tsLt lock2 stop then .locking s.now K.lock else .done))
  | .locking lock1 l => (K.access s.shared l).map fun r =>
    s.put r.1 s.counter t (r.2.elim (.locked lock1) (.locking lock1))
  | .locked lock1 => some (s.goto t (.timed lock1 s.now))
  -- counter++ is a read and a write
  | .timed lock1 lock2 => some (s.goto t (.adding lock1 lock2 s.counter))
  | .adding lock1 lock2 v =>
    some (s.put s.shared ((v + 1) % 2 ^ 64) t (.unlocking lock1 lock2 K.unlock))
  | .unlocking lock1 lock2 l => (K.access s.shared l).map fun r =>
    s.put r.1 s.counter t (r.2.elim (.unlocked lock1 lock2) (.unlocking lock1 lock2))
  -- no other thread uses the entries of this one
  | .unlocked lock1 lock2 => some (s.tally t (tsSub lock2 lock1) (.loop lock2))
  | .done => none

/-- The calls of `lock` and the stores to the counter are seen. -/
def shows (stop : Timespec) (s : State T S L) : Action T → List (Lock.Seen T)
  | .tick _ => []
  | .step t => match s.pc t with
    | .loop lock2 => if tsLt lock2 stop then [.called t] else []
    | .adding _ _ _ => [.added t]
    | _ => []

def program (T : Type*) [DecidableEq T] (K : Lock S L) (start stop : Timespec) :
    Program (State T S L) (Action T) (Lock.Seen T) where
  step s
    | .tick now => some { s with now := now }
    | .step t => workerThread K start stop s t
  shows := shows stop

/-- The clock does not go back. -/
def Steady : Guard (State T S L) (Action T) := fun s a =>
  match a with
  | .tick now => now.Reading ∧ s.now.nanos ≤ now.nanos
  | .step _ => True

/-- The threads are created at the time `now`. -/
def initial (T L : Type*) (shared : S) (now : Timespec) : State T S L :=
  ⟨now, shared, 0, fun _ => 0, fun _ => 0, fun _ => .start⟩

def Done (s : State T S L) : Prop := ∀ t, s.pc t = .done

/-- What `main` returns. -/
def retval [Fintype T] (s : State T S L) : ℕ := if (∑ t, s.tcounters t) % 2 ^ 64 ≠ s.counter then 1 else 0

/-! ### The workers as threads that count -/

def Pc.stage : Pc L → Lock.Stage L
  | .start | .waiting _ | .loop _ | .unlocked _ _ | .done => .outside
  | .locking _ l => .locking l
  | .locked _ | .timed _ _ => .locked
  | .adding _ _ v => .adding v
  | .unlocking _ _ l => .unlocking l

def State.counting (s : State T S L) : Lock.Counting T S L :=
  ⟨s.shared, s.counter, fun t => (s.pc t).stage⟩

section Step
variable {K : Lock S L} {start stop : Timespec} {s u : State T S L} {t v : T} {p : Pc L}

@[simp] theorem goto_pc (s : State T S L) (t : T) (p : Pc L) : (s.goto t p).pc t = p :=
  Function.update_self ..

@[simp] theorem put_pc (s : State T S L) (shared : S) (counter : ℕ) (t : T) (p : Pc L) :
    (s.put shared counter t p).pc t = p := Function.update_self ..

@[simp] theorem tally_pc (s : State T S L) (t : T) (nsecs : ℕ) (p : Pc L) :
    (s.tally t nsecs p).pc t = p := Function.update_self ..

omit [DecidableEq T] in
@[simp] theorem counting_stage (s : State T S L) (t : T) : s.counting.stage t = (s.pc t).stage := rfl

theorem counting_put (s : State T S L) (shared : S) (counter : ℕ) (t : T) (p : Pc L) :
    (s.put shared counter t p).counting = s.counting.goto shared counter t p.stage :=
  congrArg (Lock.Counting.mk shared counter) (Function.comp_update Pc.stage s.pc t p)

theorem counting_goto (s : State T S L) (t : T) (p : Pc L) :
    (s.goto t p).counting = s.counting.goto s.shared s.counter t p.stage := counting_put ..

/-- A worker that stays in its stage is not seen to move. -/
theorem counting_of_stage (hp : (s.pc t).stage = p.stage) :
    s.counting.goto s.shared s.counter t p.stage = s.counting := by
  rw [← hp, Lock.Counting.goto]
  exact congrArg (Lock.Counting.mk s.shared s.counter) (Function.update_eq_self t s.counting.stage)

/-- One step of a worker: it waits for the start, begins a round or is done, goes on in one, or
counts it. -/
theorem step_cases (hu : workerThread K start stop s t = some u) :
    (∃ p, u = s.goto t p ∧ (s.pc t = .start ∧ p = .waiting s.now ∨
      ∃ c, s.pc t = .waiting c ∧ p = if tsLt c start then .waiting s.now else .loop c)) ∨
    (∃ c p, s.pc t = .loop c ∧ u = s.goto t p ∧
      p = if tsLt c stop then .locking s.now K.lock else .done) ∨
    (∃ c l r, s.pc t = .locking c l ∧ K.access s.shared l = some r ∧
      u = s.put r.1 s.counter t (r.2.elim (.locked c) (.locking c))) ∨
    (∃ c, s.pc t = .locked c ∧ u = s.goto t (.timed c s.now)) ∨
    (∃ c d, s.pc t = .timed c d ∧ u = s.goto t (.adding c d s.counter)) ∨
    (∃ c d x, s.pc t = .adding c d x ∧
      u = s.put s.shared ((x + 1) % 2 ^ 64) t (.unlocking c d K.unlock)) ∨
    (∃ c d l r, s.pc t = .unlocking c d l ∧ K.access s.shared l = some r ∧
      u = s.put r.1 s.counter t (r.2.elim (.unlocked c d) (.unlocking c d))) ∨
    (∃ c d, s.pc t = .unlocked c d ∧ u = s.tally t (tsSub d c) (.loop d)) := by
  cases hp : s.pc t with
  | done => simp only [workerThread, hp, reduceCtorEq] at hu
  | locking c l =>
    simp only [workerThread, hp, Option.map_eq_some_iff] at hu
    obtain ⟨r, hr, rfl⟩ := hu
    exact .inr (.inr (.inl ⟨c, l, r, rfl, hr, rfl⟩))
  | unlocking c d l =>
    simp only [workerThread, hp, Option.map_eq_some_iff] at hu
    obtain ⟨r, hr, rfl⟩ := hu
    exact .inr (.inr (.inr (.inr (.inr (.inr (.inl ⟨c, d, l, r, rfl, hr, rfl⟩))))))
  | _ =>
    simp only [workerThread, hp, Option.some.injEq] at hu
    simp [← hu]

theorem pc_of_ne (hu : workerThread K start stop s t = some u) (hv : v ≠ t) : u.pc v = s.pc v := by
  rcases step_cases hu with ⟨p, rfl, -⟩ | ⟨c, p, -, rfl, -⟩ | ⟨c, l, r, -, -, rfl⟩ | ⟨c, -, rfl⟩ |
    ⟨c, d, -, rfl⟩ | ⟨c, d, x, -, rfl⟩ | ⟨c, d, l, r, -, -, rfl⟩ | ⟨c, d, -, rfl⟩ <;>
    exact Function.update_of_ne hv ..

/-- A step of a worker is a step of a thread that counts, or is not seen. -/
theorem counting_of_step (hu : workerThread K start stop s t = some u) :
    (u.counting = s.counting ∧ shows stop s (.step t) = [] ∧
        ((s.pc t).stage = .outside ∨ (s.pc t).stage = .locked)) ∨
      Lock.Counting.step K 64 s.counting t = some u.counting ∧
        shows stop s (.step t) = Lock.Counting.shows s.counting t := by
  rcases step_cases hu with ⟨p, rfl, ⟨hp, rfl⟩ | ⟨c, hp, rfl⟩⟩ | ⟨c, p, hp, rfl, rfl⟩ | ⟨c, l, r, hp, hr, rfl⟩ |
    ⟨c, hp, rfl⟩ | ⟨c, d, hp, rfl⟩ | ⟨c, d, x, hp, rfl⟩ | ⟨c, d, l, r, hp, hr, rfl⟩ | ⟨c, d, hp, rfl⟩
  · refine .inl ⟨?_, by simp [shows, hp], by simp [hp, Pc.stage]⟩
    rw [counting_goto, counting_of_stage (by rw [hp]; rfl)]
  · refine .inl ⟨?_, by simp [shows, hp], by simp [hp, Pc.stage]⟩
    rw [counting_goto, counting_of_stage (by rw [hp]; split_ifs <;> rfl)]
  · cases hlt : tsLt c stop with
    | false =>
      refine .inl ⟨?_, by simp [shows, hp, hlt], by simp [hp, Pc.stage]⟩
      rw [counting_goto, counting_of_stage (by rw [hp]; rfl)]
    | true =>
      refine .inr ⟨?_, by simp [shows, Lock.Counting.shows, hp, hlt, Pc.stage]⟩
      simp only [Lock.Counting.step, counting_stage, hp, Pc.stage, counting_goto]
      rfl
  · refine .inr ⟨?_, by simp [shows, Lock.Counting.shows, hp, Pc.stage]⟩
    simp only [Lock.Counting.step, counting_stage, hp, Pc.stage, counting_put]
    show (K.access s.shared l).map _ = _
    rw [hr, Option.map_some]
    cases r.2 <;> rfl
  · refine .inl ⟨?_, by simp [shows, hp], by simp [hp, Pc.stage]⟩
    rw [counting_goto, counting_of_stage (by rw [hp]; rfl)]
  · refine .inr ⟨?_, by simp [shows, Lock.Counting.shows, hp, Pc.stage]⟩
    simp only [Lock.Counting.step, counting_stage, hp, Pc.stage, counting_goto]
    rfl
  · refine .inr ⟨?_, by simp [shows, Lock.Counting.shows, hp, Pc.stage]⟩
    simp only [Lock.Counting.step, counting_stage, hp, Pc.stage, counting_put]
    rfl
  · refine .inr ⟨?_, by simp [shows, Lock.Counting.shows, hp, Pc.stage]⟩
    simp only [Lock.Counting.step, counting_stage, hp, Pc.stage, counting_put]
    show (K.access s.shared l).map _ = _
    rw [hr, Option.map_some]
    cases r.2 <;> rfl
  · refine .inl ⟨?_, by simp [shows, hp], by simp [hp, Pc.stage]⟩
    exact (counting_goto s t (.loop d)).trans (counting_of_stage (by rw [hp]; rfl))

end Step

/-! ### What the workers keep -/

/-- A store that is not yet counted in `tcounters`. -/
def Pc.pending : Pc L → ℕ
  | .unlocking _ _ _ | .unlocked _ _ => 1
  | _ => 0

/-- What a worker has added up lies between `origin` and the last time that it has read; it reads
one time after the other. -/
def Pc.Times (origin now : Timespec) (nsecs : ℕ) : Pc L → Prop
  | .start | .done => (nsecs : ℤ) ≤ now.nanos - origin.nanos
  | .waiting c | .loop c | .locking c _ | .locked c =>
    (nsecs : ℤ) ≤ c.nanos - origin.nanos ∧ c.nanos ≤ now.nanos
  | .timed c d | .adding c d _ | .unlocking c d _ | .unlocked c d =>
    (nsecs : ℤ) ≤ c.nanos - origin.nanos ∧ c.nanos ≤ d.nanos ∧ d.nanos ≤ now.nanos

theorem Pc.Times.mono {origin now now' : Timespec} {nsecs : ℕ} {p : Pc L}
    (h : p.Times origin now nsecs) (hle : now.nanos ≤ now'.nanos) : p.Times origin now' nsecs := by
  cases p with
  | start | done => exact Int.le_trans h (Int.sub_le_sub_right hle _)
  | waiting c | loop c | locking c l | locked c => exact ⟨h.1, h.2.trans hle⟩
  | timed c d | adding c d x | unlocking c d l | unlocked c d => exact ⟨h.1, h.2.1, h.2.2.trans hle⟩

section Frame
variable {K : Lock S L} {start stop origin : Timespec} {s u : State T S L} {t v : T}

/-- What a worker leaves as it is. -/
theorem frame_of_step (hu : workerThread K start stop s t = some u) :
    u.now = s.now ∧ ∀ v, v ≠ t → u.tcounters v = s.tcounters v ∧ u.tnsecs v = s.tnsecs v := by
  rcases step_cases hu with ⟨p, rfl, -⟩ | ⟨c, p, -, rfl, -⟩ | ⟨c, l, r, -, -, rfl⟩ | ⟨c, -, rfl⟩ |
    ⟨c, d, -, rfl⟩ | ⟨c, d, x, -, rfl⟩ | ⟨c, d, l, r, -, -, rfl⟩ | ⟨c, d, -, rfl⟩
  · exact ⟨rfl, fun _ _ => ⟨rfl, rfl⟩⟩
  · exact ⟨rfl, fun _ _ => ⟨rfl, rfl⟩⟩
  · exact ⟨rfl, fun _ _ => ⟨rfl, rfl⟩⟩
  · exact ⟨rfl, fun _ _ => ⟨rfl, rfl⟩⟩
  · exact ⟨rfl, fun _ _ => ⟨rfl, rfl⟩⟩
  · exact ⟨rfl, fun _ _ => ⟨rfl, rfl⟩⟩
  · exact ⟨rfl, fun _ _ => ⟨rfl, rfl⟩⟩
  · exact ⟨rfl, fun _ hv => ⟨Function.update_of_ne hv .., Function.update_of_ne hv ..⟩⟩

/-- The stores of a worker, and those that it has in `tcounters`. -/
theorem tallied_of_step {n : ℕ} (hu : workerThread K start stop s t = some u)
    (ht : (s.tcounters t + (s.pc t).pending) % 2 ^ 64 = n % 2 ^ 64) :
    (u.tcounters t + (u.pc t).pending) % 2 ^ 64 =
      (n + (shows stop s (.step t)).count (.added t)) % 2 ^ 64 := by
  have hsame : ∀ {m k : ℕ}, m = s.tcounters t + (s.pc t).pending → k = 0 → m % 2 ^ 64 = (n + k) % 2 ^ 64 := by
    rintro m k rfl rfl
    exact ht
  rcases step_cases hu with ⟨p, rfl, ⟨hp, rfl⟩ | ⟨c, hp, rfl⟩⟩ | ⟨c, p, hp, rfl, rfl⟩ | ⟨c, l, r, hp, -, rfl⟩ |
    ⟨c, hp, rfl⟩ | ⟨c, d, hp, rfl⟩ | ⟨c, d, x, hp, rfl⟩ | ⟨c, d, l, r, hp, -, rfl⟩ | ⟨c, d, hp, rfl⟩
  · exact hsame (by rw [hp, goto_pc]; rfl) (by simp [shows, hp])
  · refine hsame ?_ (by simp [shows, hp])
    rw [hp, goto_pc]
    split_ifs <;> rfl
  · refine hsame ?_ ?_
    · rw [hp, goto_pc]
      split_ifs <;> rfl
    · simp only [shows, hp]
      split_ifs <;> rfl
  · refine hsame ?_ (by simp [shows, hp])
    rw [hp, put_pc]
    cases r.2 <;> rfl
  · exact hsame (by rw [hp, goto_pc]; rfl) (by simp [shows, hp])
  · exact hsame (by rw [hp, goto_pc]; rfl) (by simp [shows, hp])
  · rw [hp] at ht
    simp only [Pc.pending, Nat.add_zero] at ht
    simp only [put_pc, Pc.pending, shows, hp, List.count_cons_self, List.count_nil]
    rw [← Nat.mod_add_mod n, ← ht, Nat.mod_add_mod]
    rfl
  · refine hsame ?_ (by simp [shows, hp])
    rw [hp, put_pc]
    cases r.2 <;> rfl
  · rw [hp] at ht
    simp only [Pc.pending] at ht
    simp only [State.tally, Function.update_self, Pc.pending, shows, hp, List.count_nil, Nat.add_zero,
      Nat.mod_mod]
    exact ht

theorem times_of_step (hu : workerThread K start stop s t = some u)
    (ht : (s.pc t).Times origin s.now (s.tnsecs t)) : (u.pc t).Times origin u.now (u.tnsecs t) := by
  rcases step_cases hu with ⟨p, rfl, ⟨hp, rfl⟩ | ⟨c, hp, rfl⟩⟩ | ⟨c, p, hp, rfl, rfl⟩ | ⟨c, l, r, hp, -, rfl⟩ |
    ⟨c, hp, rfl⟩ | ⟨c, d, hp, rfl⟩ | ⟨c, d, x, hp, rfl⟩ | ⟨c, d, l, r, hp, -, rfl⟩ | ⟨c, d, hp, rfl⟩ <;>
    rw [hp] at ht
  · rw [goto_pc]
    exact ⟨ht, le_rfl⟩
  · rw [goto_pc]
    split_ifs
    · exact ⟨ht.1.trans (Int.sub_le_sub_right ht.2 _), le_rfl⟩
    · exact ht
  · rw [goto_pc]
    split_ifs
    · exact ⟨ht.1.trans (Int.sub_le_sub_right ht.2 _), le_rfl⟩
    · exact ht.1.trans (Int.sub_le_sub_right ht.2 _)
  · rw [put_pc]
    cases r.2 <;> exact ht
  · rw [goto_pc]
    exact ⟨ht.1, ht.2, le_rfl⟩
  · rw [goto_pc]
    exact ht
  · rw [put_pc]
    exact ht
  · rw [put_pc]
    cases r.2 <;> exact ht
  · obtain ⟨hspent, hcd, hd⟩ := ht
    have hsub := tsSub_eq hcd
    have hle := Nat.mod_le (s.tnsecs t + tsSub d c) (2 ^ 64)
    have hsum : (((s.tnsecs t + tsSub d c) % 2 ^ 64 : ℕ) : ℤ) ≤ d.nanos - origin.nanos := by omega
    rw [tally_pc]
    refine ⟨?_, hd⟩
    simp only [State.tally, Function.update_self]
    exact hsum

end Frame

section Inv
variable {K : Lock S L} {shared : S} {start stop origin : Timespec} {s u : State T S L} {t : T}
  {a : Action T} {h : List (Lock.Seen T)}

structure Inv (K : Lock S L) (shared : S) (origin : Timespec) (h : List (Lock.Seen T)) (s : State T S L) :
    Prop where
  clock : s.now.Reading
  counting : Run (Lock.Counting.program T K 64) Free (Lock.Counting.initial T L shared) h s.counting
  tallied : ∀ t, (s.tcounters t + (s.pc t).pending) % 2 ^ 64 = h.count (.added t) % 2 ^ 64
  times : ∀ t, (s.pc t).Times origin s.now (s.tnsecs t)

theorem Inv.initial (K : Lock S L) (shared : S) (ho : origin.Reading) :
    Inv K shared origin [] (initial T L shared origin) :=
  ⟨ho, .refl, fun _ => rfl, fun _ => by simp [SecondTest.initial, Pc.Times]⟩

/-- What is seen of a step is seen of its worker. -/
theorem count_shows {v : T} (hv : v ≠ t) : (shows stop s (.step t)).count (.added v) = 0 := by
  rw [List.count_eq_zero]
  intro hmem
  cases hp : s.pc t with
  | loop c =>
    simp only [shows, hp] at hmem
    split_ifs at hmem <;> simp at hmem
  | adding c d x =>
    simp only [shows, hp, List.mem_singleton, Lock.Seen.added.injEq] at hmem
    exact hv hmem
  | _ => simp [shows, hp] at hmem

theorem Inv.step (hi : Inv K shared origin h s) (hc : Steady s a)
    (hu : (program T K start stop).step s a = some u) : Inv K shared origin (h ++ shows stop s a) u := by
  cases a with
  | tick now =>
    obtain ⟨hnow, hle⟩ := hc
    obtain rfl : { s with now := now } = u := Option.some.inj hu
    rw [shows, List.append_nil]
    exact ⟨hnow, hi.counting, hi.tallied, fun t => (hi.times t).mono hle⟩
  | step t =>
    replace hu : workerThread K start stop s t = some u := hu
    obtain ⟨hnow, hother⟩ := frame_of_step hu
    refine ⟨hnow ▸ hi.clock, ?_, fun v => ?_, fun v => ?_⟩
    · rcases counting_of_step hu with ⟨hsame, hshow, -⟩ | ⟨hstep, hshow⟩
      · rw [hshow, List.append_nil, hsame]
        exact hi.counting
      · rw [hshow]
        exact hi.counting.tail trivial hstep
    · rw [List.count_append]
      by_cases hv : v = t
      · rw [hv]
        exact tallied_of_step hu (hi.tallied t)
      · rw [pc_of_ne hu hv, (hother v hv).1, count_shows hv]
        exact hi.tallied v
    · by_cases hv : v = t
      · rw [hv]
        exact times_of_step hu (hi.times t)
      · rw [pc_of_ne hu hv, hnow, (hother v hv).2]
        exact hi.times v

theorem inv_of_run (ho : origin.Reading)
    (hr : Run (program T K start stop) Steady (initial T L shared origin) h s) : Inv K shared origin h s :=
  hr.invariant (I := fun h s => Inv K shared origin h s) (.initial K shared ho)
    fun _ _ _ _ hi hc hu => hi.step hc hu

variable [Fintype T] {max : ℕ}

/-- The test returns 0, and no worker says that it has waited longer than the test has lasted. -/
theorem Inv.retval_of_done (hi : Inv K shared origin h s) (hex : Lock.Excludes T K shared max)
    (hmax : h.countP Lock.Seen.isCall ≤ max) (hd : Done s) :
    retval s = 0 ∧ ∀ t, (s.tnsecs t : ℤ) ≤ s.now.nanos - origin.nanos := by
  refine ⟨?_, fun t => ?_⟩
  · have htotal : s.counter = h.countP Lock.Seen.isStore % 2 ^ 64 :=
      (Lock.Counting.inv_of_run hex hi.counting hmax).total
    have hstores : ∑ t, h.count (.added t) = h.countP Lock.Seen.isStore :=
      sum_count (fun _ _ h => Lock.Seen.added.inj h) (fun e => by cases e <;> simp [Lock.Seen.isStore]) h
    have hall : ∀ t, s.tcounters t % 2 ^ 64 = h.count (.added t) % 2 ^ 64 := by
      intro t
      have ht := hi.tallied t
      rw [hd t] at ht
      exact ht
    rw [retval, if_neg (not_not.mpr ?_)]
    rw [htotal, ← hstores, Finset.sum_nat_mod, Finset.sum_nat_mod _ _ fun t => h.count (.added t)]
    simp only [hall]
  · have ht := hi.times t
    rw [hd t] at ht
    exact ht

end Inv

/-! ### The end of the test -/

/-- The steps that a worker has left beside the accesses of the lock, once it is late. -/
def Pc.left (start stop : Timespec) : Pc L → ℕ
  | .start => 12
  | .waiting c => if tsLt c start then 11 else 10
  | .loop c => if tsLt c stop then 9 else 1
  | .locking _ _ => 7
  | .locked _ => 6
  | .timed _ d => (if tsLt d stop then 9 else 1) + 4
  | .adding _ d _ => (if tsLt d stop then 9 else 1) + 3
  | .unlocking _ d _ => (if tsLt d stop then 9 else 1) + 2
  | .unlocked _ d => (if tsLt d stop then 9 else 1) + 1
  | .done => 0

section Ends
variable {K : Lock S L} {start stop origin : Timespec} {s u : State T S L} {t : T} {shared : S}

/-- When it is late every step brings its worker on, a call of `lock` too, or it is an access that
does not end its call. -/
theorem left_of_step (hu : workerThread K start stop s t = some u) (hstart : tsLt s.now start = false)
    (hstop : tsLt s.now stop = false) :
    (shows stop s (.step t)).countP Lock.Seen.isCall + (u.pc t).left start stop ≤ (s.pc t).left start stop ∧
      ((u.pc t).left start stop < (s.pc t).left start stop ∨
        (u.pc t).left start stop = (s.pc t).left start stop ∧
          ((∃ l l', (s.pc t).stage = .locking l ∧ (u.pc t).stage = .locking l') ∨
            ∃ l l', (s.pc t).stage = .unlocking l ∧ (u.pc t).stage = .unlocking l')) := by
  rcases step_cases hu with ⟨p, rfl, ⟨hp, rfl⟩ | ⟨c, hp, rfl⟩⟩ | ⟨c, p, hp, rfl, rfl⟩ |
    ⟨c, l, ⟨x, r⟩, hp, -, rfl⟩ | ⟨c, hp, rfl⟩ | ⟨c, d, hp, rfl⟩ | ⟨c, d, x, hp, rfl⟩ |
    ⟨c, d, l, ⟨x, r⟩, hp, -, rfl⟩ | ⟨c, d, hp, rfl⟩
  · simp [shows, hp, Pc.left, hstart]
  · cases hlt : tsLt c start
    · simp only [shows, hp, goto_pc, Pc.left, hlt, Bool.false_eq_true, if_false]
      split_ifs <;> simp
    · simp [shows, hp, Pc.left, hlt, hstart]
  · cases hlt : tsLt c stop <;> simp [shows, hp, Pc.left, hlt, Lock.Seen.isCall]
  · cases r with
    | none => simp [shows, hp, Pc.left]
    | some l' => simp [shows, hp, Pc.left, Pc.stage]
  · simp [shows, hp, Pc.left, hstop]
  · simp [shows, hp, Pc.left]
  · simp [shows, hp, Pc.left, Lock.Seen.isCall]
  · cases r with
    | none => simp [shows, hp, Pc.left]
    | some l' => simp [shows, hp, Pc.left, Pc.stage]
  · simp [shows, hp, Pc.left]

omit [DecidableEq T] in
/-- From the stop time on it is late. -/
theorem late (hnow : s.now.Reading) (hstart : start.Reading) (hstop : stop.Reading)
    (hle : start.nanos ≤ stop.nanos) (hlate : stop.nanos ≤ s.now.nanos) :
    tsLt s.now start = false ∧ tsLt s.now stop = false := by
  rw [← Bool.not_eq_true, ← Bool.not_eq_true, tsLt_iff hnow hstart, tsLt_iff hnow hstop]
  omega

variable [Fintype T] {max : ℕ} {rank : Lock.Users T S L → ℕ} {Due : Lock.Users T S L → T → Prop}

theorem sum_left_of_step (hu : workerThread K start stop s t = some u) (hstart : tsLt s.now start = false)
    (hstop : tsLt s.now stop = false) :
    (shows stop s (.step t)).countP Lock.Seen.isCall + ∑ v, (u.pc v).left start stop ≤
      ∑ v, (s.pc v).left start stop := by
  obtain ⟨hle, -⟩ := left_of_step hu hstart hstop
  have hrest : ∑ v ∈ Finset.univ.erase t, (u.pc v).left start stop =
      ∑ v ∈ Finset.univ.erase t, (s.pc v).left start stop :=
    Finset.sum_congr rfl fun v hv => by rw [pc_of_ne hu (Finset.ne_of_mem_erase hv)]
  rw [← Finset.add_sum_erase _ _ (Finset.mem_univ t), ← Finset.add_sum_erase _ _ (Finset.mem_univ t), hrest]
  omega

omit [Fintype T] in
/-- Who is due can take its next step. -/
theorem enabled (hs : Lock.Serves K shared max rank Due)
    (hreached : Lock.Reached K shared max s.counting.users)
    (ht : Lock.Turn (fun s : State T S L => s.counting.users) Due (fun s t => s.pc t ≠ .done) s t) :
    workerThread K start stop s t ≠ none := by
  cases hp : s.pc t with
  | locking c l =>
    rcases ht with ht | ⟨hout, -⟩
    · have hfree : K.access s.shared l ≠ none :=
        hs.enabled _ t l hreached ht (.inl (by simp [hp, Pc.stage, Lock.Stage.phase]))
      simpa [workerThread, hp] using hfree
    · have hphase := hout t
      simp [hp, Pc.stage, Lock.Stage.phase] at hphase
  | unlocking c d l =>
    rcases ht with ht | ⟨hout, -⟩
    · have hfree : K.access s.shared l ≠ none :=
        hs.enabled _ t l hreached ht (.inr (by simp [hp, Pc.stage, Lock.Stage.phase]))
      simpa [workerThread, hp] using hfree
    · have hphase := hout t
      simp [hp, Pc.stage, Lock.Stage.phase] at hphase
  | done =>
    rcases ht with ht | ⟨-, hnot⟩
    · have hbusy := hs.busy _ _ hreached ht
      rw [Lock.Counting.users_phase, counting_stage, hp] at hbusy
      exact absurd rfl hbusy
    · exact absurd hp hnot
  | _ => simp [workerThread, hp]

variable {f : ℕ → State T S L} {act : ℕ → Option (Action T)}

/-- From the stop time on few calls of `lock` are made, and at some time the last. -/
theorem exists_last_call (he : Execution (program T K start stop) Steady f act)
    (hlate : ∀ n, tsLt (f n).now start = false ∧ tsLt (f n).now stop = false) :
    ∃ n, ∀ m a, n ≤ m → act m = some a → (shows stop (f m) a).countP Lock.Seen.isCall = 0 := by
  have hbound : ∀ n, (Execution.history (program T K start stop) f act n).countP Lock.Seen.isCall +
      ∑ t, ((f n).pc t).left start stop ≤ ∑ t, ((f 0).pc t).left start stop := by
    intro n
    induction n with
    | zero => exact (Nat.zero_add _).le
    | succ n ih =>
      rw [Execution.history, List.countP_append]
      cases ha : act n with
      | none =>
        rw [he.idle n ha]
        simpa using ih
      | some a =>
        obtain ⟨-, hu⟩ := he.step n a ha
        cases a with
        | tick now =>
          have hpc : (f (n + 1)).pc = (f n).pc := by rw [← Option.some.inj hu]
          rw [hpc]
          simpa [program, shows] using ih
        | step t =>
          have hstep := sum_left_of_step hu (hlate n).1 (hlate n).2
          show _ + (shows stop (f n) (.step t)).countP Lock.Seen.isCall + _ ≤ _
          omega
  have hcalls : ∀ n, (Execution.history (program T K start stop) f act n).countP Lock.Seen.isCall ≤
      ∑ t, ((f 0).pc t).left start stop := fun n => (Nat.le_add_right ..).trans (hbound n)
  obtain ⟨n, -, hquiet⟩ := Execution.exists_quiet Lock.Seen.isCall hcalls
  exact ⟨n, hquiet⟩

/-- When it is late and `lock` is not called any more, every worker ends. -/
theorem ends_of_quiet (hex : Lock.Excludes T K shared max) (hs : Lock.Serves K shared max rank Due)
    (hstart : start.Reading) (hstop : stop.Reading) (hle : start.nanos ≤ stop.nanos)
    (he : Execution (program T K start stop)
      (fun s a => Steady s a ∧ (shows stop s a).countP Lock.Seen.isCall = 0) f act)
    (h0 : ∃ h, Inv K shared origin h (f 0) ∧ h.countP Lock.Seen.isCall ≤ max)
    (hlate : stop.nanos ≤ (f 0).now.nanos)
    (hfair : ∀ n t, (∀ m, n ≤ m → workerThread K start stop (f m) t ≠ none) →
      ∃ m, n ≤ m ∧ act m = some (.step t)) : ∃ m, Done (f m) := by
  let Going : State T S L → Prop := fun s =>
    (∃ h, Inv K shared origin h s ∧ h.countP Lock.Seen.isCall ≤ max) ∧ stop.nanos ≤ s.now.nanos
  have hreached : ∀ s, Going s → Lock.Reached K shared max s.counting.users := by
    rintro s ⟨⟨h, hi, hcalls⟩, -⟩
    exact (Lock.Counting.inv_of_run hex hi.counting hcalls).reached hcalls
  have hkeep : ∀ x a y, Going x → Steady x a ∧ (shows stop x a).countP Lock.Seen.isCall = 0 →
      (program T K start stop).step x a = some y → Going y := by
    rintro x a y ⟨⟨h, hi, hcalls⟩, hx⟩ ⟨hc, hquiet⟩ hu
    refine ⟨⟨_, hi.step hc hu, ?_⟩, ?_⟩
    · rwa [List.countP_append, hquiet]
    · cases a with
      | tick now =>
        rw [← Option.some.inj hu]
        exact hx.trans hc.2
      | step t => rwa [(frame_of_step hu).1]
  have hgoing : ∀ n, Going (f n) := he.always ⟨h0, hlate⟩ hkeep
  by_cases hdone : Done (f 0)
  · exact ⟨0, hdone⟩
  refine hs.ends (Q := Done) (J := fun s => Going s ∧ ¬ Done s) he ⟨hgoing 0, hdone⟩
    (fun s => s.counting.users) (fun t a => a = .step t) (fun s t => s.pc t ≠ .done)
    (fun s => ∑ v, (s.pc v).left start stop) (fun s hs => hreached s hs.1)
    (fun s hs _ => not_forall.mp hs.2) ?_ ?_
  · rintro x a y ⟨hx, -⟩ hc hu
    by_cases hy : Done y
    · exact .inl hy
    refine .inr ⟨⟨hkeep x a y hx hc hu, hy⟩, ?_⟩
    cases a with
    | tick now =>
      obtain rfl : { x with now := now } = y := Option.some.inj hu
      exact .inr ⟨rfl, .inl ⟨rfl, fun t => ⟨nofun, id⟩⟩⟩
    | step t =>
      obtain ⟨h, hi, -⟩ := hx.1
      obtain ⟨hlt, hlt'⟩ := late hi.clock hstart hstop hle hx.2
      have hv : ∀ v, v ≠ t → y.pc v = x.pc v := fun v h => pc_of_ne hu h
      rcases (left_of_step hu hlt hlt').2 with hless | ⟨hsame, hstay⟩
      · refine .inl (Finset.sum_lt_sum (fun v _ => ?_) ⟨t, Finset.mem_univ t, hless⟩)
        by_cases h : v = t
        · rw [h]
          exact hless.le
        · rw [hv v h]
      · refine .inr ⟨Finset.sum_congr rfl fun v _ => ?_, .inr ⟨t, fun v h => (Action.step.inj h).symm, ?_⟩⟩
        · by_cases h : v = t
          · rw [h, hsame]
          · rw [hv v h]
        · rcases counting_of_step hu with ⟨-, -, hout⟩ | ⟨hstep, -⟩
          · -- there is no access in these stages
            rcases hstay with ⟨l, l', hl, -⟩ | ⟨l, l', hl, -⟩ <;> rw [hl] at hout <;>
              rcases hout with h | h <;> cases h
          · exact Lock.Counting.access_of_step hstep hstay
  · intro n t hturn
    obtain ⟨m, hm, ha⟩ := hfair n t fun m hm => enabled hs (hreached _ (hgoing m)) (hturn m hm)
    exact ⟨m, _, hm, ha, rfl⟩

/-- Every worker ends, and the test returns 0, if the lock excludes and gets somewhere for as many
calls as are made, the clock comes to the stop time, and no worker that can always go on is left
standing. -/
theorem ends (Allowed : ℕ → Prop) (hserves : ∀ max, Allowed max →
      Lock.Excludes T K shared max ∧ Lock.Live T K shared max)
    (ho : origin.Reading) (hstart : start.Reading) (hstop : stop.Reading) (hle : start.nanos ≤ stop.nanos)
    (he : Execution (program T K start stop) Steady f act) (h0 : f 0 = initial T L shared origin)
    (hcalls : ∀ n, Allowed ((Execution.history (program T K start stop) f act n).countP Lock.Seen.isCall))
    (hclock : ∃ n, stop.nanos ≤ (f n).now.nanos)
    (hfair : ∀ n t, (∀ m, n ≤ m → workerThread K start stop (f m) t ≠ none) →
      ∃ m, n ≤ m ∧ act m = some (.step t)) :
    ∃ m, Done (f m) ∧ retval (f m) = 0 ∧ ∀ t, ((f m).tnsecs t : ℤ) ≤ (f m).now.nanos - origin.nanos := by
  have hinv : ∀ n, Inv K shared origin (Execution.history (program T K start stop) f act n) (f n) :=
    fun n => inv_of_run ho (h0 ▸ he.run_history n)
  suffices hdone : ∃ m, Done (f m) from
    hdone.imp fun m hm => ⟨hm, (hinv m).retval_of_done (hserves _ (hcalls m)).1 le_rfl hm⟩
  obtain ⟨k, hk⟩ := hclock
  have hnow : ∀ n, stop.nanos ≤ (f (k + n)).now.nanos :=
    (he.shift k).always (I := fun s => stop.nanos ≤ s.now.nanos) hk fun x a y hx hc hu => by
      cases a with
      | tick now =>
        rw [← Option.some.inj hu]
        exact hx.trans hc.2
      | step t => rwa [(frame_of_step hu).1]
  obtain ⟨j, hquiet⟩ := exists_last_call (he.shift k) fun n =>
    late (hinv _).clock hstart hstop hle (hnow n)
  -- from time `k + j` on all calls of `lock` are made
  obtain ⟨hex, rank, Due, hs⟩ := hserves _ (hcalls (k + j))
  have hlast := (he.shift (k + j)).restrict
    (D := fun s a => Steady s a ∧ (shows stop s a).countP Lock.Seen.isCall = 0) fun n a ha => by
      refine ⟨(he.step _ a ha).1, ?_⟩
      rw [Nat.add_assoc] at ha ⊢
      exact hquiet (j + n) a (Nat.le_add_right ..) ha
  obtain ⟨m, hm⟩ := ends_of_quiet hex hs hstart hstop hle hlast ⟨_, hinv (k + j), le_rfl⟩ (hnow j)
    fun n t ht => by
      obtain ⟨m, hm, ha⟩ := hfair (k + j + n) t fun m hm => by
        obtain ⟨i, rfl⟩ := Nat.exists_eq_add_of_le hm
        rw [Nat.add_assoc]
        exact ht (n + i) (Nat.le_add_right ..)
      obtain ⟨i, rfl⟩ := Nat.exists_eq_add_of_le hm
      exact ⟨n + i, Nat.le_add_right .., by rwa [Nat.add_assoc] at ha⟩
  exact ⟨_, hm⟩

end Ends

/-! ### The test -/

section Test
variable {AO_TS_SET AO_TS_CLEAR : UInt8}

/-- `main` of second_test up to the joins, entered at the time `origin`: it puts the start time a
second ahead. -/
def test (AO_TS_SET AO_TS_CLEAR : UInt8) (carg : CommonArgs) (memory : UInt8) (origin : Timespec) :
    Program (State (Fin carg.numThreads.toNat) (createLock AO_TS_SET AO_TS_CLEAR carg memory).Shared
      (createLock AO_TS_SET AO_TS_CLEAR carg memory).Local) (Action (Fin carg.numThreads.toNat))
      (Lock.Seen (Fin carg.numThreads.toNat)) :=
  program _ (createLock AO_TS_SET AO_TS_CLEAR carg memory).code (later origin 1)
    (later (later origin 1) carg.numSeconds)

/-- second_test ends, returns 0, and for no thread has added up more time at the lock than has
passed: with each lock that `create_lock` makes, any number of threads and any clock that comes to the
stop time. An `ALock` must have a slot and its tail must not wrap, and a `BackoffLock` must not be born
held. -/
theorem second_test_returns (hne : AO_TS_SET ≠ AO_TS_CLEAR) (carg : CommonArgs) (memory : UInt8)
    (hthreads : carg.locktype = .TEST_ALOCK → 0 < carg.numThreads.toNat)
    (hfree : carg.locktype = .TEST_BACKOFF → memory ≠ AO_TS_SET)
    {origin : Timespec} (ho : origin.Reading)
    {f : ℕ → State (Fin carg.numThreads.toNat) (createLock AO_TS_SET AO_TS_CLEAR carg memory).Shared
      (createLock AO_TS_SET AO_TS_CLEAR carg memory).Local}
    {act : ℕ → Option (Action (Fin carg.numThreads.toNat))}
    (he : Execution (test AO_TS_SET AO_TS_CLEAR carg memory origin) Steady f act)
    (h0 : f 0 = initial _ _ (createLock AO_TS_SET AO_TS_CLEAR carg memory).object origin)
    (hcalls : carg.locktype = .TEST_ALOCK → ∀ n,
      (Execution.history (test AO_TS_SET AO_TS_CLEAR carg memory origin) f act n).countP Lock.Seen.isCall < 2 ^ 64)
    (hclock : ∃ n, (later (later origin 1) carg.numSeconds).nanos ≤ (f n).now.nanos)
    (hfair : ∀ n t, (∀ m, n ≤ m →
        (test AO_TS_SET AO_TS_CLEAR carg memory origin).step (f m) (.step t) ≠ none) →
      ∃ m, n ≤ m ∧ act m = some (.step t)) :
    ∃ m, Done (f m) ∧ retval (f m) = 0 ∧ ∀ t, ((f m).tnsecs t : ℤ) ≤ (f m).now.nanos - origin.nanos := by
  have hstart := reading_later ho 1
  exact ends (fun max => carg.locktype = .TEST_ALOCK → max < 2 ^ 64)
    (fun max hmax => createLock_serves hne carg hthreads hfree hmax) ho hstart
    (reading_later hstart carg.numSeconds) (le_later _ _) he h0 (fun n htype => hcalls htype n) hclock hfair

instance {T S L : Type*} (s : State T S L) : ∀ a : Action T, Decidable (Steady s a)
  | .tick now => inferInstanceAs (Decidable (now.Reading ∧ s.now.nanos ≤ now.nanos))
  | .step _ => inferInstanceAs (Decidable True)

instance {T S L : Type*} [Fintype T] [DecidableEq L] (s : State T S L) : Decidable (Done s) :=
  inferInstanceAs (Decidable (∀ t, s.pc t = .done))

/-- Two threads at the mutex for a second. The first goes through twice and waits four nanoseconds for
the lock; the second sleeps over the test. -/
theorem second_test_returns_mutex : ∃ (f : ℕ → State (Fin 2) Bool PThreadLock.Call)
    (act : ℕ → Option (Action (Fin 2))),
    Execution (test 1 0 ⟨.TEST_PTHREAD, 1, 128, 2, 1⟩ 0 ⟨7, 0⟩) Steady f act ∧
      f 0 = initial (Fin 2) PThreadLock.Call PThreadLock.new ⟨7, 0⟩ ∧
      ∃ m, Done (f m) ∧ retval (f m) = 0 ∧ ∀ t, ((f m).tnsecs t : ℤ) ≤ (f m).now.nanos - 7000000000 := by
  let as : List (Action (Fin 2)) := List.flatten [List.replicate 2 (.step 0), [.tick ⟨8, 5⟩],
    List.replicate 3 (.step 0), [.tick ⟨8, 9⟩], List.replicate 6 (.step 0), [.tick ⟨9, 0⟩],
    List.replicate 8 (.step 0), List.replicate 3 (.step 1)]
  obtain ⟨r, hr, hend⟩ : ∃ r : List (Lock.Seen (Fin 2)) × State (Fin 2) Bool PThreadLock.Call,
      (test 1 0 ⟨.TEST_PTHREAD, 1, 128, 2, 1⟩ 0 ⟨7, 0⟩).exec Steady
        (initial (Fin 2) PThreadLock.Call PThreadLock.new ⟨7, 0⟩) as = some r ∧
        decide (Done r.2 ∧ r.2.now = ⟨9, 0⟩) = true :=
    (Option.any_eq_true _ _).mp (by decide +kernel)
  obtain ⟨hdone, hnow⟩ := of_decide_eq_true hend
  obtain ⟨he, hlast⟩ := execution_of_exec hr
  refine ⟨_, _, he, states_zero .., second_test_returns (by decide : (1 : UInt8) ≠ 0)
    ⟨.TEST_PTHREAD, 1, 128, 2, 1⟩ 0 nofun nofun ⟨by decide, by decide⟩ he (states_zero ..) nofun
    ⟨as.length, ?_⟩ fun n t ht => ?_⟩
  · rw [hlast _ le_rfl, hnow]
    decide
  · -- at the end no thread can go on
    refine absurd ?_ (ht (max n as.length) (le_max_left ..))
    rw [hlast _ (le_max_right ..)]
    simp only [test, program, workerThread, hdone t]

end Test
end Multicore.Locks.SecondTest
