import Multicore.Exchange.Exchanger
import Mathlib.Algebra.Order.Ring.Int

/-! The deadline of `Exchanger::exchange`. It is the clock on entry with `NANO_DUR` added to
its nanoseconds and nothing carried into its seconds, and `operator<` compares two times
field by field. Within the second of the entry the tests are exact. In the next second the
clock is never before the deadline, so if the time up to the deadline reaches into that
second, a call that comes to its test there gives up early; no call waits too long. -/

namespace Multicore.Exchange

/-- 512 nanoseconds -/
def NANO_DUR : ℤ := 512

/-- `timespec` -/
structure Timespec where
  tvSec : ℤ
  tvNsec : ℤ
  deriving DecidableEq

namespace Timespec

/-- `operator<` of `Common.h` -/
def lt (left right : Timespec) : Bool :=
  if left.tvSec > right.tvSec then false
  else if left.tvNsec < right.tvNsec then true
  else if left.tvSec < right.tvSec then true
  else false

/-- `operator>` of `Common.h` -/
def gt (left right : Timespec) : Bool := !left.lt right

/-- The deadline of a call that is entered at `s`. -/
def bound (s : Timespec) : Timespec := { s with tvNsec := s.tvNsec + NANO_DUR }

/-- What `clock_gettime` gives. -/
structure Reading (c : Timespec) : Prop where
  nonneg : 0 ≤ c.tvNsec
  le : c.tvNsec ≤ 999999999

instance (c : Timespec) : Decidable c.Reading :=
  decidable_of_iff (0 ≤ c.tvNsec ∧ c.tvNsec ≤ 999999999) ⟨fun h => ⟨h.1, h.2⟩, fun h => ⟨h.1, h.2⟩⟩

/-- The nanoseconds of a time. -/
def nanos (c : Timespec) : ℤ := c.tvSec * 10 ^ 9 + c.tvNsec

/-- Both tests at `current` say whether `NANO_DUR` has passed since `s`. -/
def Exact (s current : Timespec) : Prop :=
  (current.lt s.bound = true ↔ current.nanos - s.nanos < NANO_DUR) ∧
    (current.gt s.bound = true ↔ ¬ current.nanos - s.nanos < NANO_DUR)

/-- `current` is in the second after that of `s`, and the nanoseconds of the deadline are more
than a second ahead of its own. -/
def Carried (s current : Timespec) : Prop :=
  current.tvSec = s.tvSec + 1 ∧ current.tvNsec + 10 ^ 9 < s.bound.tvNsec

variable {s current left right : Timespec}

theorem gt_iff : left.gt right = true ↔ ¬ left.lt right = true := by
  rw [gt, Bool.not_eq_true', Bool.not_eq_true]

theorem exact_iff : Exact s current ↔ (current.lt s.bound = true ↔ current.nanos - s.nanos < NANO_DUR) :=
  and_iff_left_of_imp fun h => gt_iff.trans (not_congr h)

/-- The seconds do not go back. -/
theorem sec_le (hs : Reading s) (hc : Reading current) (hle : s.nanos ≤ current.nanos) :
    s.tvSec ≤ current.tvSec := by
  have := hs.nonneg
  have := hc.le
  unfold nanos at hle
  omega

theorem lt_of_sec_lt (h : right.tvSec < left.tvSec) : left.lt right = false := if_pos h

theorem lt_iff_of_sec_eq (h : left.tvSec = right.tvSec) :
    left.lt right = true ↔ left.tvNsec < right.tvNsec := by
  simp only [lt, h, gt_iff_lt, lt_self_iff_false, if_false]
  split <;> simp_all

/-- In the second of the entry the test is exact. -/
theorem exact_of_sec_eq (h : current.tvSec = s.tvSec) : Exact s current := by
  rw [exact_iff, lt_iff_of_sec_eq (show current.tvSec = s.bound.tvSec from h)]
  simp only [nanos, bound, h]
  omega

/-- In a later second the test says that it is late, which is right if and only if the deadline
is not carried past the clock. -/
theorem exact_iff_of_sec_lt (hs : Reading s) (hc : Reading current) (h : s.tvSec < current.tvSec) :
    Exact s current ↔ ¬ Carried s current := by
  have := hs.le
  have := hc.nonneg
  rw [exact_iff, lt_of_sec_lt (show s.bound.tvSec < current.tvSec from h)]
  simp only [Bool.false_eq_true, false_iff, Carried, nanos, bound, NANO_DUR]
  omega

theorem exact_iff_not_carried (hs : Reading s) (hc : Reading current) (hle : s.nanos ≤ current.nanos) :
    Exact s current ↔ ¬ Carried s current := by
  rcases (sec_le hs hc hle).lt_or_eq with h | h
  · exact exact_iff_of_sec_lt hs hc h
  · refine iff_of_true (exact_of_sec_eq h.symm) fun hcar => ?_
    have := hcar.1
    omega

/-- All tests of a call are exact if and only if its deadline is in the second of its entry, or is
the end of that second. -/
theorem forall_exact_iff (hs : Reading s) :
    (∀ current, Reading current → s.nanos ≤ current.nanos → Exact s current) ↔
      s.tvNsec + NANO_DUR ≤ 10 ^ 9 := by
  constructor
  · intro h
    have hlast := hs.le
    -- the first moment of the next second
    have hc : Reading ⟨s.tvSec + 1, 0⟩ := ⟨le_rfl, Int.natCast_nonneg 999999999⟩
    have hnext := h _ hc (by simp only [nanos]; omega)
    rw [exact_iff_of_sec_lt hs hc (Int.lt_succ _)] at hnext
    by_contra hgt
    refine hnext ⟨rfl, ?_⟩
    simp only [bound]
    omega
  · intro h current hc hle
    refine (exact_iff_not_carried hs hc hle).mpr fun hcar => ?_
    have := hc.nonneg
    have := hcar.2
    simp only [bound] at this
    omega

/-- No call waits too long. -/
theorem elapsed_of_lt_bound (hs : Reading s) (hc : Reading current) (hle : s.nanos ≤ current.nanos)
    (h : current.lt s.bound = true) : current.nanos - s.nanos < NANO_DUR := by
  rcases (sec_le hs hc hle).lt_or_eq with hlt | heq
  · rw [lt_of_sec_lt (show s.bound.tvSec < current.tvSec from hlt)] at h
    cases h
  · exact (exact_of_sec_eq heq.symm).1.mp h

/-- One step of a call of `exchange` that was entered at `s`, when the clock shows `current`. -/
def exchangeAt (s current : Timespec) (data : UInt64) : Pc → Option (UInt64 × Pc) :=
  exchange data (current.gt s.bound)

/-- A call gives up when its time is over, or when its deadline was carried. -/
theorem elapsed_of_gives_up (hs : Reading s) (hc : Reading current) (hle : s.nanos ≤ current.nanos)
    {data : UInt64} {n : Option Node} (h : exchangeAt s current data (.top n) = some (data, .threw) ∨
      exchangeAt s current data (.wait n) = some (data, .cancel n)) :
    NANO_DUR ≤ current.nanos - s.nanos ∨ Carried s current := by
  have hgt : current.gt s.bound = true := by
    by_contra hgt
    simp [exchangeAt, exchange, hgt] at h
  by_cases hcar : Carried s current
  · exact .inr hcar
  · exact .inl (not_lt.mp (((exact_iff_not_carried hs hc hle).mpr hcar).2.mp hgt))

/-- The two tests of the deadline are exact at a later clock if and only if that is not in the
second after the one of the entry with the deadline still ahead; and they are exact at every
later clock if and only if the deadline is not past the end of the second of the entry. -/
theorem exchange_deadline_iff (hs : Reading s) :
    (∀ current, Reading current → s.nanos ≤ current.nanos → (Exact s current ↔ ¬ Carried s current)) ∧
      ((∀ current, Reading current → s.nanos ≤ current.nanos → Exact s current) ↔
        s.tvNsec + NANO_DUR ≤ 10 ^ 9) :=
  ⟨fun _ hc hle => exact_iff_not_carried hs hc hle, forall_exact_iff hs⟩

/-- A call that is entered well before the end of a second. -/
theorem exchange_deadline_iff_early : Reading ⟨7, 1000⟩ ∧
    ∀ current, Reading current → nanos ⟨7, 1000⟩ ≤ current.nanos → Exact ⟨7, 1000⟩ current := by
  have hs : Reading ⟨7, 1000⟩ := ⟨by decide, by decide⟩
  exact ⟨hs, (exchange_deadline_iff hs).2.mpr (by decide)⟩

/-- A call that is entered one nanosecond before the end of a second: it gives up one nanosecond
later. -/
theorem exchange_deadline_carried :
    Reading ⟨7, 999999999⟩ ∧ Reading ⟨8, 0⟩ ∧ nanos ⟨8, 0⟩ - nanos ⟨7, 999999999⟩ = 1 ∧
      gt ⟨8, 0⟩ (bound ⟨7, 999999999⟩) = true ∧ ¬ Exact ⟨7, 999999999⟩ ⟨8, 0⟩ := by
  refine ⟨⟨by decide, by decide⟩, ⟨by decide, by decide⟩, by decide, by decide, fun h => ?_⟩
  exact absurd (h.1.mpr (by decide)) (by decide)

end Timespec

end Multicore.Exchange
