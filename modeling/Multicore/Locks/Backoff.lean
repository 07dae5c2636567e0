import Multicore.Locks.TestAndSet

/-! The delays of `BackoffLock`. Every failed attempt draws from `minDelay` to `limit` and
doubles `limit`, at most to `maxDelay`. The doubling is done in 32 bits before the minimum is
taken, and the two bounds of the distribution are converted to `int`, so the delays are
what they should be as long as no limit that is used has its highest bit set. -/

namespace Multicore.Locks.TestAndSet

namespace Backoff

/-- The bounds that `distribution_type dist(minDelay, limit)` is built with. -/
def dist (b : Backoff) : Int32 × Int32 := (b.minDelay.toInt32, b.limit.toInt32)

/-- The object after `k` calls of `backoff`. -/
def after (minDelay maxDelay : UInt32) : ℕ → Backoff
  | 0 => create minDelay maxDelay
  | k + 1 => (after minDelay maxDelay k).backoff

/-- `minDelay * 2^k`, but at most `maxDelay`, computed exactly. -/
def exactLimit (minDelay maxDelay : UInt32) (k : ℕ) : ℕ :=
  min maxDelay.toNat (minDelay.toNat * 2 ^ k)

variable {minDelay maxDelay : UInt32} {k n : ℕ}

theorem toNat_min (a b : UInt32) : (min a b).toNat = min a.toNat b.toNat := by
  show (if a ≤ b then a else b).toNat = min a.toNat b.toNat
  split
  · rename_i h
    exact (min_eq_left (UInt32.le_iff_toNat_le.mp h)).symm
  · rename_i h
    rw [UInt32.le_iff_toNat_le] at h
    exact (min_eq_right (Nat.le_of_not_le h)).symm

theorem after_delays (minDelay maxDelay : UInt32) (k : ℕ) :
    (after minDelay maxDelay k).minDelay = minDelay ∧ (after minDelay maxDelay k).maxDelay = maxDelay := by
  induction k with
  | zero => exact ⟨rfl, rfl⟩
  | succ k ih => exact ih

theorem after_zero : (after minDelay maxDelay 0).limit.toNat = exactLimit minDelay maxDelay 0 := by
  show (min minDelay maxDelay).toNat = min maxDelay.toNat (minDelay.toNat * 2 ^ 0)
  rw [toNat_min, pow_zero, mul_one, min_comm]

/-- One doubling in 32 bits. -/
theorem after_succ : (after minDelay maxDelay (k + 1)).limit.toNat =
    min maxDelay.toNat (2 * (after minDelay maxDelay k).limit.toNat % 2 ^ 32) := by
  show (min (after minDelay maxDelay k).maxDelay (2 * (after minDelay maxDelay k).limit)).toNat = _
  rw [toNat_min, (after_delays minDelay maxDelay k).2, UInt32.toNat_mul]
  rfl

/-- One doubling as it is meant. -/
theorem exactLimit_succ : exactLimit minDelay maxDelay (k + 1) =
    min maxDelay.toNat (2 * exactLimit minDelay maxDelay k) := by
  unfold exactLimit
  rw [pow_succ]
  have hassoc : minDelay.toNat * (2 ^ k * 2) = 2 * (minDelay.toNat * 2 ^ k) := by
    rw [← Nat.mul_assoc, Nat.mul_comm]
  omega

theorem exactLimit_mono (h : k ≤ n) : exactLimit minDelay maxDelay k ≤ exactLimit minDelay maxDelay n :=
  min_le_min_left _ (Nat.mul_le_mul_left _ (Nat.pow_le_pow_right (by decide) h))

theorem le_exactLimit (hle : minDelay ≤ maxDelay) (k : ℕ) :
    minDelay.toNat ≤ exactLimit minDelay maxDelay k :=
  le_min (UInt32.le_iff_toNat_le.mp hle) (Nat.le_mul_of_pos_right _ (Nat.two_pow_pos k))

/-- The limits are exact as long as the doubled ones do not have their highest bit set. -/
theorem after_exact (h : ∀ j < k, exactLimit minDelay maxDelay j < 2 ^ 31) :
    (after minDelay maxDelay k).limit.toNat = exactLimit minDelay maxDelay k := by
  induction k with
  | zero => exact after_zero
  | succ k ih =>
    have hk := h k (Nat.lt_succ_self k)
    rw [after_succ, exactLimit_succ, ih fun j hj => h j (Nat.lt_succ_of_lt hj),
      Nat.mod_eq_of_lt (by omega)]

/-- The limit that follows one with the highest bit set is less than that one. -/
theorem after_succ_lt (hk : (after minDelay maxDelay k).limit.toNat = exactLimit minDelay maxDelay k)
    (hbit : 2 ^ 31 ≤ exactLimit minDelay maxDelay k) :
    (after minDelay maxDelay (k + 1)).limit.toNat < exactLimit minDelay maxDelay (k + 1) := by
  have hlt : exactLimit minDelay maxDelay k < 2 ^ 32 := hk ▸ UInt32.toNat_lt _
  have hmono : exactLimit minDelay maxDelay k ≤ exactLimit minDelay maxDelay (k + 1) :=
    exactLimit_mono (Nat.le_succ k)
  rw [after_succ, hk]
  omega

/-- Numbers without the highest bit keep their order as `int`. -/
theorem toInt32_le {a b : UInt32} (hab : a ≤ b) (hb : b.toNat < 2 ^ 31) : a.toInt32 ≤ b.toInt32 := by
  have hle := UInt32.le_iff_toNat_le.mp hab
  have hint : ∀ {x : UInt32}, x.toNat < 2 ^ 31 → x.toInt32.toInt = x.toNat := by
    intro x hx
    show x.toBitVec.toInt = x.toNat
    rw [BitVec.toInt_eq_toNat_of_lt (by rw [UInt32.toNat_toBitVec]; omega), UInt32.toNat_toBitVec]
  rw [Int32.le_iff_toInt_le, hint hb, hint (by omega)]
  exact_mod_cast hle

/-- Through `n` calls of `backoff` every limit is exact and every distribution is built with
its bounds in order, if and only if no limit with the highest bit set is doubled. -/
theorem backoff_within_bounds_iff (hle : minDelay ≤ maxDelay) (n : ℕ) :
    ((∀ k ≤ n, (after minDelay maxDelay k).limit.toNat =
        min maxDelay.toNat (minDelay.toNat * 2 ^ k)) ∧
      ∀ k < n, (after minDelay maxDelay k).dist.1 ≤ (after minDelay maxDelay k).dist.2) ↔
    minDelay = 0 ∨ n = 0 ∨ maxDelay.toNat < 2 ^ 31 ∨ minDelay.toNat * 2 ^ (n - 1) < 2 ^ 31 := by
  constructor
  · rintro ⟨hexact, -⟩
    by_contra hcond
    simp only [not_or, Nat.not_lt] at hcond
    obtain ⟨-, hn, hmax, hmin⟩ := hcond
    obtain ⟨k, rfl⟩ := Nat.exists_eq_succ_of_ne_zero hn
    have hlt := after_succ_lt (hexact k (Nat.le_succ k)) (le_min hmax hmin)
    exact absurd (hexact (k + 1) le_rfl) (Nat.ne_of_lt hlt)
  · intro hcond
    have hsmall : ∀ k < n, exactLimit minDelay maxDelay k < 2 ^ 31 := by
      intro k hk
      rcases hcond with rfl | rfl | hmax | hmin
      · exact lt_of_le_of_lt (min_le_right _ _) (by rw [UInt32.toNat_zero, zero_mul]; exact Nat.two_pow_pos 31)
      · exact absurd hk (Nat.not_lt_zero k)
      · exact lt_of_le_of_lt (min_le_left _ _) hmax
      · exact (exactLimit_mono (Nat.le_sub_one_of_lt hk)).trans_lt (lt_of_le_of_lt (min_le_right _ _) hmin)
    have hexact : ∀ k ≤ n, (after minDelay maxDelay k).limit.toNat = exactLimit minDelay maxDelay k :=
      fun k hk => after_exact fun j hj => hsmall j (Nat.lt_of_lt_of_le hj hk)
    refine ⟨hexact, fun k hk => ?_⟩
    show (after minDelay maxDelay k).minDelay.toInt32 ≤ (after minDelay maxDelay k).limit.toInt32
    rw [(after_delays minDelay maxDelay k).1]
    refine toInt32_le ?_ ?_
    · rw [UInt32.le_iff_toNat_le, hexact k (Nat.le_of_lt hk)]
      exact le_exactLimit hle k
    · rw [hexact k (Nat.le_of_lt hk)]
      exact hsmall k hk

/-- The delays from 1 to 128 of `common_args`, through ten calls. -/
theorem backoff_within_bounds_iff_default : (after 1 128 10).limit.toNat = min 128 (1 * 2 ^ 10) ∧
    (after 1 128 9).dist.1 ≤ (after 1 128 9).dist.2 := by
  obtain ⟨hlimit, hdist⟩ := (backoff_within_bounds_iff (by decide : (1 : UInt32) ≤ 128) 10).mpr
    (.inr (.inr (.inl (by decide))))
  exact ⟨hlimit 10 le_rfl, hdist 9 (by decide)⟩

/-- With delays from 1 to the greatest there is, the 32nd call builds its distribution from 1
to a negative number and leaves 0 as the limit. -/
theorem backoff_wraps :
    ¬ (after 1 0xffffffff 31).dist.1 ≤ (after 1 0xffffffff 31).dist.2 ∧
      (after 1 0xffffffff 32).limit = 0 ∧ (after 1 0xffffffff 32).limit.toNat ≠
        min (0xffffffff : UInt32).toNat ((1 : UInt32).toNat * 2 ^ 32) := by
  decide +kernel

end Backoff

/-! ### The objects of the lock -/

open Runs

/-- The `Backoff` object of the call. -/
def BackoffLock.Point.object : BackoffLock.Point → Backoff
  | .attempt b | .backoff b | .test b => b

variable {AO_TS_SET AO_TS_CLEAR : UInt8} {T : Type} [DecidableEq T] {minDelay maxDelay : UInt32}

/-- In every run, a thread that is in its acquire loop has called `backoff` some number of
times on the object with which its call of `lock` began. -/
theorem BackoffLock.object_of_run {state : UInt8} {h : List Empty} {s : State T BackoffLock.Point}
    (hr : Run (program AO_TS_SET AO_TS_CLEAR (BackoffLock.lock AO_TS_SET minDelay maxDelay)) Free
      (initial state) h s) :
    ∀ t l, s.pc t = .locking l → ∃ k, l.object = Backoff.after minDelay maxDelay k := by
  refine hr.always (I := fun s => ∀ t l, s.pc t = .locking l →
    ∃ k, l.object = Backoff.after minDelay maxDelay k) (fun t l ht => by cases ht) ?_
  intro s a u hs _ ha v l hv
  have hkeep : ∀ t p, (∀ l, p = .locking l → ∃ k, l.object = Backoff.after minDelay maxDelay k) →
      (s.goto t p).pc v = .locking l → ∃ k, l.object = Backoff.after minDelay maxDelay k := by
    intro t p hp hv
    rcases update_cases hv with ⟨-, h⟩ | ⟨-, h⟩
    · exact hp l h
    · exact hs v l h
  cases a with
  | enter t =>
    cases hp : s.pc t <;> simp only [program, TestAndSet.step, hp, Option.some.injEq, reduceCtorEq] at ha
    subst ha
    exact hkeep t _ (by rintro l ⟨⟩; exact ⟨0, rfl⟩) hv
  | finish t =>
    cases hp : s.pc t <;> simp only [program, TestAndSet.step, hp, Option.some.injEq, reduceCtorEq] at ha
    subst ha
    exact hkeep t _ (by simp) hv
  | access t =>
    cases hp : s.pc t with
    | idle | finished => simp only [program, TestAndSet.step, hp, reduceCtorEq] at ha
    | locking l₀ =>
      obtain ⟨k, hk⟩ := hs t l₀ hp
      cases l₀ with
      | attempt b =>
        by_cases hset : s.state = AO_TS_SET
        · simp only [program, TestAndSet.step, hp, BackoffLock.lock, hset, ne_eq, not_true_eq_false,
            if_false, Option.some.injEq] at ha
          subst ha
          exact hkeep t _ (by rintro l ⟨⟩; exact ⟨k, hk⟩) hv
        · simp only [program, TestAndSet.step, hp, BackoffLock.lock, hset, ne_eq, not_false_eq_true,
            if_true, Option.some.injEq] at ha
          subst ha
          exact hkeep t .locked (by simp) hv
      | backoff b =>
        simp only [program, TestAndSet.step, hp, BackoffLock.lock, Option.some.injEq] at ha
        subst ha
        exact hkeep t _ (by rintro l ⟨⟩; exact ⟨k + 1, congrArg Backoff.backoff hk⟩) hv
      | test b =>
        simp only [program, TestAndSet.step, hp, BackoffLock.lock, ite_self, Option.some.injEq] at ha
        subst ha
        exact hkeep t _ (by rintro l ⟨⟩; exact ⟨k, hk⟩) hv
    | _ =>
      simp only [program, TestAndSet.step, hp, Option.some.injEq] at ha
      subst ha
      exact hkeep t _ (by simp) hv

end Multicore.Locks.TestAndSet
