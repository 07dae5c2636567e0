import Mathlib.Data.UInt
import Mathlib.Tactic.Common

/-! The command line of the lock tests. Each argument sets one field of `common_args`, in
upper or lower case and in any order; a number that does not parse rejects the whole line. At
the end `maxDelay` is raised to `minDelay`, and any other choice of fields can be had. -/

namespace Multicore.Locks

inductive Locktype
  | TEST_TASLOCK | TEST_TTASLOCK | TEST_BACKOFF | TEST_ALOCK | TEST_PTHREAD
  deriving DecidableEq

/-- `common_args` without the start time, which `parse_args` does not touch. -/
structure CommonArgs where
  locktype : Locktype
  minDelay : UInt32
  maxDelay : UInt32
  numThreads : UInt32
  numSeconds : UInt32
  deriving DecidableEq

/-- The constructor of `common_args`. -/
def CommonArgs.new : CommonArgs := ⟨.TEST_TASLOCK, 1, 128, 10, 1⟩

section Parse

/-! `boost::algorithm::to_upper` and `boost::lexical_cast<uint32_t>`. -/

variable (toUpper : List Char → List Char) (u32Cast : List Char → Option UInt32)

/-- One turn of the loop of `parse_args`; nothing where the cast throws. -/
def parseArg (carg : CommonArgs) (arg : List Char) : Option CommonArgs :=
  let s := toUpper arg
  if s = "TASLOCK".toList then some { carg with locktype := .TEST_TASLOCK }
  else if s = "TTASLOCK".toList then some { carg with locktype := .TEST_TTASLOCK }
  else if s = "BACKOFF".toList then some { carg with locktype := .TEST_BACKOFF }
  else if s = "ALOCK".toList then some { carg with locktype := .TEST_ALOCK }
  else if s = "PTHREAD".toList then some { carg with locktype := .TEST_PTHREAD }
  else if s.take 9 = "MINDELAY=".toList then
    (u32Cast (s.drop 9)).map fun n => { carg with minDelay := n }
  else if s.take 9 = "MAXDELAY=".toList then
    (u32Cast (s.drop 9)).map fun n => { carg with maxDelay := n }
  else if s.take 8 = "SECONDS=".toList then
    (u32Cast (s.drop 8)).map fun n => { carg with numSeconds := n }
  else (u32Cast arg).map fun n => { carg with numThreads := n }

/-- `std::max`. -/
def u32Max (a b : UInt32) : UInt32 := if a < b then b else a

/-- `parse_args` on the arguments after the program's name; nothing where it prints the usage
and exits. -/
def parseArgs (argv : List (List Char)) : Option CommonArgs :=
  (argv.foldlM (parseArg toUpper u32Cast) .new).map fun carg =>
    { carg with maxDelay := u32Max carg.minDelay carg.maxDelay }

end Parse

/-! ### Writing the arguments -/

def Locktype.arg : Locktype → List Char
  | .TEST_TASLOCK => "TASLOCK".toList
  | .TEST_TTASLOCK => "TTASLOCK".toList
  | .TEST_BACKOFF => "BACKOFF".toList
  | .TEST_ALOCK => "ALOCK".toList
  | .TEST_PTHREAD => "PTHREAD".toList

def decimal (n : UInt32) : List Char := Nat.toDigits 10 n.toNat

/-- A command line for the fields of `carg`. -/
def CommonArgs.argv (carg : CommonArgs) : List (List Char) :=
  [carg.locktype.arg, "MINDELAY=".toList ++ decimal carg.minDelay,
    "MAXDELAY=".toList ++ decimal carg.maxDelay, "SECONDS=".toList ++ decimal carg.numSeconds,
    decimal carg.numThreads]

theorem isDigit_of_mem_decimal {n : UInt32} {c : Char} (h : c ∈ decimal n) : c.isDigit = true :=
  Nat.isDigit_of_mem_toDigits (by decide) (by decide) h

/-- The characters of these arguments. -/
def isOption (c : Char) : Bool := c.isUpper || c.isDigit || c == '='

theorem all_isOption_decimal (n : UInt32) : (decimal n).all isOption = true := by
  refine List.all_eq_true.mpr fun c hc => ?_
  rw [isOption, isDigit_of_mem_decimal hc, Bool.or_true, Bool.true_or]

theorem all_isOption_locktype (ty : Locktype) : ty.arg.all isOption = true := by
  cases ty <;> decide

theorem all_isOption_append {s : List Char} (hs : s.all isOption = true) (n : UInt32) :
    (s ++ decimal n).all isOption = true := by
  rw [List.all_append, hs, all_isOption_decimal, Bool.and_true]

/-- What has a letter in it is not a number, nor the beginning of one. -/
theorem ne_of_digits {l s : List Char} (hl : ∀ d ∈ l, d.isDigit = true)
    (hs : s.any (fun c => !c.isDigit) = true) : l ≠ s := by
  rintro rfl
  obtain ⟨c, hc, hnot⟩ := List.any_eq_true.mp hs
  rw [hl c hc] at hnot
  cases hnot

theorem le_u32Max (a b : UInt32) : a ≤ u32Max a b := by
  rw [u32Max, UInt32.le_iff_toNat_le]
  split
  · rename_i h
    exact (UInt32.lt_iff_toNat_lt.mp h).le
  · exact le_rfl

theorem u32Max_of_le {a b : UInt32} (h : a ≤ b) : u32Max a b = b := by
  rw [u32Max]
  split
  · rfl
  · rename_i hlt
    rw [UInt32.lt_iff_toNat_lt] at hlt
    rw [UInt32.le_iff_toNat_le] at h
    exact UInt32.toNat_inj.mp (by omega)

section Roundtrip
variable {toUpper : List Char → List Char} {u32Cast : List Char → Option UInt32}
  (hupper : ∀ s : List Char, s.all isOption = true → toUpper s = s) (hcast : ∀ n, u32Cast (decimal n) = some n)

include hupper

theorem parseArg_locktype (carg : CommonArgs) (ty : Locktype) :
    parseArg toUpper u32Cast carg ty.arg = some { carg with locktype := ty } := by
  rw [parseArg, hupper _ (all_isOption_locktype ty)]
  cases ty <;> rfl

include hcast

theorem parseArg_minDelay (carg : CommonArgs) (n : UInt32) :
    parseArg toUpper u32Cast carg ("MINDELAY=".toList ++ decimal n) = some { carg with minDelay := n } := by
  rw [parseArg, hupper _ (all_isOption_append (by decide) n)]
  simp [hcast]

theorem parseArg_maxDelay (carg : CommonArgs) (n : UInt32) :
    parseArg toUpper u32Cast carg ("MAXDELAY=".toList ++ decimal n) = some { carg with maxDelay := n } := by
  rw [parseArg, hupper _ (all_isOption_append (by decide) n)]
  simp [hcast]

theorem parseArg_seconds (carg : CommonArgs) (n : UInt32) :
    parseArg toUpper u32Cast carg ("SECONDS=".toList ++ decimal n) = some { carg with numSeconds := n } := by
  rw [parseArg, hupper _ (all_isOption_append (by decide) n)]
  simp [hcast]

theorem parseArg_threads (carg : CommonArgs) (n : UInt32) :
    parseArg toUpper u32Cast carg (decimal n) = some { carg with numThreads := n } := by
  have hall : ∀ c ∈ decimal n, c.isDigit = true := fun c => isDigit_of_mem_decimal
  have htake : ∀ k, ∀ c ∈ (decimal n).take k, c.isDigit = true := fun k c hc =>
    hall c (List.mem_of_mem_take hc)
  rw [parseArg, hupper _ (all_isOption_decimal n)]
  have htas : decimal n ≠ "TASLOCK".toList := ne_of_digits hall (by decide)
  have httas : decimal n ≠ "TTASLOCK".toList := ne_of_digits hall (by decide)
  have hbackoff : decimal n ≠ "BACKOFF".toList := ne_of_digits hall (by decide)
  have halock : decimal n ≠ "ALOCK".toList := ne_of_digits hall (by decide)
  have hpthread : decimal n ≠ "PTHREAD".toList := ne_of_digits hall (by decide)
  have hmin : (decimal n).take 9 ≠ "MINDELAY=".toList := ne_of_digits (htake 9) (by decide)
  have hmax : (decimal n).take 9 ≠ "MAXDELAY=".toList := ne_of_digits (htake 9) (by decide)
  have hsec : (decimal n).take 8 ≠ "SECONDS=".toList := ne_of_digits (htake 8) (by decide)
  simp only [htas, httas, hbackoff, halock, hpthread, hmin, hmax, hsec, if_false, hcast, Option.map_some]

/-- The command line of `carg` is read as `carg`, with `maxDelay` raised to `minDelay`. -/
theorem parseArgs_argv (carg : CommonArgs) :
    parseArgs toUpper u32Cast carg.argv =
      some { carg with maxDelay := u32Max carg.minDelay carg.maxDelay } := by
  simp only [parseArgs, CommonArgs.argv, List.foldlM_cons, List.foldlM_nil, parseArg_locktype hupper,
    parseArg_minDelay hupper hcast, parseArg_maxDelay hupper hcast, parseArg_seconds hupper hcast,
    parseArg_threads hupper hcast, Option.bind_eq_bind, Option.bind_some, Option.pure_def, Option.map_some]

omit hupper hcast in
theorem delays_of_parseArgs {argv : List (List Char)} {carg : CommonArgs}
    (h : parseArgs toUpper u32Cast argv = some carg) : carg.minDelay ≤ carg.maxDelay := by
  obtain ⟨c, -, rfl⟩ := Option.map_eq_some_iff.mp h
  exact le_u32Max ..

/-- What can come out of `parse_args`: any fields whose delays are in order, and no others. -/
theorem parseArgs_iff (carg : CommonArgs) :
    (∃ argv, parseArgs toUpper u32Cast argv = some carg) ↔ carg.minDelay ≤ carg.maxDelay := by
  refine ⟨fun ⟨_, h⟩ => delays_of_parseArgs h, fun h => ⟨carg.argv, ?_⟩⟩
  rw [parseArgs_argv hupper hcast, u32Max_of_le h]

end Roundtrip

/-- Only small letters have capitals. -/
theorem toUpper_of_isOption {c : Char} (h : isOption c = true) : c.toUpper = c := by
  refine dif_neg fun hlower => ?_
  have hupper : c.isUpper = decide ('A'.val ≤ c.val ∧ c.val ≤ 'Z'.val) := rfl
  simp only [isOption, hupper, Char.isDigit, ge_iff_le, Bool.or_eq_true, Bool.and_eq_true,
    decide_eq_true_eq, beq_iff_eq, UInt32.le_iff_toNat_le] at h hlower
  have ha : 'a'.val.toNat = 97 := rfl
  have hZ : 'Z'.val.toNat = 90 := rfl
  have h9 : '9'.val.toNat = 57 := rfl
  obtain (h | h) | rfl := h
  · omega
  · omega
  · exact absurd hlower.1 (by decide)

theorem map_toUpper {s : List Char} (hs : s.all isOption = true) : s.map Char.toUpper = s := by
  refine (List.map_congr_left fun c hc => ?_).trans (List.map_id s)
  exact toUpper_of_isOption (List.all_eq_true.mp hs c hc)

/-- A cast that reads decimal numbers of 32 bits and rejects everything else. -/
def lexicalCast (s : List Char) : Option UInt32 :=
  if s ≠ [] ∧ s.all Char.isDigit ∧ Nat.ofDigitChars 10 s 0 < 2 ^ 32 then
    some (UInt32.ofNat (Nat.ofDigitChars 10 s 0))
  else none

theorem lexicalCast_decimal (n : UInt32) : lexicalCast (decimal n) = some n := by
  have hvalue : Nat.ofDigitChars 10 (decimal n) 0 = n.toNat := Nat.ofDigitChars_ten_toDigits
  have hall : (decimal n).all Char.isDigit = true :=
    List.all_eq_true.mpr fun c => isDigit_of_mem_decimal
  rw [lexicalCast, hvalue, if_pos ⟨Nat.toDigits_ne_nil, hall, n.toNat_lt⟩, UInt32.ofNat_toNat]

theorem parseArgs_iff_backoff :
    ∃ argv, parseArgs (List.map Char.toUpper) lexicalCast argv = some ⟨.TEST_BACKOFF, 8, 64, 4, 2⟩ :=
  (parseArgs_iff (fun _ => map_toUpper) lexicalCast_decimal ⟨.TEST_BACKOFF, 8, 64, 4, 2⟩).mpr (by decide)

end Multicore.Locks
