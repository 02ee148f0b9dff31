/-
Numerals.  A number is written with the digits of a base, the most significant
one first, and read back digit by digit.  What is read from a numeral is the
number it was written for, and a numeral has no more digits than it needs.
-/
import Mathlib.Data.Nat.Basic
import Mathlib.Tactic.IntervalCases

namespace Madbfs

namespace Numeral

/-- The value of a digit, up to base 36. -/
def digitValue (ch : Char) : Option Nat :=
  if '0' ≤ ch ∧ ch ≤ '9' then some (ch.toNat - '0'.toNat)
  else if 'a' ≤ ch ∧ ch ≤ 'z' then some (ch.toNat - 'a'.toNat + 10)
  else if 'A' ≤ ch ∧ ch ≤ 'Z' then some (ch.toNat - 'A'.toNat + 10)
  else none

/-- One more digit. -/
def readDigit (base n : Nat) (ch : Char) : Option Nat :=
  ((digitValue ch).filter (· < base)).map (base * n + ·)

/-- The number that digits spell; there is at least one. -/
def read (base : Nat) (str : List Char) : Option Nat :=
  if str = [] then none else str.foldlM (readDigit base) 0

/-- `Nat.toDigits`, as it is used for printing. -/
def write (base n : Nat) : List Char :=
  Nat.toDigits base n

variable {base n : Nat}

theorem digitValue_digitChar (hlt : n < 16) :
    digitValue n.digitChar = some n := by
  interval_cases n <;> rfl

theorem readDigit_digitChar (hbase : base ≤ 16) (hlt : n < base) (m : Nat) :
    readDigit base m n.digitChar = some (base * m + n) := by
  rw [readDigit, digitValue_digitChar (by omega), Option.filter_some,
    if_pos (by simpa using hlt), Option.map_some]

theorem write_ne_nil (base n : Nat) : write base n ≠ [] :=
  Nat.toDigits_ne_nil

/-- The last digit comes off the end. -/
theorem write_eq (hbase : 1 < base) (n : Nat) :
    write base n = if n < base then [n.digitChar]
      else write base (n / base) ++ [(n % base).digitChar] :=
  Nat.toDigits_eq_if hbase

theorem foldlM_write (hbase : 1 < base) (hle : base ≤ 16) (n : Nat) :
    (write base n).foldlM (readDigit base) 0 = some n := by
  induction n using Nat.strong_induction_on with
  | h n ih =>
      rw [write_eq hbase]
      split_ifs with hlt
      · rw [List.foldlM_cons, readDigit_digitChar hle hlt, Nat.mul_zero,
          Nat.zero_add]
        rfl
      · have hmod := Nat.mod_lt n (Nat.lt_of_succ_lt hbase)
        have hlower := Nat.div_lt_self (by omega : 0 < n) hbase
        rw [List.foldlM_append, ih (n / base) hlower]
        change [(n % base).digitChar].foldlM (readDigit base) (n / base) = _
        rw [List.foldlM_cons, readDigit_digitChar hle hmod, Nat.div_add_mod]
        rfl

/-- What was written is read. -/
theorem read_write (hbase : 1 < base) (hle : base ≤ 16) (n : Nat) :
    read base (write base n) = some n := by
  rw [read, if_neg (write_ne_nil base n), foldlM_write hbase hle]

/-- A numeral is made of letters and digits. -/
theorem isAlphanum_of_mem_write (hbase : 1 < base) (hle : base ≤ 16) {ch : Char}
    (hch : ch ∈ write base n) : ch.isAlphanum := by
  have hdigit : ∀ d < 16, (Nat.digitChar d).isAlphanum := by decide
  induction n using Nat.strong_induction_on with
  | h n ih =>
      have hmod := Nat.mod_lt n (Nat.lt_of_succ_lt hbase)
      rw [write_eq hbase] at hch
      split_ifs at hch with hlt
      · rw [List.mem_singleton.mp hch]
        exact hdigit n (by omega)
      · rcases List.mem_append.mp hch with hupper | hlast
        · exact ih (n / base) (Nat.div_lt_self (by omega) hbase) hupper
        · rw [List.mem_singleton.mp hlast]
          exact hdigit (n % base) (by omega)

theorem length_write_le_iff (hbase : 1 < base) {k : Nat} (hk : 0 < k) :
    (write base n).length ≤ k ↔ n < base ^ k :=
  Nat.length_toDigits_le_iff hbase hk

end Numeral

end Madbfs
