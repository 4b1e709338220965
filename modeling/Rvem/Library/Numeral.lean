import Mathlib

/-!
# Numerals

A numeral is the digits of a number, most significant first, in any alphabet that has a
character for every digit.  Scanning reads the digits at the front of a text; it gives
back the number, leading zeros or not.
-/

namespace Rvem.Library.Numeral

variable {A : Type} {base : ℕ}

/-- The digits of `value`; none for zero. -/
def numeral (base : ℕ) (digit : ℕ → A) (value : ℕ) : List A :=
  ((Nat.digits base value).map digit).reverse

/-- The number that the digits at the front of a text continue, and what follows them. -/
def scan (base : ℕ) (digitOf : A → Option ℕ) (found : ℕ) : List A → ℕ × List A
  | [] => (found, [])
  | a :: text =>
      match digitOf a with
      | some d => scan base digitOf (found * base + d) text
      | none => (found, a :: text)

@[simp]
theorem numeral_zero (digit : ℕ → A) : numeral base digit 0 = [] := by
  rw [numeral, Nat.digits_zero, List.map_nil, List.reverse_nil]

theorem length_numeral (digit : ℕ → A) (value : ℕ) :
    (numeral base digit value).length = (Nat.digits base value).length := by
  rw [numeral, List.length_reverse, List.length_map]

/-- A number below `base ^ n` has at most `n` digits. -/
theorem length_numeral_le (hbase : 1 < base) (digit : ℕ → A) {value n : ℕ}
    (hvalue : value < base ^ n) : (numeral base digit value).length ≤ n := by
  rw [length_numeral]
  exact (Nat.digits_length_le_iff hbase value).mpr hvalue

theorem numeral_ne_nil (digit : ℕ → A) {value : ℕ} (hvalue : value ≠ 0) :
    numeral base digit value ≠ [] := by
  rw [numeral, Ne, List.reverse_eq_nil_iff, List.map_eq_nil_iff]
  exact Nat.digits_ne_nil_iff_ne_zero.mpr hvalue

/-! ## Scanning -/

section Scan

variable {digit : ℕ → A} {digitOf : A → Option ℕ}

theorem scan_none {a : A} (ha : digitOf a = none) (found : ℕ) (text : List A) :
    scan base digitOf found (a :: text) = (found, a :: text) := by
  rw [scan, ha]

/-- A text that does not start with a digit. -/
def NoDigit (digitOf : A → Option ℕ) (text : List A) : Prop :=
  ∀ a ∈ text.head?, digitOf a = none

theorem scan_of_noDigit {text : List A} (htext : NoDigit digitOf text) (found : ℕ) :
    scan base digitOf found text = (found, text) := by
  cases text with
  | nil => rfl
  | cons a text => exact scan_none (htext a rfl) found text

/-- Scanning digits, the most significant one first, continues the number found
so far. -/
theorem scan_digits (hdigit : ∀ d < base, digitOf (digit d) = some d) {digits : List ℕ}
    (hdigits : ∀ d ∈ digits, d < base) (found : ℕ) (rest : List A) :
    scan base digitOf found ((digits.map digit).reverse ++ rest) =
      scan base digitOf
        (found * base ^ digits.length + Nat.ofDigits base digits) rest := by
  induction digits generalizing rest with
  | nil => simp
  | cons d digits ih =>
      have hd : d < base := hdigits d List.mem_cons_self
      have hrest : ∀ d ∈ digits, d < base :=
        fun d hd => hdigits d (List.mem_cons_of_mem _ hd)
      rw [List.map_cons, List.reverse_cons, List.append_assoc, List.singleton_append,
        ih hrest, scan, hdigit d hd]
      simp only [Nat.ofDigits_cons, List.length_cons, pow_succ]
      congr 1
      ring

theorem scan_zeros (hbase : 0 < base) (hdigit : ∀ d < base, digitOf (digit d) = some d)
    (count : ℕ) (rest : List A) :
    scan base digitOf 0 (List.replicate count (digit 0) ++ rest) =
      scan base digitOf 0 rest := by
  have hbelow : ∀ d ∈ List.replicate count 0, d < base := by
    intro d hd
    rwa [List.eq_of_mem_replicate hd]
  have hzeros := scan_digits hdigit hbelow 0 rest
  rwa [List.map_replicate, List.reverse_replicate, Nat.ofDigits_replicate_zero,
    Nat.zero_mul, Nat.zero_add] at hzeros

/-- Scanning a numeral behind any number of zeros gives the number back. -/
theorem scan_numeral (hbase : 1 < base) (hdigit : ∀ d < base, digitOf (digit d) = some d)
    (count value : ℕ) {rest : List A} (hrest : NoDigit digitOf rest) :
    scan base digitOf 0
      (List.replicate count (digit 0) ++ numeral base digit value ++ rest) =
      (value, rest) := by
  have hdigits : ∀ d ∈ Nat.digits base value, d < base :=
    fun d hd => Nat.digits_lt_base hbase hd
  calc
    scan base digitOf 0
        (List.replicate count (digit 0) ++ numeral base digit value ++ rest) =
        scan base digitOf 0 (numeral base digit value ++ rest) := by
      rw [List.append_assoc, scan_zeros (by omega) hdigit]
    _ = scan base digitOf (0 * base ^ (Nat.digits base value).length + value) rest := by
      rw [numeral, scan_digits hdigit hdigits, Nat.ofDigits_digits]
    _ = (value, rest) := by
      rw [Nat.zero_mul, Nat.zero_add, scan_of_noDigit hrest]

end Scan

end Rvem.Library.Numeral
