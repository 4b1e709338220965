import Mathlib

/-!
# The upper half of a product from half-words

Schoolbook multiplication of two numbers of two digits each.  The upper half of the
product is the sum of the partial products with the carries of the middle columns,
and no intermediate leaves two digits.
-/

namespace Rvem.Library.HighProduct

variable {base aHi aLo bHi bLo : ℕ}

/-- A product of two digits, and a digit besides, fit in two digits. -/
theorem mul_add_lt {x y z : ℕ} (hx : x < base) (hy : y < base) (hz : z < base) :
    x * y + z < base ^ 2 := by
  obtain ⟨top, rfl⟩ := Nat.exists_eq_add_of_lt (Nat.zero_lt_of_lt hx)
  have hxy : x * y ≤ top * top := Nat.mul_le_mul (by omega) (by omega)
  calc
    x * y + z ≤ top * top + top := by omega
    _ < (0 + top + 1) ^ 2 := by nlinarith

/-- The partial products with the carries between the columns. -/
structure Columns (base aHi aLo bHi bLo : ℕ) where
  cross : ℕ
  lower : ℕ
  upper : ℕ
  cross_eq : cross = aHi * bLo + aLo * bLo / base
  lower_eq : lower = aLo * bHi + cross % base
  upper_eq : upper = aHi * bHi + cross / base + lower / base

variable (columns : Columns base aHi aLo bHi bLo)

/-- The columns make up the product. -/
theorem Columns.product_eq :
    (aHi * base + aLo) * (bHi * base + bLo) =
      base ^ 2 * columns.upper + (columns.lower % base * base + aLo * bLo % base) := by
  obtain ⟨cross, lower, upper, hcross, hlower, hupper⟩ := columns
  have hlow := Nat.div_add_mod (aLo * bLo) base
  have hcrossDigits := Nat.div_add_mod cross base
  have hlowerDigits := Nat.div_add_mod lower base
  change _ = base ^ 2 * upper + (lower % base * base + aLo * bLo % base)
  generalize aLo * bLo / base = carry at *
  generalize aLo * bLo % base = unit at *
  generalize cross / base = crossCarry at *
  generalize cross % base = crossDigit at *
  generalize lower / base = lowerCarry at *
  generalize lower % base = lowerDigit at *
  zify at *
  linear_combination -hlow - base * hcross - base * hcrossDigits - base * hlower
    - base * hlowerDigits - base ^ 2 * hupper

/-- The upper half of the product. -/
theorem Columns.upper_eq_div (hbase : 0 < base) :
    columns.upper = (aHi * base + aLo) * (bHi * base + bLo) / base ^ 2 := by
  have hrest : columns.lower % base * base + aLo * bLo % base < base ^ 2 := by
    have hdigit := Nat.mod_lt columns.lower hbase
    have hunit := Nat.mod_lt (aLo * bLo) hbase
    calc
      columns.lower % base * base + aLo * bLo % base <
          columns.lower % base * base + base := by omega
      _ = (columns.lower % base + 1) * base := by ring
      _ ≤ base * base := Nat.mul_le_mul_right _ hdigit
      _ = base ^ 2 := (sq base).symm
  rw [columns.product_eq, Nat.mul_add_div (by positivity), Nat.div_eq_of_lt hrest,
    Nat.add_zero]

section Bounds

variable (haHi : aHi < base) (haLo : aLo < base) (hbHi : bHi < base) (hbLo : bLo < base)

include haHi haLo hbLo in
theorem Columns.cross_lt : columns.cross < base ^ 2 := by
  have hcarry : aLo * bLo / base < base := by
    apply Nat.div_lt_of_lt_mul
    exact Nat.mul_lt_mul'' haLo hbLo
  rw [columns.cross_eq]
  exact mul_add_lt haHi hbLo hcarry

include haLo hbHi in
theorem Columns.lower_lt : columns.lower < base ^ 2 := by
  rw [columns.lower_eq]
  exact mul_add_lt haLo hbHi (Nat.mod_lt _ (Nat.zero_lt_of_lt haLo))

include haHi haLo hbHi hbLo in
theorem Columns.upper_lt : columns.upper < base ^ 2 := by
  have hbase : 0 < base := Nat.zero_lt_of_lt haHi
  have ha : aHi * base + aLo < base ^ 2 := by nlinarith
  have hb : bHi * base + bLo < base ^ 2 := by nlinarith
  rw [columns.upper_eq_div hbase]
  apply Nat.div_lt_of_lt_mul
  exact Nat.mul_lt_mul'' ha hb

end Bounds

end Rvem.Library.HighProduct
