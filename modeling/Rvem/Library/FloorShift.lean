import Mathlib

/-!
# Shifts that divide and round down

An arithmetic right shift is determined by its quotients: it divides the signed
value by a power of two and rounds down.  Whatever computes these quotients agrees
with the shift of bit vectors, and two shifts in a row are one, which saturates when
nothing but the sign is left.
-/

namespace Rvem.Library.FloorShift

variable {w : ℕ} {shift : BitVec w → ℕ → BitVec w}

/-- On amounts below the width, `shift` divides by a power of two and rounds down. -/
def RoundsDown (shift : BitVec w → ℕ → BitVec w) : Prop :=
  ∀ x, ∀ n < w, (shift x n).toInt = ⌊(x.toInt : ℚ) / 2 ^ n⌋

theorem floor_div_two_pow (z : ℤ) (n : ℕ) : ⌊(z : ℚ) / 2 ^ n⌋ = z / 2 ^ n := by
  have hfloor := Rat.floor_intCast_div_natCast z (2 ^ n)
  push_cast at hfloor
  exact hfloor

/-- From `2 ^ k` on, dividing a number of `k` bits and a sign leaves the sign. -/
theorem ediv_two_pow_saturates {z : ℤ} {k n : ℕ} (hlow : -2 ^ k ≤ z) (hhigh : z < 2 ^ k)
    (hn : k ≤ n) : z / 2 ^ n = z / 2 ^ k := by
  have hpow : (2 : ℤ) ^ k ≤ 2 ^ n := pow_le_pow_right₀ (by norm_num) hn
  by_cases hsign : 0 ≤ z
  · rw [Int.ediv_eq_zero_of_lt hsign hhigh, Int.ediv_eq_zero_of_lt hsign (by omega)]
  · rw [Int.ediv_eq_neg_one_of_neg_of_le (by omega) (by omega),
      Int.ediv_eq_neg_one_of_neg_of_le (by omega) (by omega)]

theorem RoundsDown.toInt_eq (hshift : RoundsDown shift) (x : BitVec w) {n : ℕ}
    (hn : n < w) : (shift x n).toInt = x.toInt / 2 ^ n := by
  rw [hshift x n hn, floor_div_two_pow]

/-- The arithmetic shift of bit vectors rounds down. -/
theorem roundsDown_sshiftRight :
    RoundsDown (BitVec.sshiftRight : BitVec w → ℕ → BitVec w) := by
  intro x n _
  rw [floor_div_two_pow, BitVec.toInt_sshiftRight, Int.shiftRight_eq_div_pow]
  norm_cast

/-- Two shifts in a row are one by the sum of their amounts, or by all bits but the
sign. -/
theorem RoundsDown.shift_shift (hshift : RoundsDown shift) (x : BitVec w) {s t : ℕ}
    (hs : s < w) (ht : t < w) : shift (shift x s) t = shift x (min (s + t) (w - 1)) := by
  have hmin : min (s + t) (w - 1) < w := by omega
  have hquotients : (shift (shift x s) t).toInt = x.toInt / 2 ^ (s + t) := by
    rw [hshift.toInt_eq _ ht, hshift.toInt_eq x hs,
      Int.ediv_ediv_of_nonneg (by positivity), pow_add]
  apply BitVec.eq_of_toInt_eq
  rw [hquotients, hshift.toInt_eq x hmin]
  rcases le_total (s + t) (w - 1) with hsum | hsum
  · rw [min_eq_left hsum]
  · rw [min_eq_right hsum]
    exact ediv_two_pow_saturates (BitVec.le_toInt x) BitVec.toInt_lt hsum

end Rvem.Library.FloorShift
