import Rvem.Library.HighProduct
import Rvem.Model.Evaluated

/-!
# The high multiplies of RV64M

The variants of `rv_mulh`, `rv_mulhsu` and `rv_mulhu` return the same words, and with
`rv_mul` they give the exact product.  The software fallback gets the upper half from
half-words; its signed corrections can leave the signed type on the way.
-/

namespace Rvem.HighMultiply

open Rvem.Arch
open Rvem.Mul
open Rvem.Evaluated
open Rvem.Library.HostArith
open Rvem.Library.HostArith.Logged
open Rvem.Library.HighProduct

variable {w : ℕ}

/-! ## With an intermediate type of twice the width -/

/-- The upper half of a number that fits in twice the width. -/
theorem upperHalf_ofInt (z : ℤ) :
    ((BitVec.ofInt (w + w) z) >>> w).setWidth w = BitVec.ofInt w (z / 2 ^ w) := by
  have hbase : (0 : ℤ) < 2 ^ w := by positivity
  have hwrap : z % 2 ^ (w + w) / 2 ^ w = z / 2 ^ w - 2 ^ w * (z / 2 ^ (w + w)) := by
    have hsplit : z % 2 ^ (w + w) = z + 2 ^ w * -(2 ^ w * (z / 2 ^ (w + w))) := by
      rw [Int.emod_def, pow_add]
      ring
    rw [hsplit, Int.add_mul_ediv_left _ _ hbase.ne']
    ring
  apply BitVec.eq_of_toNat_eq
  rw [BitVec.toNat_setWidth, BitVec.toNat_ushiftRight, BitVec.toNat_ofInt,
    BitVec.toNat_ofInt, Nat.shiftRight_eq_div_pow]
  zify
  rw [Int.toNat_of_nonneg (Int.emod_nonneg _ (by positivity)),
    Int.toNat_of_nonneg (Int.emod_nonneg _ (by positivity))]
  rw [hwrap, Int.sub_mul_emod_self_left]

theorem setWidth_eq_ofInt (b : BitVec w) :
    b.setWidth (w + w) = BitVec.ofInt (w + w) b.toNat := by
  rw [BitVec.ofInt_natCast, BitVec.ofNat_toNat]

theorem rvMulh_eq (a b : BitVec w) :
    rvMulh a b = BitVec.ofInt w (a.toInt * b.toInt / 2 ^ w) := by
  rw [← upperHalf_ofInt, BitVec.ofInt_mul]
  rfl

theorem rvMulhsu_eq (a b : BitVec w) :
    rvMulhsu a b = BitVec.ofInt w (a.toInt * b.toNat / 2 ^ w) := by
  rw [← upperHalf_ofInt, BitVec.ofInt_mul, ← setWidth_eq_ofInt]
  rfl

theorem rvMulhu_eq (a b : BitVec w) :
    rvMulhu a b = BitVec.ofInt w (a.toNat * b.toNat / 2 ^ w) := by
  rw [← upperHalf_ofInt, BitVec.ofInt_mul, ← setWidth_eq_ofInt, ← setWidth_eq_ofInt]
  rfl

/-! ## Ranges of the upper halves -/

/-- The unsigned high half is the quotient of the product by the range of a register. -/
theorem rvMulhu_toNat (a b : BitVec w) :
    (rvMulhu a b).toNat = a.toNat * b.toNat / 2 ^ w := by
  have hbound : a.toNat * b.toNat / 2 ^ w < 2 ^ w := by
    apply Nat.div_lt_of_lt_mul
    exact Nat.mul_lt_mul'' a.isLt b.isLt
  rw [rvMulhu_eq]
  norm_cast
  rw [BitVec.ofInt_natCast, BitVec.toNat_ofNat, Nat.mod_eq_of_lt hbound]

theorem abs_toInt_le (a : BitVec w) : |a.toInt| ≤ 2 ^ (w - 1) :=
  abs_le.mpr ⟨BitVec.le_toInt a, BitVec.toInt_lt.le⟩

/-- A factor below the base keeps a product inside twice the width. -/
theorem abs_mul_lt (a : BitVec w) {y : ℤ} (hy : |y| < 2 ^ w) :
    |a.toInt * y| < 2 ^ (w - 1) * 2 ^ w := by
  rw [abs_mul]
  calc
    |a.toInt| * |y| ≤ 2 ^ (w - 1) * |y| :=
      mul_le_mul_of_nonneg_right (abs_toInt_le a) (abs_nonneg y)
    _ < 2 ^ (w - 1) * 2 ^ w := mul_lt_mul_of_pos_left hy (by positivity)

/-- With a factor below the base, the upper half stays in the range of the other. -/
theorem toInt_ofInt_upper (hw : 0 < w) (a : BitVec w) {y : ℤ} (hy : |y| < 2 ^ w) :
    (BitVec.ofInt w (a.toInt * y / 2 ^ w)).toInt = a.toInt * y / 2 ^ w := by
  have hbase : (0 : ℤ) < 2 ^ w := by positivity
  obtain ⟨hlow, hhigh⟩ := abs_lt.mp (abs_mul_lt a hy)
  apply BitVec.toInt_ofInt_eq_self hw
  · apply Int.le_ediv_of_mul_le hbase
    linarith
  · exact Int.ediv_lt_of_lt_mul hbase hhigh

/-- The signed high half is the floor of the signed product divided by the range of a
register. -/
theorem rvMulh_toInt (hw : 0 < w) (a b : BitVec w) :
    (rvMulh a b).toInt = a.toInt * b.toInt / 2 ^ w := by
  have hb : |b.toInt| < 2 ^ w :=
    (abs_toInt_le b).trans_lt
      (pow_lt_pow_right₀ (by norm_num) (Nat.sub_lt hw Nat.one_pos))
  rw [rvMulh_eq, toInt_ofInt_upper hw a hb]

theorem rvMulhsu_toInt (hw : 0 < w) (a b : BitVec w) :
    (rvMulhsu a b).toInt = a.toInt * b.toNat / 2 ^ w := by
  have hb : |(b.toNat : ℤ)| < 2 ^ w := by
    rw [Nat.abs_cast]
    exact_mod_cast b.isLt
  rw [rvMulhsu_eq, toInt_ofInt_upper hw a hb]

/-! ## Exact products -/

/-- `rv_mul` is the lower half under every reading of the operands. -/
theorem rvMul_toNat {a b : BitVec w} {x y : ℤ} (hx : BitVec.ofInt w x = a)
    (hy : BitVec.ofInt w y = b) : ((rvMul a b).toNat : ℤ) = x * y % 2 ^ w := by
  rw [rvMul, ← hx, ← hy, ← BitVec.ofInt_mul, BitVec.toNat_ofInt,
    Int.toNat_of_nonneg (Int.emod_nonneg _ (by positivity))]
  norm_cast

/-- The halves under one reading make up the product. -/
theorem halves_product {a b : BitVec w} {x y high : ℤ} (hx : BitVec.ofInt w x = a)
    (hy : BitVec.ofInt w y = b) (hhigh : high = x * y / 2 ^ w) :
    2 ^ w * high + (rvMul a b).toNat = x * y := by
  rw [hhigh, rvMul_toNat hx hy]
  exact Int.mul_ediv_add_emod (x * y) (2 ^ w)

/-! ## Signed corrections -/

/-- The signed reading is the unsigned one less the base when negative. -/
theorem toInt_eq_sub (a : BitVec w) :
    a.toInt = a.toNat - 2 ^ w * if a.slt 0 then 1 else 0 := by
  rw [show a.slt 0 = a.msb from BitVec.slt_zero_eq_msb, BitVec.toInt_eq_msb_cond]
  split
  · rw [mul_one]
    norm_cast
  · rw [mul_zero, sub_zero]

theorem ofInt_sub (x y : ℤ) :
    BitVec.ofInt w (x - y) = BitVec.ofInt w x - BitVec.ofInt w y := by
  rw [sub_eq_add_neg, BitVec.ofInt_add, BitVec.ofInt_neg, BitVec.sub_eq_add_neg]

theorem ofInt_mul_ite {x : ℤ} {a : BitVec w} (hx : BitVec.ofInt w x = a) (cond : Bool) :
    BitVec.ofInt w (x * if cond then 1 else 0) = if cond then a else 0 := by
  cases cond with
  | true => rw [if_pos rfl, if_pos rfl, mul_one, hx]
  | false =>
    rw [if_neg Bool.false_ne_true, if_neg Bool.false_ne_true, mul_zero]
    rfl

/-- A negative factor takes the other factor off the upper half. -/
theorem upper_sub (x y : ℤ) (cond : Bool) :
    x * (y - 2 ^ w * if cond then 1 else 0) / 2 ^ w =
      x * y / 2 ^ w - x * if cond then 1 else 0 := by
  have hbase : (2 : ℤ) ^ w ≠ 0 := by positivity
  rw [← Int.sub_mul_ediv_left _ _ hbase]
  congr 1
  ring

/-- A negative left operand counts one range of a register too much in the unsigned
product. -/
theorem rvMulhsu_eq_sub (a b : BitVec w) :
    rvMulhsu a b = rvMulhu a b - if a.slt 0 then b else 0 := by
  calc
    rvMulhsu a b = BitVec.ofInt w (b.toNat * a.toInt / 2 ^ w) := by
      rw [rvMulhsu_eq, mul_comm]
    _ = BitVec.ofInt w (b.toNat * a.toNat / 2 ^ w
        - b.toNat * if a.slt 0 then 1 else 0) := by rw [toInt_eq_sub, upper_sub]
    _ = rvMulhu a b - if a.slt 0 then b else 0 := by
      rw [ofInt_sub, ofInt_mul_ite (ofInt_toNat b), rvMulhu_eq, mul_comm (b.toNat : ℤ)]

/-- A negative right operand counts one range of a register too much in the mixed
product. -/
theorem rvMulh_eq_sub (a b : BitVec w) :
    rvMulh a b = rvMulhsu a b - if b.slt 0 then a else 0 := by
  calc
    rvMulh a b = BitVec.ofInt w (a.toInt * b.toNat / 2 ^ w
        - a.toInt * if b.slt 0 then 1 else 0) := by
      rw [rvMulh_eq, toInt_eq_sub b, upper_sub]
    _ = rvMulhsu a b - if b.slt 0 then a else 0 := by
      rw [ofInt_sub, ofInt_mul_ite BitVec.ofInt_toInt, rvMulhsu_eq]

/-! ## `mulhudw` -/

/-- The half-words of the operands. -/
def columns (a b : BitVec 64) :
    Columns (2 ^ 32) (a.toNat / 2 ^ 32) (a.toNat % 2 ^ 32) (b.toNat / 2 ^ 32)
      (b.toNat % 2 ^ 32) :=
  ⟨_, _, _, rfl, rfl, rfl⟩

/-- No intermediate wraps, and the value is the upper half of the product. -/
theorem mulhudw_spec (a b : BitVec 64) :
    (mulhudw a b).Exact ∧
      (mulhudw a b).value.toNat = a.toNat * b.toNat / 2 ^ 64 := by
  have haHi : a.toNat / 2 ^ 32 < 2 ^ 32 := by omega
  have haLo : a.toNat % 2 ^ 32 < 2 ^ 32 := by omega
  have hbHi : b.toNat / 2 ^ 32 < 2 ^ 32 := by omega
  have hbLo : b.toNat % 2 ^ 32 < 2 ^ 32 := by omega
  have hcross := (columns a b).cross_lt haHi haLo hbLo
  have hlower := (columns a b).lower_lt haLo hbHi
  have hupper := (columns a b).upper_lt haHi haLo hbHi hbLo
  have hvalue := (columns a b).upper_eq_div (by norm_num)
  rw [Nat.div_add_mod', Nat.div_add_mod'] at hvalue
  rw [(columns a b).upper_eq] at hupper hvalue
  rw [(columns a b).lower_eq] at hlower
  rw [(columns a b).lower_eq, (columns a b).cross_eq] at hupper hvalue
  rw [(columns a b).cross_eq] at hlower hcross
  simp only [mulhudw, exact_bind, exact_shr, exact_umul, exact_uadd, bind_value,
    shr_value, umul_value, uadd_value, BitVec.toNat_add, BitVec.toNat_mul,
    BitVec.toNat_ushiftRight,
    BitVec.toNat_setWidth, Nat.shiftRight_eq_div_pow]
  generalize a.toNat / 2 ^ 32 = aHi at *
  generalize a.toNat % 2 ^ 32 = aLo at *
  generalize b.toNat / 2 ^ 32 = bHi at *
  generalize b.toNat % 2 ^ 32 = bLo at *
  have h00 := mul_add_lt haLo hbLo (z := 0) (by norm_num)
  have h10 := mul_add_lt haHi hbLo (z := 0) (by norm_num)
  have h01 := mul_add_lt haLo hbHi (z := 0) (by norm_num)
  have h11 := mul_add_lt haHi hbHi (z := 0) (by norm_num)
  rw [Nat.mod_eq_of_lt (show aLo < 2 ^ 64 by omega),
    Nat.mod_eq_of_lt (show bLo < 2 ^ 64 by omega)]
  generalize aLo * bLo = p00 at *
  generalize aHi * bLo = p10 at *
  generalize aLo * bHi = p01 at *
  generalize aHi * bHi = p11 at *
  refine ⟨⟨?_, ?_, ?_, ?_, ?_, ?_, ?_, ?_, ?_, ?_, ?_, ?_, ?_⟩, ?_⟩ <;> omega

/-! ## The variants -/

/-- The four partial products, added up with their carries, give the unsigned
high half. -/
theorem mulhudw_value (a b : BitVec 64) : (mulhudw a b).value = rvMulhu a b := by
  apply BitVec.eq_of_toNat_eq
  rw [(mulhudw_spec a b).2, rvMulhu_toNat]

theorem subtractIf_value (cond : Bool) (res x : BitVec w) :
    (subtractIf cond res x).value = res - if cond then x else 0 := by
  cases cond with
  | true => rfl
  | false => exact (BitVec.sub_zero res).symm

/-- Without a 128-bit type the unsigned high half is that of `mulhudw`. -/
theorem rvMulhuFallback_value (a b : BitVec 64) :
    (rvMulhuFallback a b).value = rvMulhu a b :=
  mulhudw_value a b

theorem rvMulhsuFallback_value (a b : BitVec 64) :
    (rvMulhsuFallback a b).value = rvMulhsu a b := by
  rw [rvMulhsuFallback, bind_value, mulhudw_value, rvMulhsu_eq_sub]
  cases a.slt 0 with
  | true => rfl
  | false => exact (BitVec.sub_zero _).symm

/-- The fallback subtracts each operand where the other one is negative. -/
theorem rvMulhFallback_value (a b : BitVec 64) :
    (rvMulhFallback a b).value = rvMulh a b := by
  calc
    (rvMulhFallback a b).value =
        ((mulhudw a b).value - if a.slt 0 then b else 0) - if b.slt 0 then a else 0 := by
      rw [rvMulhFallback, bind_value, bind_value, subtractIf_value, subtractIf_value]
    _ = rvMulhsu a b - if b.slt 0 then a else 0 := by
      rw [mulhudw_value, rvMulhsu_eq_sub]
    _ = rvMulh a b := (rvMulh_eq_sub a b).symm

section Intrinsics

variable {mulh umulh : BitVec 64 → BitVec 64 → BitVec 64}

/-- `__umulh` returns the upper half of the unsigned product. -/
def UnsignedUpper (umulh : BitVec 64 → BitVec 64 → BitVec 64) : Prop :=
  ∀ x y, (umulh x y).toNat = x.toNat * y.toNat / 2 ^ 64

/-- `__mulh` returns the upper half of the signed product. -/
def SignedUpper (mulh : BitVec 64 → BitVec 64 → BitVec 64) : Prop :=
  ∀ x y, (mulh x y).toInt = x.toInt * y.toInt / 2 ^ 64

theorem rvMulhuMsvc_eq (humulh : UnsignedUpper umulh) (a b : BitVec 64) :
    rvMulhuMsvc umulh a b = rvMulhu a b := by
  apply BitVec.eq_of_toNat_eq
  rw [rvMulhu_toNat]
  exact humulh a b

theorem rvMulhsuMsvc_value (humulh : UnsignedUpper umulh) (a b : BitVec 64) :
    (rvMulhsuMsvc umulh a b).value = rvMulhsu a b := by
  have hupper : umulh a b = rvMulhu a b := rvMulhuMsvc_eq humulh a b
  rw [rvMulhsuMsvc, hupper, rvMulhsu_eq_sub]
  cases a.slt 0 with
  | true => rfl
  | false => exact (BitVec.sub_zero _).symm

theorem rvMulhMsvc_eq (hmulh : SignedUpper mulh) (a b : BitVec 64) :
    rvMulhMsvc mulh a b = rvMulh a b := by
  apply BitVec.eq_of_toInt_eq
  rw [rvMulh_toInt (by norm_num)]
  exact hmulh a b

variable (mulh umulh) in
/-- The variants return the words of the 128-bit one, high and low word are the product
under each reading, and nothing wraps in `mulhudw`. -/
structure HighMultiplyLaw (a b : BitVec 64) : Prop where
  fallback_mulhu : (rvMulhuFallback a b).value = rvMulhu a b
  fallback_mulhsu : (rvMulhsuFallback a b).value = rvMulhsu a b
  fallback_mulh : (rvMulhFallback a b).value = rvMulh a b
  msvc_mulhu : rvMulhuMsvc umulh a b = rvMulhu a b
  msvc_mulhsu : (rvMulhsuMsvc umulh a b).value = rvMulhsu a b
  msvc_mulh : rvMulhMsvc mulh a b = rvMulh a b
  exact_mulhu : 2 ^ 64 * (rvMulhu a b).toNat + (rvMul a b).toNat = a.toNat * b.toNat
  exact_mulhsu : 2 ^ 64 * (rvMulhsu a b).toInt + (rvMul a b).toNat = a.toInt * b.toNat
  exact_mulh : 2 ^ 64 * (rvMulh a b).toInt + (rvMul a b).toNat = a.toInt * b.toInt
  no_wrap : (mulhudw a b).Exact

/-- All three ways to the high half of a 64-bit product, the 128-bit type, the intrinsics
and the four partial products, agree on `mulh`, `mulhsu` and `mulhu` for every pair of
operands, and no sum of `mulhudw` wraps. The intrinsics are parameters with their
documented results. -/
theorem high_multiply (hmulh : SignedUpper mulh) (humulh : UnsignedUpper umulh)
    (a b : BitVec 64) : HighMultiplyLaw mulh umulh a b := by
  have hunsigned : ((rvMulhu a b).toNat : ℤ) = a.toNat * b.toNat / 2 ^ 64 := by
    exact_mod_cast rvMulhu_toNat a b
  have hmixed := rvMulhsu_toInt (by norm_num) a b
  have hsigned := rvMulh_toInt (by norm_num) a b
  refine ⟨?_, ?_, ?_, ?_, ?_, ?_, ?_, ?_, ?_, (mulhudw_spec a b).1⟩
  · exact rvMulhuFallback_value a b
  · exact rvMulhsuFallback_value a b
  · exact rvMulhFallback_value a b
  · exact rvMulhuMsvc_eq humulh a b
  · exact rvMulhsuMsvc_value humulh a b
  · exact rvMulhMsvc_eq hmulh a b
  · exact_mod_cast halves_product (ofInt_toNat a) (ofInt_toNat b) hunsigned
  · exact halves_product BitVec.ofInt_toInt (ofInt_toNat b) hmixed
  · exact halves_product BitVec.ofInt_toInt BitVec.ofInt_toInt hsigned

/-- The intrinsics as their upper halves, at the extreme operands. -/
theorem high_multiply_extremes :
    HighMultiplyLaw (fun x y => BitVec.ofInt 64 (x.toInt * y.toInt / 2 ^ 64))
      (fun x y => BitVec.ofNat 64 (x.toNat * y.toNat / 2 ^ 64))
      (BitVec.intMin 64) (BitVec.allOnes 64) := by
  apply high_multiply
  · intro x y
    have hupper := rvMulh_toInt (by norm_num) x y
    rwa [rvMulh_eq] at hupper
  · intro x y
    have hbound := (rvMulhu x y).isLt
    rw [rvMulhu_toNat] at hbound
    exact (BitVec.toNat_ofNat _ _).trans (Nat.mod_eq_of_lt hbound)

end Intrinsics

/-! ## Signed overflow in the fallback -/

/-- `mulhudw` evaluates unsigned operations and shifts by 32 only. -/
theorem mulhudw_defined (a b : BitVec 64) : (mulhudw a b).Defined :=
  (mulhudw_spec a b).1.defined

/-- The correction of the fallback is defined where the signed difference fits, or where
it is not made. -/
theorem subtractIf_defined (cond : Bool) (res x : BitVec w) :
    (subtractIf cond res x).Defined ↔ (cond → InRange w (res.toInt - x.toInt)) := by
  cases cond with
  | true => simp only [subtractIf, if_true, defined_ssub, true_implies]
  | false =>
      simp only [subtractIf, Bool.false_eq_true, if_false, defined_pure, false_implies]

/-- What the corrections of `rv_mulh` subtract, as numbers. -/
theorem rvMulhFallback_defined (a b : BitVec 64) :
    (rvMulhFallback a b).Defined ↔
      (a.slt 0 → InRange 64 ((rvMulhu a b).toInt - b.toInt)) ∧
      (b.slt 0 → InRange 64 ((rvMulhsu a b).toInt - a.toInt)) := by
  rw [rvMulhFallback, defined_bind, defined_bind, subtractIf_defined, subtractIf_defined,
    subtractIf_value, mulhudw_value, rvMulhsu_eq_sub, and_iff_right (mulhudw_defined a b)]

theorem slt_zero_iff (b : BitVec 64) : b.slt 0 ↔ 2 ^ 63 ≤ b.toNat := by
  rw [show b.slt 0 = b.msb from BitVec.slt_zero_eq_msb, BitVec.msb_eq_decide,
    decide_eq_true_iff]

/-- The first correction overflows when the unsigned upper half lost its sign. -/
theorem first_correction_inRange {a : BitVec 64} (ha : a.slt 0) (b : BitVec 64) :
    InRange 64 ((rvMulhu a b).toInt - b.toInt) ↔
      (b.slt 0 → 2 ^ 127 ≤ a.toNat * b.toNat) := by
  have hcorrected : (rvMulhsu a b).toInt =
      ((a.toNat * b.toNat : ℕ) : ℤ) / 2 ^ 64 - b.toNat := by
    rw [Nat.cast_mul, rvMulhsu_toInt (by norm_num), toInt_eq_sub, mul_comm, upper_sub,
      if_pos ha, mul_one, mul_comm (b.toNat : ℤ)]
  have hlow := BitVec.le_toInt (rvMulhsu a b)
  have hhigh := @BitVec.toInt_lt 64 (rvMulhsu a b)
  rw [hcorrected] at hlow hhigh
  have hb := b.isLt
  have hproduct : a.toNat * b.toNat ≤ 2 ^ 64 * b.toNat :=
    Nat.mul_le_mul_right _ a.isLt.le
  rw [InRange, slt_zero_iff, BitVec.toInt_eq_toNat_cond, BitVec.toInt_eq_toNat_cond,
    rvMulhu_toNat]
  generalize a.toNat * b.toNat = product at *
  omega

/-- The second correction never overflows. -/
theorem second_correction_inRange (a : BitVec 64) {b : BitVec 64} (hb : b.slt 0) :
    InRange 64 ((rvMulhsu a b).toInt - a.toInt) := by
  have hcorrected : (rvMulhsu a b).toInt - a.toInt = (rvMulh a b).toInt := by
    rw [rvMulhsu_toInt (by norm_num), rvMulh_toInt (by norm_num), toInt_eq_sub b,
      upper_sub, if_pos hb, mul_one]
  rw [hcorrected]
  exact ⟨BitVec.le_toInt _, BitVec.toInt_lt⟩

/-- The fallback of `rv_mulh` overflows on two negative operands whose unsigned product is
below `2 ^ 127`. -/
theorem fallback_corrections (a b : BitVec 64) :
    (rvMulhFallback a b).Defined ↔ (a.slt 0 → b.slt 0 → 2 ^ 127 ≤ a.toNat * b.toNat) := by
  rw [rvMulhFallback_defined, and_iff_left (second_correction_inRange a)]
  exact forall_congr' fun ha => first_correction_inRange ha b

/-- The product of the smallest numbers: the first correction leaves the signed type. -/
theorem fallback_corrections_overflow :
    ¬ ∀ a b : BitVec 64, (rvMulhFallback a b).Defined := by
  intro hdefined
  have hmin := hdefined (BitVec.intMin 64) (BitVec.intMin 64)
  rw [rvMulhFallback_defined] at hmin
  exact absurd (hmin.1 (by decide)) (by decide)

end Rvem.HighMultiply
