import Rvem.Arith.Division
import Rvem.Arith.HighMultiply
import Rvem.Isa.Manual
import Rvem.Library.FloorShift
import Rvem.Memory.Assembly
import Rvem.Model.Core

/-!
# Register values as numbers

The operations of the emulator on registers of either width are the operations of the
manual on the numbers the registers denote.  Everything is stated for both values of
XLEN at once; the RV32IM reference machine is the case of 32.
-/

namespace Rvem.Values

open Rvem.Arch
open Rvem.Mul
open Rvem.Core
open Rvem.Assembly
open Rvem.Library
open Rvem.Library.FloorShift
open Rvem.Manual (wrap signed regValue branches)
open Rvem.Reference (signExtend RegOp BranchOp)

variable {w : ℕ}

/-! ## Two's complement -/

theorem wrap_eq (value : ℤ) : wrap w value = (BitVec.ofInt w value).toNat := by
  rw [BitVec.toNat_ofInt, wrap]
  norm_cast

theorem toNat_eq_wrap {x : BitVec w} {value : ℤ} (hx : x.toInt = value) :
    x.toNat = wrap w value := by
  rw [wrap_eq, ← hx, BitVec.ofInt_toInt]

theorem signExtend_toNat {n : ℕ} (hn : 0 < n) (x : BitVec n) :
    signExtend n x.toNat = x.toInt := by
  have hhalf : 2 ^ n = 2 * 2 ^ (n - 1) := by
    rw [← pow_succ', Nat.sub_add_cancel hn]
  rw [signExtend, BitVec.toInt_eq_toNat_cond]
  by_cases hsmall : x.toNat < 2 ^ (n - 1)
  · rw [if_pos hsmall, if_pos (by omega)]
  · rw [if_neg hsmall, if_neg (by omega)]
    norm_cast

theorem wrap_natCast {n : ℕ} (hn : n < 2 ^ w) : wrap w n = n := by
  rw [wrap_eq, BitVec.ofInt_natCast, BitVec.toNat_ofNat, Nat.mod_eq_of_lt hn]

/-! ## Shifts -/

theorem and_signBit_ne_zero_iff (hw : w = 32 ∨ w = 64) (val : BitVec w) :
    val &&& signBit w ≠ 0 ↔ val.msb = true := by
  have hbit : signBit w = BitVec.twoPow w (w - 1) := by
    rcases hw with rfl | rfl <;> decide
  have hne : BitVec.twoPow w (w - 1) ≠ 0 := by
    rcases hw with rfl | rfl <;> decide
  rw [hbit, BitVec.and_twoPow, BitVec.msb_eq_getLsbD_last]
  split
  · simp_all
  · simp_all

/-- The portable shift macro is the arithmetic shift. -/
theorem sra_eq_sshiftRight (hw : w = 32 ∨ w = 64) (val : BitVec w) {sh : ℕ}
    (hsh : sh < w) : sra val sh = val.sshiftRight sh := by
  rw [sra]
  by_cases hzero : sh = 0
  · rw [if_pos hzero, hzero, BitVec.sshiftRight_zero]
  · rw [if_neg hzero]
    simp only [and_signBit_ne_zero_iff hw]
    apply BitVec.eq_of_getLsbD_eq
    intro i hi
    have hfill : ((~~~0#w) <<< (w - sh)).getLsbD i = decide (w - sh ≤ i) := by
      rw [BitVec.getLsbD_shiftLeft, BitVec.getLsbD_not, BitVec.getLsbD_zero]
      by_cases hlow : i < w - sh
      · simp [hlow, Nat.not_le_of_lt hlow]
      · simp [hi, Nat.le_of_not_lt hlow, show i - (w - sh) < w by omega]
    have hempty : (0 : BitVec w).getLsbD i = false := BitVec.getLsbD_zero
    have hover : w ≤ sh + i → val.getLsbD (sh + i) = false :=
      BitVec.getLsbD_of_ge val (sh + i)
    rw [BitVec.getLsbD_or, BitVec.getLsbD_ushiftRight, BitVec.getLsbD_sshiftRight,
      decide_eq_false (not_le.mpr hi), Bool.not_false, Bool.true_and]
    by_cases hin : sh + i < w
    · rw [if_pos hin]
      split
      · rw [hfill, decide_eq_false (by omega), Bool.or_false]
      · rw [hempty, Bool.or_false]
    · rw [if_neg hin, hover (by omega), Bool.false_or]
      cases hmsb : val.msb with
      | true => rw [if_pos rfl, hfill, decide_eq_true (by omega)]
      | false => rw [if_neg Bool.false_ne_true, hempty]

/-- `SRA` at the register width of a build rounds down. -/
theorem roundsDown_sra (hw : w = 32 ∨ w = 64) :
    RoundsDown (sra : BitVec w → ℕ → BitVec w) := by
  intro val sh hsh
  rw [sra_eq_sshiftRight hw val hsh]
  exact roundsDown_sshiftRight val sh hsh

/-- The mask of a shift amount leaves amounts below the register width. -/
theorem shiftAmount_lt (hw : w = 32 ∨ w = 64) (y : BitVec w) :
    (y &&& shiftMax w).toNat < w := by
  have hmax : (shiftMax w).toNat < w := by rcases hw with rfl | rfl <;> decide
  rw [BitVec.toNat_and]
  exact Nat.and_le_right.trans_lt hmax

section Width

variable (hw : w = 32 ∨ w = 64)
include hw

theorem xlen_pos : 0 < w := by omega

theorem signed_toNat (x : BitVec w) : signed w x.toNat = x.toInt :=
  signExtend_toNat (xlen_pos hw) x

/-- The mask of a shift amount keeps its residue. -/
theorem toNat_shiftAmount (y : BitVec w) : (y &&& shiftMax w).toNat = y.toNat % w := by
  rw [BitVec.toNat_and]
  rcases hw with rfl | rfl
  · exact Nat.and_two_pow_sub_one_eq_mod y.toNat 5
  · exact Nat.and_two_pow_sub_one_eq_mod y.toNat 6

theorem toNat_sra (x : BitVec w) {sh : ℕ} (hsh : sh < w) :
    (sra x sh).toNat = wrap w (signed w x.toNat / 2 ^ sh) := by
  rw [signed_toNat hw]
  apply toNat_eq_wrap
  exact (roundsDown_sra hw).toInt_eq x hsh

theorem toNat_truth {p q : Prop} [Decidable p] [Decidable q] (hpq : p ↔ q) :
    (if p then 1 else 0 : BitVec w).toNat = if q then 1 else 0 := by
  have hone : (1 : BitVec w).toNat = 1 := by rcases hw with rfl | rfl <;> rfl
  by_cases h : q
  · rw [if_pos (hpq.mpr h), if_pos h, hone]
  · rw [if_neg (mt hpq.mp h), if_neg h]
    exact BitVec.toNat_zero

/-! ## Division -/

theorem overflow_iff (x y : BitVec w) :
    (x = sregMin w ∧ y = -1) ↔
      (signed w x.toNat = -2 ^ (w - 1) ∧ signed w y.toNat = -1) := by
  rw [signed_toNat hw, signed_toNat hw]
  exact Division.overflows_iff (by omega) x y

omit hw in
theorem eq_zero_iff (y : BitVec w) : y = 0 ↔ y.toNat = 0 := by
  rw [BitVec.toNat_eq]
  exact Eq.congr_right BitVec.toNat_zero

omit hw in
theorem toNat_regMax : (regMax w).toNat = 2 ^ w - 1 := BitVec.toNat_allOnes

theorem toNat_sregMin : (sregMin w).toNat = 2 ^ (w - 1) := by
  rcases hw with rfl | rfl <;> decide

/-- The division helper gives what the manual says, division by zero and overflow
included. -/
theorem toNat_rvDiv (x y : BitVec w) :
    (rvDiv x y).toNat = Manual.div w x.toNat y.toNat := by
  rw [rvDiv, Manual.div]
  simp only [eq_zero_iff, overflow_iff hw]
  split
  · rw [← toNat_regMax, regMax, ← BitVec.neg_one_eq_allOnes]
    rfl
  · split
    · exact toNat_sregMin hw
    · rename_i hoverflow
      rw [← overflow_iff hw, not_and_or] at hoverflow
      rw [signed_toNat hw, signed_toNat hw]
      exact toNat_eq_wrap (BitVec.toInt_sdiv_of_ne_or_ne x y hoverflow)

theorem toNat_rvRem (x y : BitVec w) :
    (rvRem x y).toNat = Manual.rem w x.toNat y.toNat := by
  rw [rvRem, Manual.rem]
  simp only [eq_zero_iff, overflow_iff hw]
  split
  · rfl
  · split
    · exact BitVec.toNat_zero
    · rw [signed_toNat hw, signed_toNat hw]
      exact toNat_eq_wrap (BitVec.toInt_srem x y)

/-! ## Operations -/

omit hw in
/-- The expression the emulator evaluates for an operation. -/
def opValue (op : RegOp) (x y : BitVec w) : BitVec w :=
  match op with
  | .add => x + y
  | .sub => x - y
  | .sll => x <<< (y &&& shiftMax w).toNat
  | .slt => if x.slt y then 1 else 0
  | .sltu => if x < y then 1 else 0
  | .xor => x ^^^ y
  | .srl => x >>> (y &&& shiftMax w).toNat
  | .sra => sra x (y &&& shiftMax w).toNat
  | .or => x ||| y
  | .and => x &&& y
  | .mul => rvMul x y
  | .mulh => rvMulh x y
  | .mulhsu => rvMulhsu x y
  | .mulhu => rvMulhu x y
  | .div => rvDiv x y
  | .divu => rvDivu x y
  | .rem => rvRem x y
  | .remu => rvRemu x y

/-- What `process_instr` computes for an operation is the value of the manual, as
numbers. -/
theorem toNat_opValue (op : RegOp) (x y : BitVec w) :
    (opValue op x y).toNat = regValue w op x.toNat y.toNat := by
  have hamount := toNat_shiftAmount hw y
  have hbound : y.toNat % w < w := Nat.mod_lt _ (xlen_pos hw)
  cases op <;> simp only [opValue, regValue, hamount]
  case add => exact BitVec.toNat_add x y
  case sub =>
    rw [wrap_eq, HighMultiply.ofInt_sub, HostArith.ofInt_toNat, HostArith.ofInt_toNat]
  case sll => rw [BitVec.toNat_shiftLeft, Nat.shiftLeft_eq]
  case slt =>
    apply toNat_truth hw
    rw [signed_toNat hw, signed_toNat hw, BitVec.slt_iff_toInt_lt]
  case sltu => exact toNat_truth hw BitVec.lt_def
  case xor => exact BitVec.toNat_xor x y
  case srl => rw [BitVec.toNat_ushiftRight, Nat.shiftRight_eq_div_pow]
  case sra => exact toNat_sra hw x hbound
  case or => exact BitVec.toNat_or x y
  case and => exact BitVec.toNat_and x y
  case mul => exact BitVec.toNat_mul x y
  case mulh => rw [HighMultiply.rvMulh_eq, ← wrap_eq, signed_toNat hw, signed_toNat hw]
  case mulhsu => rw [HighMultiply.rvMulhsu_eq, ← wrap_eq, signed_toNat hw]
  case mulhu => exact HighMultiply.rvMulhu_toNat x y
  case div => exact toNat_rvDiv hw x y
  case divu =>
    rw [rvDivu]
    simp only [eq_zero_iff]
    split
    · exact toNat_regMax
    · exact BitVec.toNat_udiv
  case rem => exact toNat_rvRem hw x y
  case remu =>
    rw [rvRemu]
    simp only [eq_zero_iff]
    split
    · rfl
    · exact BitVec.toNat_umod

/-- The comparison of each branch, as the manual states it over numbers. -/
theorem branchTaken_eq (op : BranchOp) (x y : BitVec w) :
    branchTaken (BitVec.ofNat 8 op.funct3) x y = branches w op x.toNat y.toNat := by
  cases op <;> simp only [branches, signed_toNat hw]
  case beq =>
    change (x == y) = _
    rw [Bool.beq_eq_decide_eq]
    exact decide_eq_decide.mpr BitVec.toNat_eq
  case bne =>
    change (x != y) = _
    rw [bne, Bool.beq_eq_decide_eq, ← decide_not]
    exact decide_eq_decide.mpr (not_congr BitVec.toNat_eq)
  case blt => rfl
  case bge =>
    change (!x.slt y) = _
    rw [BitVec.slt, ← decide_not]
    exact decide_eq_decide.mpr not_lt
  case bltu => rfl
  case bgeu => rfl

/-! ## Loads and stores -/

omit hw in
theorem toNat_signedLoad {n v : ℕ} (hn : 0 < n) (hv : v < 2 ^ n) :
    ((BitVec.ofNat n v).signExtend w).toNat = wrap w (signExtend n v) := by
  have hvalue : (BitVec.ofNat n v).toNat = v := by
    rw [BitVec.toNat_ofNat, Nat.mod_eq_of_lt hv]
  rw [wrap_eq, ← hvalue, signExtend_toNat hn, hvalue]
  rfl

/-- The code and the width of a load of the build. -/
theorem loadSize_loadOp {op : Manual.LoadOp} (hop : op ∈ Manual.loadOps w) :
    loadSize w (BitVec.ofNat 8 op.funct3) = some op.size := by
  rcases hw with rfl | rfl <;> revert op <;> decide

theorem storeSize_storeOp {op : Manual.StoreOp} (hop : op ∈ Manual.storeOps w) :
    storeSize w (BitVec.ofNat 8 op.funct3) = some op.size := by
  rcases hw with rfl | rfl <;> revert op <;> decide

theorem size_le {op : Manual.LoadOp} (hop : op ∈ Manual.loadOps w) : 8 * op.size ≤ w := by
  rcases hw with rfl | rfl <;> revert op <;> decide

/-- The bytes loaded are extended as the manual says. -/
theorem toNat_loadValue {op : Manual.LoadOp} (hop : op ∈ Manual.loadOps w) {v : ℕ}
    (hv : v < 256 ^ op.size) :
    (loadValue w (BitVec.ofNat 8 op.funct3) op.size v).toNat = op.extend w v := by
  have hbits : v < 2 ^ (8 * op.size) := by
    rw [pow_mul]
    exact hv
  have hfits : v < 2 ^ w :=
    hbits.trans_le (Nat.pow_le_pow_right (by norm_num) (size_le hw hop))
  have hunsigned : (BitVec.ofNat w v).toNat = v := by
    rw [BitVec.toNat_ofNat, Nat.mod_eq_of_lt hfits]
  cases op
  case lb | lh | lw | ld => exact toNat_signedLoad (by decide) hbits
  case lbu | lhu | lwu => exact hunsigned

end Width

end Rvem.Values
