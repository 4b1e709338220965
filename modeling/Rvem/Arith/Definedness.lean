import Rvem.Arith.Division
import Rvem.Arith.HighMultiply
import Rvem.Arith.Shift
import Rvem.Isa.Encodings
import Rvem.Model.EvaluatedCore
import Rvem.Model.Main
import Rvem.Semantics.StepEffect

/-!
# Defined arithmetic in `process_instr`

Every signed operation, division and shift that a call evaluates is defined in C, except
the additions and subtractions of guest registers, which the code carries out in the
signed type and which overflow where the guest's do.  A call is therefore defined
exactly where the sums that it carries out fit, which its word and the registers it
names decide.
-/

namespace Rvem.Definedness

open Rvem.Arch
open Rvem.State
open Rvem.Bus
open Rvem.Mul
open Rvem.Core
open Rvem.Main
open Rvem.Fields
open Rvem.StepEffect
open Rvem.Evaluated
open Rvem.EvaluatedCore
open Rvem.Division
open Rvem.HighMultiply
open Rvem.Encodings
open Rvem.FlatMap (busRange_le)
open Rvem.Shift (mem_sraEval_ops)
open Rvem.Values (shiftAmount_lt)
open Rvem.Library
open Rvem.Library.HostArith
open Rvem.Library.HostArith.Logged (defined_map defined_sadd defined_ssub defined_smul
  defined_shl defined_shr shl shr)

variable {w : ℕ}

/-! ## Shifts -/

/-- The subtraction in a shift macro is defined for every amount. -/
def CountDefined (count : ℤ → Operation) : Prop :=
  ∀ z, 0 ≤ z → z ≤ 64 → (count z).Defined

theorem countDefined_signed (hw : w = 32 ∨ w = 64) : CountDefined (.signed w) := by
  intro z hlow hhigh
  change InRange w z
  rw [InRange]
  rcases hw with rfl | rfl
  · omega
  · omega

theorem countDefined_unsigned : CountDefined (.unsigned w) :=
  fun _ _ _ => trivial

theorem sraEval_defined (hw : w = 32 ∨ w = 64) {count : ℤ → Operation}
    (hcount : CountDefined count) (val : BitVec w) {sh : ℕ} (hsh : sh < w) :
    (sraEval count val sh).Defined := by
  intro op hop
  obtain ⟨hpos, rfl | rfl | rfl⟩ := mem_sraEval_ops hop
  · exact hsh
  · apply hcount
    · omega
    · omega
  · exact Nat.sub_lt_self hpos hsh.le

/-- The shifts of `SRAW` have amounts below 32 when its amount is, also for the amount
zero. -/
theorem srawEval_defined {count : ℤ → Operation} (hcount : CountDefined count)
    (val : Word) {sh : ℕ} (hsh : sh < 32) : (srawEval count val sh).Defined :=
  sraEval_defined (.inl rfl) hcount val hsh

/-! ## Fields and immediates -/

section Fields

variable (instr : Word)

theorem getRs1Eval_defined : (getRs1Eval instr).Defined := by
  simp [getRs1Eval]

theorem getRs2Eval_defined : (getRs2Eval instr).Defined := by
  simp [getRs2Eval]

theorem getRdEval_defined : (getRdEval instr).Defined := by
  simp [getRdEval]

theorem getFunct3Eval_defined : (getFunct3Eval instr).Defined := by
  simp [getFunct3Eval]

theorem aluFunct7Bit5Eval_defined : (aluFunct7Bit5Eval instr).Defined := by
  simp [aluFunct7Bit5Eval]

theorem getImm12Eval_defined : (getImm12Eval w instr).Defined := by
  simp [getImm12Eval]

/-- The shift back of a packed immediate. -/
theorem packedEval_defined (packed : Word) {sh : ℕ} (hsh : sh < 32) :
    (srawEval (.signed 32) packed sh).Defined :=
  srawEval_defined (countDefined_signed (.inl rfl)) packed hsh

theorem getSimm12Eval_defined : (getSimm12Eval w instr).Defined := by
  simp [getSimm12Eval, packedEval_defined]

theorem getBranchImmEval_defined : (getBranchImmEval w instr).Defined := by
  simp [getBranchImmEval, packedEval_defined]

theorem getJalImmEval_defined : (getJalImmEval w instr).Defined := by
  simp [getJalImmEval, packedEval_defined]

theorem getStoreImmEval_defined : (getStoreImmEval w instr).Defined := by
  simp [getStoreImmEval, packedEval_defined]

end Fields

/-! ## Multiplication and division -/

/-- A signed factor and one below the base fit in twice the width. -/
theorem inRange_product (hw : 0 < w) (a : BitVec w) {y : ℤ} (hy : |y| < 2 ^ w) :
    InRange (w + w) (a.toInt * y) := by
  have hbase : (2 : ℤ) ^ (w + w - 1) = 2 ^ (w - 1) * 2 ^ w := by
    rw [← pow_add]
    congr 1
    omega
  obtain ⟨hlow, hhigh⟩ := abs_lt.mp (abs_mul_lt a hy)
  rw [InRange, hbase]
  exact ⟨hlow.le, hhigh⟩

theorem toInt_signExtend_double (a : BitVec w) : (a.signExtend (w + w)).toInt = a.toInt :=
  BitVec.toInt_signExtend_of_le (Nat.le_add_left w w)

theorem toInt_setWidth_double (hw : 0 < w) (b : BitVec w) :
    (b.setWidth (w + w)).toInt = b.toNat := by
  have hkept : (b.setWidth (w + w)).toNat = b.toNat :=
    BitVec.toNat_setWidth_of_le (Nat.le_add_left w w)
  have hsmall : 2 * b.toNat < 2 ^ (w + w) :=
    calc
      2 * b.toNat < 2 * 2 ^ w := by have hb := b.isLt; omega
      _ = 2 ^ (w + 1) := by rw [pow_succ, mul_comm]
      _ ≤ 2 ^ (w + w) := Nat.pow_le_pow_right (by norm_num) (by omega)
  rw [BitVec.toInt_eq_toNat_cond, hkept, if_pos hsmall]

/-- The product of two sign-extended registers fits the type of twice their width, so the
multiplication is defined for every pair of operands. -/
theorem rvMulhEval_defined (hw : 0 < w) (a b : BitVec w) : (rvMulhEval a b).Defined := by
  have hb : |b.toInt| < 2 ^ w :=
    (abs_toInt_le b).trans_lt
      (pow_lt_pow_right₀ (by norm_num) (Nat.sub_lt hw Nat.one_pos))
  simp only [rvMulhEval, Logged.defined_bind, Logged.defined_pure, defined_smul,
    defined_shr, toInt_signExtend_double, and_true]
  exact ⟨inRange_product hw a hb, by omega⟩

theorem rvMulhsuEval_defined (hw : 0 < w) (a b : BitVec w) :
    (rvMulhsuEval a b).Defined := by
  have hb : |(b.toNat : ℤ)| < 2 ^ w := by
    rw [Nat.abs_cast]
    exact_mod_cast b.isLt
  simp only [rvMulhsuEval, Logged.defined_bind, Logged.defined_pure, defined_smul,
    defined_shr, toInt_signExtend_double, toInt_setWidth_double hw, and_true]
  exact ⟨inRange_product hw a hb, by omega⟩

theorem rvMulhuEval_defined (hw : 0 < w) (a b : BitVec w) :
    (rvMulhuEval a b).Defined := by
  simp only [rvMulhuEval, Logged.defined_bind, Logged.defined_umul, Logged.defined_pure,
    defined_shr, true_and, and_true]
  omega

/-- No operation of the M extension evaluates anything undefined: the division helpers
test their operands before they divide. -/
theorem mulValueEval_defined (hw : w = 32 ∨ w = 64) (funct3 : Byte) (x y : BitVec w) :
    (mulValueEval funct3 x y).Defined := by
  have hpos : 1 < w := by omega
  have hsigned := signedLaw hpos x y
  have hunsigned := unsignedLaw x y
  rw [mulValueEval]
  refine .ite (fun _ => (defined_map _ _).mpr ((Logged.defined_umul x y).mpr trivial))
    fun _ => ?_
  refine .ite (fun _ => (defined_map _ _).mpr (rvMulhEval_defined (by omega) x y))
    fun _ => ?_
  refine .ite (fun _ => (defined_map _ _).mpr (rvMulhsuEval_defined (by omega) x y))
    fun _ => ?_
  refine .ite (fun _ => (defined_map _ _).mpr (rvMulhuEval_defined (by omega) x y))
    fun _ => ?_
  refine .ite (fun _ => (defined_map _ _).mpr hsigned.div_defined) fun _ => ?_
  refine .ite (fun _ => (defined_map _ _).mpr hunsigned.div_defined) fun _ => ?_
  refine .ite (fun _ => (defined_map _ _).mpr hsigned.rem_defined) fun _ => ?_
  refine .ite (fun _ => (defined_map _ _).mpr hunsigned.rem_defined) fun _ => ?_
  exact Logged.defined_pure _

theorem mulwValueEval_defined (funct3 : Byte) (x y : BitVec w) :
    (mulwValueEval funct3 x y).Defined := by
  have hsigned := signedLaw (by norm_num) (x.setWidth 32) (y.setWidth 32)
  have hunsigned := unsignedLaw (x.setWidth 32) (y.setWidth 32)
  rw [mulwValueEval]
  refine .ite (fun _ => (defined_map _ _).mpr ((Logged.defined_umul _ _).mpr trivial))
    fun _ => ?_
  refine .ite (fun _ => (defined_map _ _).mpr hsigned.div_defined) fun _ => ?_
  refine .ite (fun _ => (defined_map _ _).mpr hunsigned.div_defined) fun _ => ?_
  refine .ite (fun _ => (defined_map _ _).mpr hsigned.rem_defined) fun _ => ?_
  refine .ite (fun _ => (defined_map _ _).mpr hunsigned.rem_defined) fun _ => ?_
  exact Logged.defined_pure _

/-! ## The inner switches -/

/-- The sum or difference that an operation code asks for fits in the signed type. -/
def SumFits (aluop : Byte) (x y : BitVec w) : Prop :=
  (aluop = aluAdd → InRange w (x.toInt + y.toInt)) ∧
    (aluop = aluSub → InRange w (x.toInt - y.toInt))

instance (aluop : Byte) (x y : BitVec w) : Decidable (SumFits aluop x y) :=
  inferInstanceAs (Decidable (_ ∧ _))

theorem sumFits_add (x y : BitVec w) :
    SumFits aluAdd x y ↔ InRange w (x.toInt + y.toInt) := by
  simp [SumFits]

theorem sumFits_sub (x y : BitVec w) :
    SumFits aluSub x y ↔ InRange w (x.toInt - y.toInt) := by
  simp [SumFits]

theorem sumFits_of_ne {aluop : Byte} (hadd : aluop ≠ aluAdd) (hsub : aluop ≠ aluSub)
    (x y : BitVec w) : SumFits aluop x y :=
  ⟨fun h => absurd h hadd, fun h => absurd h hsub⟩

theorem wordShiftAmount_lt (hw : w = 32 ∨ w = 64) (y : BitVec w) :
    (y &&& shiftMaxWord.setWidth w).toNat < 32 := by
  have hmax : (shiftMaxWord.setWidth w).toNat < 32 := by
    rcases hw with rfl | rfl <;> decide
  rw [BitVec.toNat_and]
  exact Nat.and_le_right.trans_lt hmax

/-- Of the operations of `OP_RTYPE` only `ALU_ADD` and `ALU_SUB` can be undefined, where
the signed sum or difference leaves the type. -/
theorem aluValueEval_defined (hw : w = 32 ∨ w = 64) (aluop : Byte) (x y : BitVec w) :
    (aluValueEval aluop x y).Defined ↔ SumFits aluop x y := by
  have hamount := shiftAmount_lt hw y
  rw [aluValueEval]
  by_cases hadd : aluop = aluAdd
  · rw [if_pos hadd, hadd, sumFits_add, defined_map, defined_sadd]
  rw [if_neg hadd]
  by_cases hsub : aluop = aluSub
  · rw [if_pos hsub, hsub, sumFits_sub, defined_map, defined_ssub]
  rw [if_neg hsub]
  refine iff_of_true ?_ (sumFits_of_ne hadd hsub x y)
  have hsra := sraEval_defined hw (countDefined_unsigned (w := w)) x hamount
  refine .ite (fun _ => (defined_map _ _).mpr ((defined_shl _ _).mpr hamount)) fun _ => ?_
  refine .ite (fun _ => (defined_map _ _).mpr ((defined_shr _ _).mpr hamount)) fun _ => ?_
  refine .ite (fun _ => (defined_map _ _).mpr hsra) fun _ => ?_
  refine .ite (fun _ => Logged.defined_pure _) fun _ => ?_
  refine .ite (fun _ => Logged.defined_pure _) fun _ => ?_
  refine .ite (fun _ => Logged.defined_pure _) fun _ => ?_
  refine .ite (fun _ => Logged.defined_pure _) fun _ => ?_
  exact .ite (fun _ => Logged.defined_pure _) fun _ => Logged.defined_pure _

theorem aluwValueEval_defined (hw : w = 32 ∨ w = 64) (aluop : Byte) (x y : BitVec w) :
    (aluwValueEval aluop x y).Defined ↔
      SumFits aluop (x.setWidth 32) (y.setWidth 32) := by
  have hamount := wordShiftAmount_lt hw y
  rw [aluwValueEval]
  by_cases hadd : aluop = aluAdd
  · rw [if_pos hadd, hadd, sumFits_add, defined_map, defined_sadd]
  rw [if_neg hadd]
  by_cases hsub : aluop = aluSub
  · rw [if_pos hsub, hsub, sumFits_sub, defined_map, defined_ssub]
  rw [if_neg hsub]
  refine iff_of_true ?_ (sumFits_of_ne hadd hsub _ _)
  have hsraw := srawEval_defined (countDefined_unsigned (w := w)) (x.setWidth 32) hamount
  refine .ite (fun _ => (defined_map _ _).mpr ((defined_shl _ _).mpr hamount)) fun _ => ?_
  refine .ite (fun _ => (defined_map _ _).mpr ((defined_shr _ _).mpr hamount)) fun _ => ?_
  exact .ite (fun _ => (defined_map _ _).mpr hsraw) fun _ => Logged.defined_pure _

section Switches

variable (hw : w = 32 ∨ w = 64) (m : Bool) (raw : Word) (x y imm : BitVec w)

include hw in
theorem rtypeValueEval_defined : (rtypeValueEval m raw x y).Defined ↔
    ((m && checkFunct7Bit0 raw) = false →
      SumFits (aluFunct7Bit5 raw ||| getFunct3 raw) x y) := by
  rw [rtypeValueEval, Logged.defined_bind, and_iff_right (getFunct3Eval_defined raw)]
  split
  · next hmul =>
      simp only [hmul, mulValueEval_defined hw, Bool.true_eq_false, false_implies]
  · next halu =>
    rw [Logged.defined_bind, and_iff_right (aluFunct7Bit5Eval_defined raw),
      aluValueEval_defined hw, Bool.eq_false_iff.mpr halu]
    exact ⟨fun hfits _ => hfits, fun hfits => hfits rfl⟩

include hw in
theorem rtypewValueEval_defined : (rtypewValueEval m raw x y).Defined ↔
    ((m && checkFunct7Bit0 raw) = false →
      SumFits (aluFunct7Bit5 raw ||| getFunct3 raw) (x.setWidth 32) (y.setWidth 32)) := by
  rw [rtypewValueEval, Logged.defined_bind, and_iff_right (getFunct3Eval_defined raw)]
  split
  · next hmul =>
      simp only [hmul, mulwValueEval_defined, Bool.true_eq_false, false_implies]
  · next halu =>
    rw [Logged.defined_bind, and_iff_right (aluFunct7Bit5Eval_defined raw),
      aluwValueEval_defined hw, Bool.eq_false_iff.mpr halu]
    exact ⟨fun hfits _ => hfits, fun hfits => hfits rfl⟩

/-- `OP_IMM` has no case for a difference. -/
def ImmSumFits (x imm : BitVec w) : Prop :=
  getFunct3 raw = aluAdd → InRange w (x.toInt + imm.toInt)

include hw in
theorem immValueEval_defined :
    (immValueEval raw x imm).Defined ↔ ImmSumFits raw x imm := by
  have hamount := shiftAmount_lt hw imm
  rw [immValueEval, Logged.defined_bind, and_iff_right (getFunct3Eval_defined raw),
    getFunct3Eval_value, ImmSumFits]
  by_cases hadd : getFunct3 raw = aluAdd
  · rw [if_pos hadd, defined_map, defined_sadd, forall_prop_of_true hadd]
  rw [if_neg hadd]
  refine iff_of_true ?_ fun hcode => absurd hcode hadd
  have hsra :=
    (defined_map some _).mpr (sraEval_defined hw (countDefined_signed hw) x hamount)
  have hsrl := (defined_map some _).mpr ((defined_shr x _).mpr hamount)
  refine .ite (fun _ => (defined_map _ _).mpr ((defined_shl _ _).mpr hamount)) fun _ => ?_
  refine .ite (fun _ => .ite (fun _ => hsra) fun _ => hsrl) fun _ => ?_
  refine .ite (fun _ => Logged.defined_pure _) fun _ => ?_
  refine .ite (fun _ => Logged.defined_pure _) fun _ => ?_
  refine .ite (fun _ => Logged.defined_pure _) fun _ => ?_
  refine .ite (fun _ => Logged.defined_pure _) fun _ => ?_
  exact .ite (fun _ => Logged.defined_pure _) fun _ => Logged.defined_pure _

include hw in
theorem immwValueEval_defined :
    (immwValueEval raw x imm).Defined ↔
      ImmSumFits raw (x.setWidth 32) (imm.setWidth 32) := by
  have hamount := wordShiftAmount_lt hw imm
  rw [immwValueEval, Logged.defined_bind, and_iff_right (getFunct3Eval_defined raw),
    getFunct3Eval_value, ImmSumFits]
  by_cases hadd : getFunct3 raw = aluAdd
  · rw [if_pos hadd, defined_map, defined_sadd, forall_prop_of_true hadd]
  rw [if_neg hadd]
  refine iff_of_true ?_ fun hcode => absurd hcode hadd
  have hsraw := srawEval_defined (countDefined_signed hw) (x.setWidth 32) hamount
  have hsrlw := (defined_shr (x.setWidth 32) _).mpr hamount
  refine .ite (fun _ => (defined_map _ _).mpr ((defined_shl _ _).mpr hamount)) fun _ => ?_
  refine .ite (fun _ => ?_) fun _ => Logged.defined_pure _
  exact .ite (fun _ => (defined_map _ _).mpr hsraw) fun _ => (defined_map _ _).mpr hsrlw

end Switches

/-! ## Memory and counters -/

section Memory

open Rvem.Library.HostArith.Fallible (defined_bind defined_pure defined_liftLogged
  defined_liftOption)

variable (byte : ℕ → Option Byte) (s : Machine w) (addr val : BitVec w) (op : Byte)

/-- The constants of the memory macros are small. -/
theorem inRange_small {z : ℤ} (hlow : 0 ≤ z) (hhigh : z ≤ 2 ^ 20) : InRange 32 z := by
  rw [InRange]
  omega

theorem perfModelMemoryEval_defined {size : ℕ} (hlow : 1 ≤ size) (hhigh : size ≤ 8) :
    (perfModelMemoryEval s size addr).Defined := by
  have hsize : InRange 32 ((size : ℤ) - 1) := inRange_small (by omega) (by omega)
  simp only [perfModelMemoryEval, Logged.defined_bind, Logged.defined_log,
    Logged.defined_pure, and_true]
  exact hsize

/-- An access that the performance model sees first. -/
theorem accounted_defined {A : Type} {size : ℕ} (hsize : 1 ≤ size ∧ size ≤ 8)
    {access : Machine w → Fallible A} (haccess : ∀ s, (access s).Defined) :
    (do access (← perfModelMemoryEval s size addr) : Fallible A).Defined := by
  rw [defined_bind, defined_liftLogged]
  exact ⟨perfModelMemoryEval_defined s addr hsize.1 hsize.2, fun s _ => haccess s⟩

theorem readWordEval_defined : (readWordEval byte).Defined := by
  simp [readWordEval]

theorem memReadEval_defined : (memReadEval byte s addr op val).Defined := by
  rw [memReadEval]
  refine .ite (fun _ => by simp) fun _ => ?_
  refine .ite (fun _ => by simp) fun _ => ?_
  refine .ite (fun _ => accounted_defined s addr ⟨by norm_num, by norm_num⟩ fun s => ?_)
    fun _ => ?_
  · simp
  refine .ite (fun _ => accounted_defined s addr ⟨by norm_num, by norm_num⟩ fun s => ?_)
    fun _ => ?_
  · simp
  refine .ite (fun _ => accounted_defined s addr ⟨by norm_num, by norm_num⟩ fun s => ?_)
    fun _ => ?_
  · simp [readWordEval_defined]
  refine .ite (fun _ => accounted_defined s addr ⟨by norm_num, by norm_num⟩ fun s => ?_)
    fun _ => ?_
  · simp [readWordEval_defined]
  refine .ite (fun _ => accounted_defined s addr ⟨by norm_num, by norm_num⟩ fun s => ?_)
    fun _ => defined_pure _
  simp

/-- The value stored is shifted by less than its width for every byte, since the width of
a store is at most that of a register. -/
theorem storeBytesEval_defined (ram : Fin ramSize → Byte) {count : ℕ}
    (hcount : 8 * count ≤ w) : (storeBytesEval ram addr val count).Defined := by
  induction count with
  | zero => exact defined_pure ram
  | succ count ih =>
    have hpart : (storePartEval val count).Defined := by
      rw [storePartEval]
      split
      · exact Logged.defined_pure val
      · exact (defined_shr val _).mpr (by omega)
    simp only [storeBytesEval, defined_bind, defined_liftLogged, defined_liftOption,
      hpart, implies_true, and_true]
    exact ih (by omega)

theorem ramWriteEval_defined (hw : w = 32 ∨ w = 64) :
    (ramWriteEval s addr op val).Defined := by
  have hassign : ∀ (s : Machine w) {count : ℕ}, 8 * count ≤ w →
      (do
        let ram ← storeBytesEval s.cpu.ram (addr - BitVec.ofNat w ramStart) val count
        return { s with cpu := { s.cpu with ram } } : Fallible (Machine w)).Defined := by
    intro s count hcount
    simp only [defined_bind, defined_pure, implies_true, and_true]
    exact storeBytesEval_defined _ val s.cpu.ram hcount
  rw [ramWriteEval]
  refine .ite (fun _ => hassign s (by omega)) fun _ => ?_
  refine .ite (fun _ => accounted_defined s addr ⟨by norm_num, by norm_num⟩ fun s =>
    hassign s (by omega)) fun _ => ?_
  refine .ite (fun _ => accounted_defined s addr ⟨by norm_num, by norm_num⟩ fun s =>
    hassign s (by omega)) fun _ => ?_
  refine .ite (fun hd => accounted_defined s addr ⟨by norm_num, by norm_num⟩ fun s =>
    hassign s (by omega)) fun _ => ?_
  exact defined_pure s

theorem ramGuardEval_defined (range : ℕ) : (ramGuardEval addr range).Defined := by
  have hsize : InRange 32 (64 * 1024) := inRange_small (by norm_num) (by norm_num)
  rw [ramGuardEval]
  split
  · simp only [Logged.defined_bind, Logged.defined_log, Logged.defined_pure, and_true]
    exact hsize
  · exact Logged.defined_pure false

theorem romGuardEval_defined {range : ℕ} (hrange : range ≤ 7) :
    (romGuardEval addr range).Defined := by
  have hsize : InRange 32 (512 * 1024) := inRange_small (by norm_num) (by norm_num)
  have hend : InRange 32 ((romSize : ℤ) - range) := by
    rw [romSize]
    exact inRange_small (by omega) (by omega)
  simp only [romGuardEval, Logged.defined_bind, Logged.defined_log, Logged.defined_pure,
    and_true]
  exact ⟨hsize, hend⟩

/-- A read evaluates nothing undefined, whatever its address and width are. -/
theorem busReadEval_defined : (busReadEval s addr op val).Defined := by
  have hrange : busRange w op ≤ 7 := busRange_le w op
  simp only [busReadEval, defined_bind, defined_liftLogged, ramGuardEval_defined,
    true_and]
  intro inRam _
  split
  · exact memReadEval_defined _ s addr val op
  · simp only [defined_bind, defined_liftLogged, romGuardEval_defined addr hrange,
      true_and]
    intro inRom _
    split
    · exact memReadEval_defined _ s addr val op
    · exact defined_pure _

/-- A write evaluates nothing undefined, whatever its address, width and value are. -/
theorem busWriteEval_defined (hw : w = 32 ∨ w = 64) :
    (busWriteEval s addr op val).Defined := by
  have hrange : busRange w op ≤ 7 := busRange_le w op
  simp only [busWriteEval, defined_bind, defined_liftLogged, ramGuardEval_defined,
    true_and]
  intro inRam _
  split
  · exact ramWriteEval_defined s addr val op hw
  · simp only [defined_bind, defined_liftLogged, romGuardEval_defined addr hrange,
      true_and]
    intro inRom _
    split
    · exact defined_pure _
    · exact defined_pure _

theorem readCsrEval_defined (csr : Word) : (readCsrEval s csr).Defined := by
  rw [readCsrEval]
  split_ifs
  · exact Logged.defined_pure _
  · exact Logged.defined_pure _
  · simp
  · simp
  · exact Logged.defined_pure _

end Memory

/-! ## Cases of the opcode switch -/

section Cases

open Rvem.Library.HostArith.Fallible

variable (s : Machine w) (raw : Word)

theorem execRegisterEval_defined
    (value : BitVec w → BitVec w → Logged (Option (BitVec w))) :
    (execRegisterEval value s raw).Defined ↔
      (value (s.cpu.regfile (rs1 raw)) (s.cpu.regfile (rs2 raw))).Defined := by
  simp only [execRegisterEval, defined_bind, defined_liftLogged, liftLogged_value,
    defined_liftOption, liftOption_value, getRs1Eval_defined, getRs2Eval_defined,
    getRdEval_defined, Option.mem_some_iff, forall_eq', getRs1Eval_value,
    getRs2Eval_value, perfModelHazard_eq, readReg_rs1, readReg_rs2, advance_cpu,
    defined_pure, implies_true, true_and, and_true]

theorem execImmediateEval_defined
    (value : BitVec w → BitVec w → Logged (Option (BitVec w))) :
    (execImmediateEval value s raw).Defined ↔
      (value (s.cpu.regfile (rs1 raw)) (getSimm12 w raw)).Defined := by
  simp only [execImmediateEval, defined_bind, defined_liftLogged, liftLogged_value,
    defined_liftOption, liftOption_value, getRs1Eval_defined, getRdEval_defined,
    getSimm12Eval_defined, Option.mem_some_iff, forall_eq', getRs1Eval_value,
    getSimm12Eval_value, perfModelHazard_eq, readReg_rs1, advance_cpu, defined_pure,
    implies_true, true_and, and_true]

theorem execLoadEval_defined : (execLoadEval s raw).Defined := by
  simp only [execLoadEval, defined_bind, defined_liftLogged, defined_liftOption,
    getRs1Eval_defined, getRdEval_defined, getSimm12Eval_defined, getFunct3Eval_defined,
    busReadEval_defined, defined_pure, implies_true, and_true]

theorem execStoreEval_defined (hw : w = 32 ∨ w = 64) : (execStoreEval s raw).Defined := by
  simp only [execStoreEval, defined_bind, defined_liftLogged, defined_liftOption,
    getRs1Eval_defined, getRs2Eval_defined, getStoreImmEval_defined,
    getFunct3Eval_defined, busWriteEval_defined _ _ _ _ hw, defined_pure, implies_true,
    and_true]

theorem execBranchEval_defined : (execBranchEval s raw).Defined := by
  simp only [execBranchEval, defined_bind, defined_liftLogged, defined_liftOption,
    getRs1Eval_defined, getRs2Eval_defined, getBranchImmEval_defined,
    getFunct3Eval_defined, true_and]
  intros
  split
  · exact defined_pure _
  · exact defined_pure _

theorem execUpperEval_defined (base : BitVec w) : (execUpperEval base s raw).Defined := by
  simp only [execUpperEval, defined_bind, defined_liftLogged, defined_liftOption,
    getRdEval_defined, defined_pure, implies_true, and_true]

theorem execJalEval_defined : (execJalEval s raw).Defined := by
  simp only [execJalEval, defined_bind, defined_liftLogged, defined_liftOption,
    getRdEval_defined, getJalImmEval_defined, defined_pure, implies_true, and_true]

theorem execJalrEval_defined : (execJalrEval s raw).Defined := by
  simp only [execJalrEval, defined_bind, defined_liftLogged, defined_liftOption,
    getRs1Eval_defined, getRdEval_defined, getSimm12Eval_defined, defined_pure,
    implies_true, and_true]

theorem execSysEval_defined : (execSysEval s raw).Defined := by
  simp only [execSysEval, defined_bind, defined_liftLogged, getFunct3Eval_defined,
    getRs1Eval_defined, getRdEval_defined, getImm12Eval_defined, true_and]
  intro op _ rs1 _ rd _ uimm _
  refine .ite (fun _ => defined_liftOption _) fun _ => ?_
  refine .ite (fun _ => ?_) fun _ => ?_
  · simp only [defined_bind, defined_liftOption, true_and]
    intro val _
    refine .ite (fun _ => ?_) fun _ => ?_
    · simp only [defined_bind, defined_liftLogged, defined_liftOption,
        readCsrEval_defined, defined_pure, implies_true, and_true]
    · simp only [defined_bind, defined_pure, implies_true, and_true]
  refine .ite (fun _ => ?_) fun _ => ?_
  · simp only [defined_bind, defined_liftLogged, defined_liftOption, readCsrEval_defined,
      defined_pure, implies_true, and_true]
  refine .ite (fun _ => ?_) fun _ => defined_pure _
  simp only [defined_bind, defined_liftLogged, defined_liftOption, readCsrEval_defined,
    defined_pure, implies_true, and_true]

end Cases

/-! ## Every call -/

/-- The additions and subtractions of registers that `raw` asks for fit in the signed
type. -/
def SumsFit (m : Bool) (cpu : Cpu w) (raw : Word) : Prop :=
  let x := cpu.regfile (rs1 raw)
  let y := cpu.regfile (rs2 raw)
  let imm := getSimm12 w raw
  let aluop := aluFunct7Bit5 raw ||| getFunct3 raw
  match opClass w (getOpcode raw) with
  | .rtype => (m && checkFunct7Bit0 raw) = false → SumFits aluop x y
  | .imm => ImmSumFits raw x imm
  | .rtypew => (m && checkFunct7Bit0 raw) = false →
      SumFits aluop (x.setWidth 32) (y.setWidth 32)
  | .immw => ImmSumFits raw (x.setWidth 32) (imm.setWidth 32)
  | _ => True

/-- The opcode switch is defined exactly where every signed sum that it carries out on
guest registers fits its type. -/
theorem execSwitchEval_defined (hw : w = 32 ∨ w = 64) (m : Bool) (s : Machine w)
    (raw : Word) : (execSwitchEval m s raw).Defined ↔ SumsFit m s.cpu raw := by
  rw [execSwitchEval, SumsFit]
  cases opClass w (getOpcode raw)
  case rtype =>
    rw [execRegisterEval_defined, rtypeValueEval_defined hw]
  case imm =>
    rw [execImmediateEval_defined, immValueEval_defined hw]
  case rtypew =>
    rw [execRegisterEval_defined, rtypewValueEval_defined hw]
  case immw =>
    rw [execImmediateEval_defined, immwValueEval_defined hw]
  case load => exact iff_of_true (execLoadEval_defined s raw) trivial
  case store => exact iff_of_true (execStoreEval_defined s raw hw) trivial
  case branch => exact iff_of_true (execBranchEval_defined s raw) trivial
  case auipc => exact iff_of_true (execUpperEval_defined s raw _) trivial
  case lui => exact iff_of_true (execUpperEval_defined s raw _) trivial
  case jal => exact iff_of_true (execJalEval_defined s raw) trivial
  case jalr => exact iff_of_true (execJalrEval_defined s raw) trivial
  case sys => exact iff_of_true (execSysEval_defined s raw) trivial
  case fence => exact iff_of_true (Fallible.defined_pure _) trivial
  case unrecognized => exact iff_of_true (Fallible.defined_pure _) trivial

/-- A call is free of undefined arithmetic exactly when its register sums fit, for every
word and state of every build. -/
theorem call_defined (b : Build) (s : Machine b.xlen) (raw : Word) :
    (processInstrEval b.mExt s raw).Defined ↔ SumsFit b.mExt s.cpu raw := by
  rw [processInstrEval, Fallible.defined_bind, execSwitchEval_defined b.xlen_eq]
  apply and_iff_left
  intro e _
  exact Fallible.defined_liftOption _

/-- `add x3, x1, x2` overflows on the largest number and one. -/
theorem add_overflows : ¬ ∀ (s : Machine 32) (raw : Word), Encodes raw.toNat 32 true →
    (processInstrEval true s raw).Defined := by
  intro hdefined
  let s := initMachine 32 fun _ => 0
  let regfile : Fin 32 → BitVec 32 :=
    fun r => if r = 1 then 0x7FFFFFFF else if r = 2 then 1 else 0
  have hcall :=
    hdefined { s with cpu := { s.cpu with regfile } } 0x002081B3#32 (by decide)
  have hfits := (call_defined ⟨32, .inl rfl, true⟩ _ _).mp hcall
  have hsum := (hfits rfl).1 rfl
  exact absurd hsum (by decide)

end Rvem.Definedness
