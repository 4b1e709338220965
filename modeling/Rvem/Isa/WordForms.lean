import Rvem.Isa.Decoding
import Rvem.Model.Main
import Rvem.Semantics.StepEffect

/-!
# The W forms of RV64

`OP_RTYPEW` and `OP_IMMW` repeat the switches of `OP_RTYPE` and `OP_IMM` with casts of
their own.  On every word that encodes a W form they write the sign extension of what
the RV32 build writes for the word without the W bit on the low halves.
-/

namespace Rvem.WordForms

open Rvem.Arch
open Rvem.Mul
open Rvem.State
open Rvem.Core
open Rvem.Main
open Rvem.Assembly
open Rvem.Fields
open Rvem.StepEffect
open Rvem.Values
open Rvem.Decoding
open Rvem.Encodings
open Rvem.Reference (RegOp ImmOp)

/-! ## Operations on low halves -/

/-- The shift amount of a W form. -/
theorem toNat_wordShiftAmount (y : BitVec 64) :
    (y &&& shiftMaxWord.setWidth 64).toNat = (y.setWidth 32 &&& shiftMax 32).toNat := by
  have hmask : (shiftMaxWord.setWidth 64).toNat = 2 ^ 5 - 1 := by decide
  rw [toNat_shiftAmount (.inl rfl), BitVec.toNat_and, hmask,
    Nat.and_two_pow_sub_one_eq_mod, BitVec.toNat_setWidth]
  omega

/-- The sign-extended operation on the low halves. -/
def wordValue (op : RegOp) (x y : BitVec 64) : BitVec 64 :=
  (opValue op (x.setWidth 32) (y.setWidth 32)).signExtend 64

/-- A word with the codes of a W form selects its case in `OP_RTYPEW`. -/
theorem rtypewValue_eq {m : Bool} {raw : Word} {op : RegOp} (hop : op ∈ wordRegOps m)
    (hfunct7 : op.funct7 = Reference.funct7 raw.toNat)
    (hfunct3 : op.funct3 = Reference.funct3 raw.toNat) (x y : BitVec 64) :
    rtypewValue m raw x y = some (wordValue op x y) := by
  have hcode := getFunct3_of_eq hfunct3
  have haluop := aluop_eq raw
  rw [← hfunct7, ← hfunct3] at haluop
  rw [rtypewValue, checkFunct7Bit0_eq, ← hfunct7, hcode, ← hcode, haluop, hcode,
    aluwValue, toNat_wordShiftAmount]
  cases m <;> cases op <;> first | rfl | exact absurd hop (by decide)

/-- A word with the codes of a W form selects its case in `OP_IMMW`. -/
theorem immwValue_eq {raw : Word} {op : ImmOp} (hop : op ∈ wordImmOps)
    (hcode : ∀ code ∈ op.funct7, code * 2 ^ 5 / 2 ^ 5 =
      Reference.bits raw.toNat 31 (20 + 5))
    (hfunct3 : op.funct3 = Reference.funct3 raw.toNat) (x imm : BitVec 64) :
    immwValue raw x imm = some (wordValue op.regOp x imm) := by
  have hfunct3' := getFunct3_of_eq hfunct3
  rw [immwValue, hfunct3', checkFunct7Bit5_eq, toNat_wordShiftAmount]
  cases op
  case srli =>
    rw [funct7_bit5 (.inl rfl) hcode rfl]
    rfl
  case srai =>
    rw [funct7_bit5 (.inl rfl) hcode rfl]
    rfl
  all_goals first | rfl | exact absurd hop (by decide)

/-! ## The word without the W bit -/

/-- `OP-32` becomes `OP` and `OP-IMM-32` becomes `OP-IMM`. -/
def withoutW (raw : Word) : Word := raw &&& ~~~8#32

/-- Everything above the opcode is kept. -/
theorem withoutW_div (raw : Word) : (withoutW raw).toNat / 2 ^ 4 = raw.toNat / 2 ^ 4 := by
  have hshift : withoutW raw >>> 4 = raw >>> 4 := by
    rw [withoutW, BitVec.ushiftRight_and_distrib,
      show (~~~8#32) >>> 4 = BitVec.allOnes 32 >>> 4 by decide,
      ← BitVec.ushiftRight_and_distrib, BitVec.and_allOnes]
  have htoNat := congrArg BitVec.toNat hshift
  rwa [BitVec.toNat_ushiftRight, BitVec.toNat_ushiftRight, Nat.shiftRight_eq_div_pow,
    Nat.shiftRight_eq_div_pow] at htoNat

theorem withoutW_field (raw : Word) {k : ℕ} (hk : 4 ≤ k) :
    (withoutW raw).toNat / 2 ^ k = raw.toNat / 2 ^ k := by
  obtain ⟨rest, rfl⟩ := Nat.exists_eq_add_of_le hk
  rw [pow_add, ← Nat.div_div_eq_div_mul, withoutW_div, Nat.div_div_eq_div_mul]

/-- Dropping the W of an opcode keeps every field above it. -/
theorem bits_withoutW (raw : Word) (high : ℕ) {low : ℕ} (hlow : 4 ≤ low) :
    Reference.bits (withoutW raw).toNat high low = Reference.bits raw.toNat high low := by
  rw [Reference.bits, withoutW_field raw hlow, Reference.bits]

theorem opcode_withoutW (raw : Word) :
    getOpcode (withoutW raw) = getOpcode raw &&& ~~~8#8 := by
  rw [getOpcode, getOpcode, withoutW, BitVec.setWidth_and, BitVec.and_assoc,
    BitVec.and_assoc, BitVec.and_comm (0x7F#8)]
  rfl

theorem rd_withoutW (raw : Word) : rd (withoutW raw) = rd raw :=
  Fin.ext (congrArg (· % 32) (withoutW_field raw (by norm_num)))

theorem rs1_withoutW (raw : Word) : rs1 (withoutW raw) = rs1 raw :=
  Fin.ext (congrArg (· % 32) (withoutW_field raw (by norm_num)))

theorem rs2_withoutW (raw : Word) : rs2 (withoutW raw) = rs2 raw :=
  Fin.ext (congrArg (· % 32) (withoutW_field raw (by norm_num)))

/-- The immediate of a W form, cut to a word. -/
theorem getSimm12_withoutW (raw : Word) :
    getSimm12 32 (withoutW raw) = (getSimm12 64 raw).setWidth 32 := by
  have hmask : withoutW raw &&& 0xFFF00000#32 = raw &&& 0xFFF00000#32 := by
    rw [withoutW, BitVec.and_assoc]
    rfl
  rw [getSimm12, getSimm12, hmask, setWidth_signExtend_word (.inr rfl),
    BitVec.signExtend_eq]

/-! ## The two builds -/

/-- The value each build writes. -/
theorem effect_value_withoutW (s : Machine 64) (t : Machine 32) {raw : Word}
    (hraw : EncodesWord raw.toNat true)
    (hregs : ∀ r, t.cpu.regfile r = (s.cpu.regfile r).setWidth 32) :
    ∃ value, (effect true t (withoutW raw)).value = some value ∧
      (effect true s raw).value = some (value.signExtend 64) := by
  have hfunct7 : Reference.funct7 (withoutW raw).toNat = Reference.funct7 raw.toNat :=
    bits_withoutW raw 31 (by norm_num)
  have hfunct3 : Reference.funct3 (withoutW raw).toNat = Reference.funct3 raw.toNat :=
    bits_withoutW raw 14 (by norm_num)
  rcases hraw with ⟨hopcode, op, hop, hcode7, hcode3⟩ | ⟨hopcode, op, hop, hcode3, hcode7⟩
  · have hclass : opClass 64 (getOpcode raw) = .rtypew := by
      rw [getOpcode_of_eq hopcode]
      rfl
    have hclass' : opClass 32 (getOpcode (withoutW raw)) = .rtype := by
      rw [opcode_withoutW, getOpcode_of_eq hopcode]
      rfl
    have hreg : op ∈ regOps true := by
      cases op <;> decide
    refine ⟨opValue op ((s.cpu.regfile (rs1 raw)).setWidth 32)
      ((s.cpu.regfile (rs2 raw)).setWidth 32), ?_, ?_⟩
    · simp only [effect, hclass', rs1_withoutW, rs2_withoutW, hregs]
      exact rtypeValue_eq hreg (hcode7.trans hfunct7.symm) (hcode3.trans hfunct3.symm) _ _
    · simp only [effect, hclass]
      exact rtypewValue_eq hop hcode7 hcode3 _ _
  · have hclass : opClass 64 (getOpcode raw) = .immw := by
      rw [getOpcode_of_eq hopcode]
      rfl
    have hclass' : opClass 32 (getOpcode (withoutW raw)) = .imm := by
      rw [opcode_withoutW, getOpcode_of_eq hopcode]
      rfl
    refine ⟨opValue op.regOp ((s.cpu.regfile (rs1 raw)).setWidth 32)
      ((getSimm12 64 raw).setWidth 32), ?_, ?_⟩
    · simp only [effect, hclass', rs1_withoutW, getSimm12_withoutW, hregs]
      refine immValue_eq (.inl rfl) (hcode3.trans hfunct3.symm) ?_ _ _
      rwa [bits_withoutW raw 31 (by norm_num)]
    · simp only [effect, hclass]
      exact immwValue_eq hop hcode7 hcode3 _ _

/-- The destination holds the value of the call, unless it is `x0`. -/
theorem apply_regfile_rd (e : Effect w) (s : Machine w) {raw : Word} {value : BitVec w}
    (hrd : rd raw ≠ 0) (hvalue : e.value = some value) :
    (e.apply s raw).cpu.regfile (rd raw) = value := by
  simp only [Effect.apply, regfileAfter, if_neg hrd, if_pos, hvalue, Option.getD_some]

/-- The W forms on 64-bit registers against the words without the W bit on their low
halves. -/
theorem word_datapath (s : Machine 64) (t : Machine 32) {raw : Word}
    (hraw : EncodesWord raw.toNat true) (hrd : rd raw ≠ 0)
    (hregs : ∀ r, t.cpu.regfile r = (s.cpu.regfile r).setWidth 32) :
    ∃ s' t' execContinue execContinue',
      processInstr true s raw = some (s', execContinue) ∧
      processInstr true t (withoutW raw) = some (t', execContinue') ∧
      s'.cpu.regfile (rd raw) = (t'.cpu.regfile (rd raw)).signExtend 64 := by
  obtain ⟨value, hnarrow, hwide⟩ := effect_value_withoutW s t hraw hregs
  refine ⟨_, _, _, _, processInstr_eq (.inr rfl) true s raw,
    processInstr_eq (.inl rfl) true t (withoutW raw), ?_⟩
  have hrd' : rd (withoutW raw) ≠ 0 := by rwa [rd_withoutW]
  have hnarrowRd := apply_regfile_rd _ t hrd' hnarrow
  rw [rd_withoutW] at hnarrowRd
  rw [apply_regfile_rd _ s hrd hwide, hnarrowRd]

/-- A 64-bit machine with something in the upper half of every register but `x0`:
the low halves of `x5` and `x6` are -7 and 4. -/
def wideMachine : Machine 64 :=
  let s := initMachine 64 fun _ => 0
  { s with
    cpu :=
      { s.cpu with
        regfile := fun r =>
          if r = 0 then 0
          else if r = 5 then 0x01234567FFFFFFF9
          else if r = 6 then 0xFEDCBA9800000004
          else 0x5A5A5A5A5A5A5A5A } }

/-- The low halves of the registers of `wideMachine`. -/
def narrowMachine : Machine 32 :=
  let s := initMachine 32 fun _ => 0
  { s with cpu :=
    { s.cpu with regfile := fun r => (wideMachine.cpu.regfile r).setWidth 32 } }

/-- `remw x7, x5, x6`: the remainder -3 of the low halves, sign extended. -/
theorem word_datapath_remw : ∃ s' t' execContinue execContinue',
    processInstr true wideMachine 0x0262E3BB#32 = some (s', execContinue) ∧
    processInstr true narrowMachine (withoutW 0x0262E3BB#32) = some (t', execContinue') ∧
    s'.cpu.regfile (rd 0x0262E3BB#32) =
      (t'.cpu.regfile (rd 0x0262E3BB#32)).signExtend 64 ∧
    s'.cpu.regfile 7 = 0xFFFFFFFFFFFFFFFD := by
  obtain ⟨s', t', execContinue, execContinue', hwide, hnarrow, hvalue⟩ :=
    @word_datapath wideMachine narrowMachine 0x0262E3BB#32 (by decide) (by decide)
      fun _ => rfl
  refine ⟨s', t', execContinue, execContinue', hwide, hnarrow, hvalue, ?_⟩
  rw [processInstr_eq (.inr rfl), Option.some.injEq, Prod.mk.injEq] at hwide
  rw [← hwide.1]
  decide +kernel

end Rvem.WordForms
