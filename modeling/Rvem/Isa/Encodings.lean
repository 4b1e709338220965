import Rvem.Isa.Reference
import Rvem.Model.Arch

/-!
# Encodings of the four builds

The words the manual defines for RV32 and RV64, with and without the M extension, except
SYSTEM and FENCE. RV64 adds the W forms, three loads and stores, and a sixth bit to the
shift amounts.  The tables are those of the reference machine with the entries of a
build added, so that a build is compared with one list of operations.
-/

namespace Rvem.Encodings

open Rvem.Arch
open Rvem.Reference (RegOp ImmOp LoadOp StoreOp BranchOp)

/-- The operations of `OP`; those of M have the function code 1. -/
def regOps (m : Bool) : List RegOp :=
  RegOp.all.filter fun op => m || op.funct7 != 0b0000001

/-- The operations of `OP-32`. -/
def wordRegOps (m : Bool) : List RegOp :=
  [.add, .sub, .sll, .srl, .sra, .mul, .div, .divu, .rem, .remu].filter fun op =>
    m || op.funct7 != 0b0000001

/-- The operations of `OP-IMM-32`. -/
def wordImmOps : List ImmOp :=
  [.addi, .slli, .srli, .srai]

def loadCodes (w : ℕ) : List ℕ :=
  LoadOp.all.map LoadOp.funct3 ++ if w = 64 then [0b011, 0b110] else []

def storeCodes (w : ℕ) : List ℕ :=
  StoreOp.all.map StoreOp.funct3 ++ if w = 64 then [0b011] else []

def branchCodes : List ℕ :=
  BranchOp.all.map BranchOp.funct3

section Codes

variable (word : ℕ)

/-- The word has the function codes of one of the register operations `ops`. -/
def EncodesReg (ops : List RegOp) : Prop :=
  ∃ op ∈ ops, op.funct7 = Reference.funct7 word ∧ op.funct3 = Reference.funct3 word

/-- The function code of a shift lies above the `shamt` bits of its amount. -/
def EncodesImm (ops : List ImmOp) (shamt : ℕ) : Prop :=
  ∃ op ∈ ops, op.funct3 = Reference.funct3 word ∧
    ∀ code ∈ op.funct7, code * 2 ^ 5 / 2 ^ shamt = Reference.bits word 31 (20 + shamt)

instance (ops : List RegOp) : Decidable (EncodesReg word ops) :=
  inferInstanceAs (Decidable (∃ op ∈ ops, _ ∧ _))

instance (ops : List ImmOp) (shamt : ℕ) : Decidable (EncodesImm word ops shamt) :=
  inferInstanceAs (Decidable (∃ op ∈ ops, _ ∧ _))

/-- The W forms of RV64. -/
def EncodesWord (m : Bool) : Prop :=
  Reference.opcode word = 0b0111011 ∧ EncodesReg word (wordRegOps m) ∨
    Reference.opcode word = 0b0011011 ∧ EncodesImm word wordImmOps 5

instance (m : Bool) : Decidable (EncodesWord word m) :=
  inferInstanceAs (Decidable (_ ∨ _))

/-- The words with an opcode other than SYSTEM and FENCE that a build defines. -/
def Encodes (w : ℕ) (m : Bool) : Prop :=
  Reference.opcode word = 0b0110011 ∧ EncodesReg word (regOps m) ∨
    Reference.opcode word = 0b0010011 ∧
      EncodesImm word ImmOp.all (if w = 64 then 6 else 5) ∨
    w = 64 ∧ EncodesWord word m ∨
    Reference.opcode word = 0b0000011 ∧ Reference.funct3 word ∈ loadCodes w ∨
    Reference.opcode word = 0b0100011 ∧ Reference.funct3 word ∈ storeCodes w ∨
    Reference.opcode word = 0b1100011 ∧ Reference.funct3 word ∈ branchCodes ∨
    Reference.opcode word = 0b1100111 ∧ Reference.funct3 word = 0 ∨
    Reference.opcode word ∈ [0b0110111, 0b0010111, 0b1101111]

instance (w : ℕ) (m : Bool) : Decidable (Encodes word w m) :=
  inferInstanceAs (Decidable (_ ∨ _))

end Codes

/-! ## RV32IM -/

theorem regOps_true : regOps true = RegOp.all := rfl

/-- On RV32IM these are the words the reference machine decodes. -/
theorem encodes_iff_decode {word : ℕ} (hfence : Reference.opcode word ≠ 0b0001111) :
    Encodes word 32 true ↔ (Reference.decode word).isSome := by
  by_cases hreg : Reference.opcode word = 0b0110011
  · simp [Encodes, Reference.decode, hreg, EncodesReg, regOps_true]
  by_cases himm : Reference.opcode word = 0b0010011
  · simp [Encodes, Reference.decode, himm, EncodesImm, Reference.funct7]
  by_cases hload : Reference.opcode word = 0b0000011
  · simp [Encodes, Reference.decode, hload, loadCodes]
  by_cases hstore : Reference.opcode word = 0b0100011
  · simp [Encodes, Reference.decode, hstore, storeCodes]
  by_cases hbranch : Reference.opcode word = 0b1100011
  · simp [Encodes, Reference.decode, hbranch, branchCodes]
  by_cases hlui : Reference.opcode word = 0b0110111
  · simp [Encodes, Reference.decode, hlui]
  by_cases hauipc : Reference.opcode word = 0b0010111
  · simp [Encodes, Reference.decode, hauipc]
  by_cases hjal : Reference.opcode word = 0b1101111
  · simp [Encodes, Reference.decode, hjal]
  · simp [Encodes, Reference.decode, hreg, himm, hload, hstore, hbranch, hlui, hauipc,
      hjal, hfence]

end Rvem.Encodings
