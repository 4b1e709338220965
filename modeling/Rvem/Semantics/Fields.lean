import Rvem.Model.State

/-!
# Instruction fields as numbers

Every masked-and-shifted field of an instruction word is a quotient and remainder of the
word by powers of two.  The accesses to the register file by such a field are in bounds,
so a read gives the register that the field names and a write changes this register
only.
-/

namespace Rvem.Fields

open Rvem.Arch
open Rvem.State
open Rvem.Library

variable {w : ℕ}

/-- A field of `len` bits at position `k`. -/
theorem toNat_field (instr : Word) {mask : Word} {k : ℕ} (len : ℕ)
    (hmask : mask.toNat = (2 ^ len - 1) <<< k) :
    ((instr &&& mask) >>> k).toNat = instr.toNat / 2 ^ k % 2 ^ len := by
  rw [BitVec.toNat_ushiftRight, BitVec.toNat_and, hmask,
    Nat.shiftRight_and_distrib, Nat.shiftLeft_shiftRight,
    Nat.and_two_pow_sub_one_eq_mod, Nat.shiftRight_eq_div_pow]

theorem toNat_field8 (instr : Word) {mask : Word} {k : ℕ} (len : ℕ)
    (hmask : mask.toNat = (2 ^ len - 1) <<< k) (hlen : len ≤ 8) :
    (((instr &&& mask) >>> k).setWidth 8).toNat =
      instr.toNat / 2 ^ k % 2 ^ len := by
  have hsmall : instr.toNat / 2 ^ k % 2 ^ len < 2 ^ 8 :=
    lt_of_lt_of_le (Nat.mod_lt _ (by positivity))
      (Nat.pow_le_pow_right (by norm_num) hlen)
  rw [BitVec.toNat_setWidth, toNat_field instr len hmask, Nat.mod_eq_of_lt hsmall]

theorem toNat_getOpcode (instr : Word) :
    (getOpcode instr).toNat = instr.toNat % 128 := by
  rw [getOpcode, BitVec.toNat_and, BitVec.toNat_setWidth,
    show (0x7F#8).toNat = 2 ^ 7 - 1 by rfl, Nat.and_two_pow_sub_one_eq_mod]
  omega

theorem toNat_getRs1 (instr : Word) :
    (getRs1 instr).toNat = instr.toNat / 2 ^ 15 % 32 :=
  toNat_field8 instr 5 rfl (by norm_num)

theorem toNat_getRs2 (instr : Word) :
    (getRs2 instr).toNat = instr.toNat / 2 ^ 20 % 32 :=
  toNat_field8 instr 5 rfl (by norm_num)

theorem toNat_getRd (instr : Word) :
    (getRd instr).toNat = instr.toNat / 2 ^ 7 % 32 :=
  toNat_field8 instr 5 rfl (by norm_num)

theorem toNat_getFunct3 (instr : Word) :
    (getFunct3 instr).toNat = instr.toNat / 2 ^ 12 % 8 :=
  toNat_field8 instr 3 rfl (by norm_num)

theorem toNat_imm12 (instr : Word) :
    ((instr &&& 0xFFF00000#32) >>> 20).toNat = instr.toNat / 2 ^ 20 := by
  have hinstr := instr.isLt
  rw [toNat_field instr 12 rfl]
  omega

/-! ## The opcode of a case -/

/-- The opcode of each case of the switch; the default case has none. -/
def opcodeOf : OpClass → Option Byte
  | .rtype => some 0x33
  | .imm => some 0x13
  | .rtypew => some 0x3B
  | .immw => some 0x1B
  | .load => some 0x03
  | .store => some 0x23
  | .branch => some 0x63
  | .fence => some 0x0F
  | .auipc => some 0x17
  | .lui => some 0x37
  | .jal => some 0x6F
  | .jalr => some 0x67
  | .sys => some 0x73
  | .unrecognized => none

/-- The case is the one its guard selects, or one further down. -/
theorem opcode_of_ite {cond : Prop} [Decidable cond] {first rest : OpClass}
    {opcode code : Byte} (hfirst : cond → opcodeOf first = some opcode)
    (hrest : opcodeOf rest = some code → opcode = code)
    (hcode : opcodeOf (if cond then first else rest) = some code) :
    opcode = code := by
  by_cases hcond : cond
  · rw [if_pos hcond, hfirst hcond] at hcode
    exact Option.some.inj hcode
  · rw [if_neg hcond] at hcode
    exact hrest hcode

/-- Every case of the opcode switch but the default has one opcode. -/
theorem opcode_of_opClass {opcode code : Byte} {cls : OpClass}
    (hclass : opClass w opcode = cls) (hcode : opcodeOf cls = some code) :
    opcode = code := by
  rw [← hclass] at hcode
  revert hcode
  unfold opClass
  refine opcode_of_ite (fun h => h ▸ rfl) ?_
  refine opcode_of_ite (fun h => h ▸ rfl) ?_
  refine opcode_of_ite (fun h => h.2 ▸ rfl) ?_
  refine opcode_of_ite (fun h => h.2 ▸ rfl) ?_
  iterate 9 refine opcode_of_ite (fun h => h ▸ rfl) ?_
  intro hnone
  cases hnone

/-! ## Register indices -/

def rs1 (instr : Word) : Fin 32 := ⟨instr.toNat / 2 ^ 15 % 32, Nat.mod_lt _ (by norm_num)⟩
def rs2 (instr : Word) : Fin 32 := ⟨instr.toNat / 2 ^ 20 % 32, Nat.mod_lt _ (by norm_num)⟩
def rd (instr : Word) : Fin 32 := ⟨instr.toNat / 2 ^ 7 % 32, Nat.mod_lt _ (by norm_num)⟩

/-- A register number below 32 indexes the register file. -/
theorem readReg_of_toNat_eq (s : Machine w) {reg : Byte} {index : Fin 32}
    (hreg : reg.toNat = index) : readReg s reg = some (s.cpu.regfile index) := by
  rw [readReg, hreg, CArray.index_eq_some _ index.isLt]

theorem readReg_rs1 (s : Machine w) (instr : Word) :
    readReg s (getRs1 instr) = some (s.cpu.regfile (rs1 instr)) :=
  readReg_of_toNat_eq s (toNat_getRs1 instr)

theorem readReg_rs2 (s : Machine w) (instr : Word) :
    readReg s (getRs2 instr) = some (s.cpu.regfile (rs2 instr)) :=
  readReg_of_toNat_eq s (toNat_getRs2 instr)

theorem readReg_rd (s : Machine w) (instr : Word) :
    readReg s (getRd instr) = some (s.cpu.regfile (rd instr)) :=
  readReg_of_toNat_eq s (toNat_getRd instr)

theorem writeReg_of_toNat_eq (s : Machine w) {reg : Byte} {index : Fin 32}
    (hreg : reg.toNat = index) (value : BitVec w) :
    writeReg s reg value = some { s with
      cpu := { s.cpu with
        regfile := Function.update s.cpu.regfile index value } } := by
  rw [writeReg, hreg, CArray.store_eq_some _ _ index.isLt]
  rfl

theorem writeReg_rd (s : Machine w) (instr : Word) (value : BitVec w) :
    writeReg s (getRd instr) value = some { s with
      cpu := { s.cpu with
        regfile := Function.update s.cpu.regfile (rd instr) value } } :=
  writeReg_of_toNat_eq s (toNat_getRd instr) value

/-- The register number of `rd` is zero exactly when its index is. -/
theorem getRd_eq_zero_iff (instr : Word) : getRd instr = 0 ↔ rd instr = 0 := by
  rw [BitVec.toNat_eq, toNat_getRd, Fin.ext_iff]
  rfl

end Rvem.Fields
