import Mathlib

/-!
# Architecture constants and decode macros

The constants of `arch.h`, the shift macros of `common.h` and the decode macros
of `riscv.h`.  `reg_t` and `sreg_t` are both `BitVec w` with `w = XLEN`; which of
the two types an operation is evaluated in is visible in the operation chosen.
The code is built for `w = 32` and `w = 64`, and the parts under `#ifdef RV64`
are guarded by `w = 64`.
-/

namespace Rvem.Arch

abbrev Byte := BitVec 8
abbrev Word := BitVec 32

/-- The four builds: `RV64` selects the register width, `RV32M`/`RV64M` the M
extension. -/
structure Build where
  xlen : ℕ
  xlen_eq : xlen = 32 ∨ xlen = 64
  mExt : Bool

def maxCycles : ℕ := 1000000000

def romStart : ℕ := 0x0
def ramStart : ℕ := 0x20000000
def romSize : ℕ := 512 * 1024
def ramSize : ℕ := 64 * 1024

def signBit (w : ℕ) : BitVec w :=
  if w = 64 then 0x8000000000000000 else 0x80000000

def shiftMax (w : ℕ) : BitVec w :=
  if w = 64 then 0x3F else 0x1F

def shiftMaxWord : Word := 0x1F

/-! ## Portable arithmetic shifts -/

def sraw (val : Word) (sh : ℕ) : Word :=
  if sh = 0 then val
  else (val >>> sh) |||
    (if val &&& 0x80000000#32 ≠ 0 then (~~~0#32) <<< (32 - sh) else 0)

def sra {w : ℕ} (val : BitVec w) (sh : ℕ) : BitVec w :=
  if sh = 0 then val
  else (val >>> sh) |||
    (if val &&& signBit w ≠ 0 then (~~~0#w) <<< (w - sh) else 0)

/-! ## Field extraction -/

def getOpcode (instr : Word) : Byte := instr.setWidth 8 &&& 0x7F#8
def getRs1 (instr : Word) : Byte := ((instr &&& 0xF8000#32) >>> 15).setWidth 8
def getRs2 (instr : Word) : Byte := ((instr &&& 0x1F00000#32) >>> 20).setWidth 8
def getRd (instr : Word) : Byte := ((instr &&& 0xF80#32) >>> 7).setWidth 8
def getFunct3 (instr : Word) : Byte := ((instr &&& 0x7000#32) >>> 12).setWidth 8

def checkFunct7Bit0 (instr : Word) : Bool := instr &&& 0x2000000#32 != 0
def checkFunct7Bit5 (instr : Word) : Bool := instr &&& 0x40000000#32 != 0

def aluFunct7Bit5 (instr : Word) : Byte :=
  ((instr &&& 0x40000000#32) >>> 27).setWidth 8

def getImm12 (w : ℕ) (instr : Word) : BitVec w :=
  ((instr &&& 0xFFF00000#32) >>> 20).setWidth w

def getSimm12 (w : ℕ) (instr : Word) : BitVec w :=
  (sraw (instr &&& 0xFFF00000#32) 20).signExtend w

def getSimm20 (w : ℕ) (instr : Word) : BitVec w :=
  (instr &&& 0xFFFFF000#32).signExtend w

def getBranchImm (w : ℕ) (instr : Word) : BitVec w :=
  (sraw ((instr &&& 0x80000000#32)
    ||| ((instr &&& 0x80#32) <<< 23)
    ||| ((instr &&& 0x7E000000#32) >>> 1)
    ||| ((instr &&& 0xF00#32) <<< 12)) 19).signExtend w

def getJalImm (w : ℕ) (instr : Word) : BitVec w :=
  (sraw ((instr &&& 0x80000000#32)
    ||| ((instr &&& 0xFF000#32) <<< 11)
    ||| ((instr &&& 0x100000#32) <<< 2)
    ||| ((instr &&& 0x7FE00000#32) >>> 9)) 11).signExtend w

def getStoreImm (w : ℕ) (instr : Word) : BitVec w :=
  (sraw ((instr &&& 0xFE000000#32) ||| ((instr &&& 0xF80#32) <<< 13)) 20).signExtend w

/-! ## Opcodes -/

/-- The cases of the `switch` on the opcode in `process_instr`. -/
inductive OpClass
  | rtype | imm | rtypew | immw | load | store | branch | fence
  | auipc | lui | jal | jalr | sys | unrecognized
  deriving DecidableEq, Repr

/-- The opcode constants; `OP_RTYPEW` and `OP_IMMW` exist in the RV64 build only. -/
def opClass (w : ℕ) (opcode : Byte) : OpClass :=
  if opcode = 0x33 then .rtype
  else if opcode = 0x13 then .imm
  else if w = 64 ∧ opcode = 0x3B then .rtypew
  else if w = 64 ∧ opcode = 0x1B then .immw
  else if opcode = 0x03 then .load
  else if opcode = 0x23 then .store
  else if opcode = 0x63 then .branch
  else if opcode = 0x0F then .fence
  else if opcode = 0x17 then .auipc
  else if opcode = 0x37 then .lui
  else if opcode = 0x6F then .jal
  else if opcode = 0x67 then .jalr
  else if opcode = 0x73 then .sys
  else .unrecognized

/-! ## Function codes -/

@[simp] def aluAdd : Byte := 0x0
@[simp] def aluSub : Byte := 0x8
@[simp] def aluSll : Byte := 0x1
@[simp] def aluSlt : Byte := 0x2
@[simp] def aluSltu : Byte := 0x3
@[simp] def aluXor : Byte := 0x4
@[simp] def aluSrl : Byte := 0x5
@[simp] def aluSra : Byte := 0xD
@[simp] def aluOr : Byte := 0x6
@[simp] def aluAnd : Byte := 0x7

@[simp] def mMul : Byte := 0x0
@[simp] def mMulh : Byte := 0x1
@[simp] def mMulhsu : Byte := 0x2
@[simp] def mMulhu : Byte := 0x3
@[simp] def mDiv : Byte := 0x4
@[simp] def mDivu : Byte := 0x5
@[simp] def mRem : Byte := 0x6
@[simp] def mRemu : Byte := 0x7

@[simp] def memB : Byte := 0x0
@[simp] def memH : Byte := 0x1
@[simp] def memW : Byte := 0x2
@[simp] def memD : Byte := 0x3
@[simp] def memBU : Byte := 0x4
@[simp] def memHU : Byte := 0x5
@[simp] def memWU : Byte := 0x6

@[simp] def branchEq : Byte := 0x0
@[simp] def branchNe : Byte := 0x1
@[simp] def branchLt : Byte := 0x4
@[simp] def branchGe : Byte := 0x5
@[simp] def branchLtu : Byte := 0x6
@[simp] def branchGeu : Byte := 0x7

@[simp] def esys : Byte := 0x0
@[simp] def csrRw : Byte := 0x1
@[simp] def csrRs : Byte := 0x2
@[simp] def csrRc : Byte := 0x3
@[simp] def csrRwi : Byte := 0x5
@[simp] def csrRsi : Byte := 0x6
@[simp] def csrRci : Byte := 0x7

def ebreak {w : ℕ} (uimm : BitVec w) : Bool := uimm = 1
def csrImm (op : Byte) : Bool := op &&& 0x4 ≠ 0

@[simp] def a0 : Byte := 10
@[simp] def a1 : Byte := 11
def eExit (w : ℕ) : BitVec w := 10
def eChar (w : ℕ) : BitVec w := 11

end Rvem.Arch
