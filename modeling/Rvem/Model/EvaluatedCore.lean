import Rvem.Model.Core
import Rvem.Model.Evaluated

/-!
# `process_instr` as the host evaluates it

The functions of `riscv.h`, `cpu.h`, `bus.h`, `csr.h` and `core.c` with the signed
operations, divisions and shifts they evaluate.  Unsigned sums and differences are
defined in C and are not logged.  What the evaluated functions return is what the
functions return.
-/

namespace Rvem.EvaluatedCore

open Rvem.Arch
open Rvem.State
open Rvem.Bus
open Rvem.Mul
open Rvem.Core
open Rvem.Evaluated
open Rvem.Library
open Rvem.Library.HostArith
open Rvem.Library.HostArith.Logged (log sadd ssub shl shr)

variable {w : ℕ}

/-! ## Field extraction -/

def getRs1Eval (instr : Word) : Logged Byte := do
  return (← shr (instr &&& 0xF8000#32) 15).setWidth 8

def getRs2Eval (instr : Word) : Logged Byte := do
  return (← shr (instr &&& 0x1F00000#32) 20).setWidth 8

def getRdEval (instr : Word) : Logged Byte := do
  return (← shr (instr &&& 0xF80#32) 7).setWidth 8

def getFunct3Eval (instr : Word) : Logged Byte := do
  return (← shr (instr &&& 0x7000#32) 12).setWidth 8

def aluFunct7Bit5Eval (instr : Word) : Logged Byte := do
  return (← shr (instr &&& 0x40000000#32) 27).setWidth 8

def getImm12Eval (w : ℕ) (instr : Word) : Logged (BitVec w) := do
  return (← shr (instr &&& 0xFFF00000#32) 20).setWidth w

/-- The amounts of `SRAW` in the decode macros are `int` constants. -/
def getSimm12Eval (w : ℕ) (instr : Word) : Logged (BitVec w) := do
  return (← srawEval (.signed 32) (instr &&& 0xFFF00000#32) 20).signExtend w

def getBranchImmEval (w : ℕ) (instr : Word) : Logged (BitVec w) := do
  let bit11 ← shl (instr &&& 0x80#32) 23
  let bits10To5 ← shr (instr &&& 0x7E000000#32) 1
  let bits4To1 ← shl (instr &&& 0xF00#32) 12
  let packed := (instr &&& 0x80000000#32) ||| bit11 ||| bits10To5 ||| bits4To1
  return (← srawEval (.signed 32) packed 19).signExtend w

def getJalImmEval (w : ℕ) (instr : Word) : Logged (BitVec w) := do
  let bits19To12 ← shl (instr &&& 0xFF000#32) 11
  let bit11 ← shl (instr &&& 0x100000#32) 2
  let bits10To1 ← shr (instr &&& 0x7FE00000#32) 9
  let packed := (instr &&& 0x80000000#32) ||| bits19To12 ||| bit11 ||| bits10To1
  return (← srawEval (.signed 32) packed 11).signExtend w

def getStoreImmEval (w : ℕ) (instr : Word) : Logged (BitVec w) := do
  let low ← shl (instr &&& 0xF80#32) 13
  return (← srawEval (.signed 32) ((instr &&& 0xFE000000#32) ||| low) 20).signExtend w

/-! ## Values computed by the inner switches -/

def mulValueEval (funct3 : Byte) (x y : BitVec w) : Logged (Option (BitVec w)) :=
  if funct3 = mMul then some <$> rvMulEval x y
  else if funct3 = mMulh then some <$> rvMulhEval x y
  else if funct3 = mMulhsu then some <$> rvMulhsuEval x y
  else if funct3 = mMulhu then some <$> rvMulhuEval x y
  else if funct3 = mDiv then some <$> rvDivEval x y
  else if funct3 = mDivu then some <$> rvDivuEval x y
  else if funct3 = mRem then some <$> rvRemEval x y
  else if funct3 = mRemu then some <$> rvRemuEval x y
  else pure none

/-- The shift amounts come from a register and are unsigned. -/
def aluValueEval (aluop : Byte) (x y : BitVec w) : Logged (Option (BitVec w)) :=
  if aluop = aluAdd then some <$> sadd x y
  else if aluop = aluSub then some <$> ssub x y
  else if aluop = aluSll then some <$> shl x (y &&& shiftMax w).toNat
  else if aluop = aluSrl then some <$> shr x (y &&& shiftMax w).toNat
  else if aluop = aluSra then some <$> sraEval (.unsigned w) x (y &&& shiftMax w).toNat
  else if aluop = aluSlt then pure (some (if x.slt y then 1 else 0))
  else if aluop = aluSltu then pure (some (if x < y then 1 else 0))
  else if aluop = aluAnd then pure (some (x &&& y))
  else if aluop = aluOr then pure (some (x ||| y))
  else if aluop = aluXor then pure (some (x ^^^ y))
  else pure none

def rtypeValueEval (m : Bool) (raw : Word) (x y : BitVec w) :
    Logged (Option (BitVec w)) := do
  let funct3 ← getFunct3Eval raw
  if m && checkFunct7Bit0 raw then mulValueEval funct3 x y
  else aluValueEval ((← aluFunct7Bit5Eval raw) ||| funct3) x y

/-- The shift amounts come from the immediate and are signed. -/
def immValueEval (raw : Word) (x imm : BitVec w) : Logged (Option (BitVec w)) := do
  let aluop ← getFunct3Eval raw
  if aluop = aluAdd then some <$> sadd x imm
  else if aluop = aluSll then some <$> shl x (imm &&& shiftMax w).toNat
  else if aluop = aluSrl then
    if checkFunct7Bit5 raw then some <$> sraEval (.signed w) x (imm &&& shiftMax w).toNat
    else some <$> shr x (imm &&& shiftMax w).toNat
  else if aluop = aluSlt then pure (some (if x.slt imm then 1 else 0))
  else if aluop = aluSltu then pure (some (if x < imm then 1 else 0))
  else if aluop = aluAnd then pure (some (x &&& imm))
  else if aluop = aluOr then pure (some (x ||| imm))
  else if aluop = aluXor then pure (some (x ^^^ imm))
  else pure none

/-- The conversion of a W form's result to the register. -/
def extend (w : ℕ) (value : Word) : Option (BitVec w) :=
  some (value.signExtend w)

def mulwValueEval (funct3 : Byte) (x y : BitVec w) : Logged (Option (BitVec w)) :=
  let x := x.setWidth 32
  let y := y.setWidth 32
  if funct3 = mMul then extend w <$> rvMulwEval x y
  else if funct3 = mDiv then extend w <$> rvDivwEval x y
  else if funct3 = mDivu then extend w <$> rvDivuwEval x y
  else if funct3 = mRem then extend w <$> rvRemwEval x y
  else if funct3 = mRemu then extend w <$> rvRemuwEval x y
  else pure none

def aluwValueEval (aluop : Byte) (x y : BitVec w) : Logged (Option (BitVec w)) :=
  let sh := (y &&& shiftMaxWord.setWidth w).toNat
  let x := x.setWidth 32
  let y := y.setWidth 32
  if aluop = aluAdd then extend w <$> sadd x y
  else if aluop = aluSub then extend w <$> ssub x y
  else if aluop = aluSll then extend w <$> shl x sh
  else if aluop = aluSrl then extend w <$> shr x sh
  else if aluop = aluSra then extend w <$> srawEval (.unsigned w) x sh
  else pure none

def rtypewValueEval (m : Bool) (raw : Word) (x y : BitVec w) :
    Logged (Option (BitVec w)) := do
  let funct3 ← getFunct3Eval raw
  if m && checkFunct7Bit0 raw then mulwValueEval funct3 x y
  else aluwValueEval ((← aluFunct7Bit5Eval raw) ||| funct3) x y

def immwValueEval (raw : Word) (x imm : BitVec w) : Logged (Option (BitVec w)) := do
  let aluop ← getFunct3Eval raw
  let sh := (imm &&& shiftMaxWord.setWidth w).toNat
  let x := x.setWidth 32
  if aluop = aluAdd then extend w <$> sadd x (imm.setWidth 32)
  else if aluop = aluSll then extend w <$> shl x sh
  else if aluop = aluSrl then
    if checkFunct7Bit5 raw then extend w <$> srawEval (.signed w) x sh
    else extend w <$> shr x sh
  else pure none

/-! ## Memory -/

def perfModelMemoryEval (s : Machine w) (size : ℕ) (addr : BitVec w) :
    Logged (Machine w) := do
  log (.signed 32 (size - 1))
  return perfModelMemory s size addr

def readWordEval (byte : ℕ → Option Byte) : Fallible Word := do
  let b3 ← shl ((← byte 3).setWidth 32) 24
  let b2 ← shl ((← byte 2).setWidth 32) 16
  let b1 ← shl ((← byte 1).setWidth 32) 8
  let b0 ← byte 0
  return b3 ||| b2 ||| b1 ||| b0.setWidth 32

/-- The bytes are `int` where the source does not convert them. -/
def memReadEval (byte : ℕ → Option Byte) (s : Machine w) (addr : BitVec w)
    (op : Byte) (val : BitVec w) : Fallible (Machine w × BitVec w) :=
  if op = memB then do
    return (s, (← byte 0).signExtend w)
  else if op = memBU then do
    return (s, (← byte 0).setWidth w)
  else if op = memH then do
    let s ← perfModelMemoryEval s 2 addr
    let b1 ← shl ((← byte 1).setWidth 32) 8
    let b0 ← byte 0
    let int := b1 ||| b0.setWidth 32
    return (s, (int.setWidth 16).signExtend w)
  else if op = memHU then do
    let s ← perfModelMemoryEval s 2 addr
    let b1 ← shl ((← byte 1).setWidth 32) 8
    let b0 ← byte 0
    let int := b1 ||| b0.setWidth 32
    return (s, int.signExtend w)
  else if op = memW then do
    let s ← perfModelMemoryEval s 4 addr
    let word ← readWordEval byte
    return (s, word.signExtend w)
  else if w = 64 ∧ op = memWU then do
    let s ← perfModelMemoryEval s 4 addr
    let word ← readWordEval byte
    return (s, word.setWidth w)
  else if w = 64 ∧ op = memD then do
    let s ← perfModelMemoryEval s 8 addr
    let b7 ← shl ((← byte 7).setWidth 64) 56
    let b6 ← shl ((← byte 6).setWidth 64) 48
    let b5 ← shl ((← byte 5).setWidth 64) 40
    let b4 ← shl ((← byte 4).setWidth 64) 32
    let b3 ← shl ((← byte 3).setWidth 64) 24
    let b2 ← shl ((← byte 2).setWidth 64) 16
    let b1 ← shl ((← byte 1).setWidth 64) 8
    let b0 ← byte 0
    let dword := b7 ||| b6 ||| b5 ||| b4 ||| b3 ||| b2 ||| b1 ||| b0.setWidth 64
    return (s, dword.signExtend w)
  else return (s, val)

def romReadEval (s : Machine w) (addr : BitVec w) (op : Byte) (val : BitVec w) :
    Fallible (Machine w × BitVec w) :=
  let paddr := addr - BitVec.ofNat w romStart
  memReadEval (fun offset => CArray.index s.cpu.rom (paddr + BitVec.ofNat w offset).toNat)
    s addr op val

def ramReadEval (s : Machine w) (addr : BitVec w) (op : Byte) (val : BitVec w) :
    Fallible (Machine w × BitVec w) :=
  let paddr := addr - BitVec.ofNat w ramStart
  memReadEval (fun offset => CArray.index s.cpu.ram (paddr + BitVec.ofNat w offset).toNat)
    s addr op val

/-- `val`, or `val >> 8 * count` after the first byte. -/
def storePartEval (val : BitVec w) (count : ℕ) : Logged (BitVec w) :=
  if count = 0 then pure val else shr val (8 * count)

def storeBytesEval (ram : Fin ramSize → Byte) (paddr val : BitVec w) :
    ℕ → Fallible (Fin ramSize → Byte)
  | 0 => return ram
  | count + 1 => do
      let ram ← storeBytesEval ram paddr val count
      let part ← storePartEval val count
      CArray.store ram (paddr + BitVec.ofNat w count).toNat (part.setWidth 8)

def ramWriteEval (s : Machine w) (addr : BitVec w) (op : Byte) (val : BitVec w) :
    Fallible (Machine w) :=
  let paddr := addr - BitVec.ofNat w ramStart
  let assign (s : Machine w) (count : ℕ) : Fallible (Machine w) := do
    let ram ← storeBytesEval s.cpu.ram paddr val count
    return { s with cpu := { s.cpu with ram } }
  if op = memB then assign s 1
  else if op = memH then do assign (← perfModelMemoryEval s 2 addr) 2
  else if op = memW then do assign (← perfModelMemoryEval s 4 addr) 4
  else if w = 64 ∧ op = memD then do assign (← perfModelMemoryEval s 8 addr) 8
  else return s

/-- `addr >= RAM_START && addr < (reg_t) (RAM_START + RAM_SIZE - range)`; the sum is
unsigned, `RAM_SIZE` is an `int` product. -/
def ramGuardEval (addr : BitVec w) (range : ℕ) : Logged Bool :=
  if BitVec.ofNat w ramStart ≤ addr then do
    log (.signed 32 (64 * 1024))
    return addr < BitVec.ofNat w (ramStart + ramSize - range)
  else return false

/-- `addr < (reg_t) (ROM_SIZE - range)`; `range` is promoted to `int`. -/
def romGuardEval (addr : BitVec w) (range : ℕ) : Logged Bool := do
  log (.signed 32 (512 * 1024))
  log (.signed 32 (romSize - range))
  return addr < BitVec.ofNat w (romSize - range)

def busReadEval (s : Machine w) (addr : BitVec w) (op : Byte) (val : BitVec w) :
    Fallible (Machine w × BitVec w) := do
  let range := busRange w op
  if ← ramGuardEval addr range then ramReadEval s addr op val
  else if ← romGuardEval addr range then romReadEval s addr op val
  else return (print s (.unmappedRead addr.toNat), val)

def busWriteEval (s : Machine w) (addr : BitVec w) (op : Byte) (val : BitVec w) :
    Fallible (Machine w) := do
  let range := busRange w op
  if ← ramGuardEval addr range then ramWriteEval s addr op val
  else if ← romGuardEval addr range then return print s (.romWrite addr.toNat)
  else return print s (.unmappedWrite addr.toNat)

def readCsrEval (s : Machine w) (csr : Word) : Logged (BitVec w) :=
  if csr = csrMcycle ∨ csr = csrCycle then return s.mcycle.setWidth w
  else if csr = csrMinstret ∨ csr = csrInstret then return s.minstret.setWidth w
  else if w ≠ 64 ∧ (csr = csrMcycleh ∨ csr = csrCycleh) then do
    return (← shr s.mcycle 32).setWidth w
  else if w ≠ 64 ∧ (csr = csrMinstreth ∨ csr = csrInstreth) then do
    return (← shr s.minstret 32).setWidth w
  else return 0

/-! ## Cases of the opcode switch -/

def execRegisterEval (value : BitVec w → BitVec w → Logged (Option (BitVec w)))
    (s : Machine w) (raw : Word) : Fallible (Exec w) := do
  let rs1 ← getRs1Eval raw
  let rs2 ← getRs2Eval raw
  let rd ← getRdEval raw
  let instr := { noInstr with rs1, rs2, rd, isRegWrite := true }
  let s := perfModelHazard s instr
  let x ← readReg s instr.rs1
  let y ← readReg s instr.rs2
  let s ← writeRegIf s instr.rd (← value x y)
  return ⟨s, instr, s.cpu.pc + 4, true⟩

def execImmediateEval (value : BitVec w → BitVec w → Logged (Option (BitVec w)))
    (s : Machine w) (raw : Word) : Fallible (Exec w) := do
  let rs1 ← getRs1Eval raw
  let rd ← getRdEval raw
  let instr := { noInstr with rs1, rd, isRegWrite := true }
  let imm ← getSimm12Eval w raw
  let s := perfModelHazard s instr
  let x ← readReg s instr.rs1
  let s ← writeRegIf s instr.rd (← value x imm)
  return ⟨s, instr, s.cpu.pc + 4, true⟩

def execLoadEval (s : Machine w) (raw : Word) : Fallible (Exec w) := do
  let rs1 ← getRs1Eval raw
  let rd ← getRdEval raw
  let instr := { noInstr with rs1, rd, isRegWrite := true, isMemLoad := true }
  let imm ← getSimm12Eval w raw
  let s := perfModelHazard s instr
  let base ← readReg s instr.rs1
  let old ← readReg s instr.rd
  let (s, val) ← busReadEval s (base + imm) (← getFunct3Eval raw) old
  let s ← writeReg s instr.rd val
  return ⟨s, instr, s.cpu.pc + 4, true⟩

def execStoreEval (s : Machine w) (raw : Word) : Fallible (Exec w) := do
  let rs1 ← getRs1Eval raw
  let rs2 ← getRs2Eval raw
  let instr := { noInstr with rs1, rs2 }
  let imm ← getStoreImmEval w raw
  let s := perfModelHazard s instr
  let base ← readReg s instr.rs1
  let val ← readReg s instr.rs2
  let s ← busWriteEval s (base + imm) (← getFunct3Eval raw) val
  return ⟨s, instr, s.cpu.pc + 4, true⟩

def execBranchEval (s : Machine w) (raw : Word) : Fallible (Exec w) := do
  let type ← getFunct3Eval raw
  let rs1 ← getRs1Eval raw
  let rs2 ← getRs2Eval raw
  let instr := { noInstr with rs1, rs2 }
  let imm ← getBranchImmEval w raw
  let s := perfModelBranchHazard s instr
  let x ← readReg s instr.rs1
  let y ← readReg s instr.rs2
  if branchTaken type x y then
    let s := perfModelBranchTaken s
    return ⟨s, instr, s.cpu.pc + imm, true⟩
  else
    return ⟨s, instr, s.cpu.pc + 4, true⟩

/-- `GET_SIMM20` has no shift. -/
def execUpperEval (base : BitVec w) (s : Machine w) (raw : Word) : Fallible (Exec w) := do
  let rd ← getRdEval raw
  let instr := { noInstr with rd, isRegWrite := true }
  let s ← writeReg s instr.rd (base + getSimm20 w raw)
  return ⟨s, instr, s.cpu.pc + 4, true⟩

def execJalEval (s : Machine w) (raw : Word) : Fallible (Exec w) := do
  let rd ← getRdEval raw
  let instr := { noInstr with rd, isRegWrite := true }
  let imm ← getJalImmEval w raw
  let s := perfModelBranchTaken s
  let nextPc := s.cpu.pc + imm
  let s ← writeReg s instr.rd (s.cpu.pc + 4)
  return ⟨s, instr, nextPc, true⟩

def execJalrEval (s : Machine w) (raw : Word) : Fallible (Exec w) := do
  let rs1 ← getRs1Eval raw
  let rd ← getRdEval raw
  let instr := { noInstr with rs1, rd, isRegWrite := true }
  let imm ← getSimm12Eval w raw
  let s := perfModelBranchHazard s instr
  let s := perfModelBranchTaken s
  let base ← readReg s instr.rs1
  let nextPc := (base + imm) &&& ~~~1#w
  let s ← writeReg s instr.rd (s.cpu.pc + 4)
  return ⟨s, instr, nextPc, true⟩

def execSysEval (s : Machine w) (raw : Word) : Fallible (Exec w) := do
  let op ← getFunct3Eval raw
  let isImm := csrImm op
  let rs1 ← getRs1Eval raw
  let rd ← getRdEval raw
  let instr := { noInstr with rs1, rd }
  let uimm ← getImm12Eval w raw
  let csr := uimm.setWidth 32
  let s := if isImm then s else perfModelHazard s instr
  let target : Option (BitVec w) :=
    if isImm then some (instr.rs1.setWidth w) else readReg s instr.rs1
  if op = esys then
    execEsys s instr uimm
  else if op = csrRw ∨ op = csrRwi then
    let val ← target
    let s ← if instr.rd ≠ 0 then do writeReg s instr.rd (← readCsrEval s csr) else pure s
    let s := writeCsr s csr val
    return ⟨s, instr, s.cpu.pc + 4, true⟩
  else if op = csrRs ∨ op = csrRsi then
    let val ← target
    let csrval ← readCsrEval s csr
    let s ← writeReg s instr.rd csrval
    let s := if instr.rs1 ≠ 0 then writeCsr s csr (csrval ||| val) else s
    return ⟨s, instr, s.cpu.pc + 4, true⟩
  else if op = csrRc ∨ op = csrRci then
    let val ← target
    let csrval ← readCsrEval s csr
    let s ← writeReg s instr.rd csrval
    let s := if instr.rs1 ≠ 0 then writeCsr s csr (csrval &&& ~~~val) else s
    return ⟨s, instr, s.cpu.pc + 4, true⟩
  else
    return ⟨s, instr, s.cpu.pc + 4, true⟩

def execSwitchEval (m : Bool) (s : Machine w) (raw : Word) : Fallible (Exec w) :=
  let opcode := getOpcode raw
  match opClass w opcode with
  | .rtype => execRegisterEval (rtypeValueEval m raw) s raw
  | .imm => execImmediateEval (immValueEval raw) s raw
  | .rtypew => execRegisterEval (rtypewValueEval m raw) s raw
  | .immw => execImmediateEval (immwValueEval raw) s raw
  | .load => execLoadEval s raw
  | .store => execStoreEval s raw
  | .branch => execBranchEval s raw
  | .fence => return ⟨s, noInstr, s.cpu.pc + 4, true⟩
  | .auipc => execUpperEval s.cpu.pc s raw
  | .lui => execUpperEval 0 s raw
  | .jal => execJalEval s raw
  | .jalr => execJalrEval s raw
  | .sys => execSysEval s raw
  | .unrecognized =>
      return ⟨print s (.unrecognizedOpcode opcode.toNat), noInstr, s.cpu.pc + 4, true⟩

/-- The counters and the pc are unsigned, so `retire` has no operation to log. -/
def processInstrEval (m : Bool) (s : Machine w) (raw : Word) :
    Fallible (Machine w × Bool) := do
  retire (← execSwitchEval m s raw)

/-! ## Values -/

section Values

open Rvem.Library.HostArith.Logged

variable (instr raw : Word) (m : Bool) (x y imm : BitVec w)

@[simp] theorem getRs1Eval_value : (getRs1Eval instr).value = getRs1 instr := rfl
@[simp] theorem getRs2Eval_value : (getRs2Eval instr).value = getRs2 instr := rfl
@[simp] theorem getRdEval_value : (getRdEval instr).value = getRd instr := rfl
@[simp] theorem getFunct3Eval_value : (getFunct3Eval instr).value = getFunct3 instr := rfl

@[simp]
theorem aluFunct7Bit5Eval_value :
    (aluFunct7Bit5Eval instr).value = aluFunct7Bit5 instr := rfl

@[simp]
theorem getSimm12Eval_value : (getSimm12Eval w instr).value = getSimm12 w instr := by
  simp only [getSimm12Eval, bind_value, srawEval_value, pure_value, getSimm12]

@[simp]
theorem getBranchImmEval_value :
    (getBranchImmEval w instr).value = getBranchImm w instr := by
  simp only [getBranchImmEval, bind_value, shl_value, shr_value, srawEval_value,
    pure_value, getBranchImm]

@[simp]
theorem getJalImmEval_value : (getJalImmEval w instr).value = getJalImm w instr := by
  simp only [getJalImmEval, bind_value, shl_value, shr_value, srawEval_value, pure_value,
    getJalImm]

@[simp]
theorem getStoreImmEval_value :
    (getStoreImmEval w instr).value = getStoreImm w instr := by
  simp only [getStoreImmEval, bind_value, shl_value, srawEval_value, pure_value,
    getStoreImm]

@[simp]
theorem mulValueEval_value (funct3 : Byte) :
    (mulValueEval funct3 x y).value = mulValue funct3 x y := by
  simp only [mulValueEval, ite_value, map_value, pure_value, rvMulEval_value,
    rvMulhEval_value, rvMulhsuEval_value, rvMulhuEval_value, rvDivEval_value,
    rvDivuEval_value, rvRemEval_value, rvRemuEval_value, mulValue]

@[simp]
theorem aluValueEval_value (aluop : Byte) :
    (aluValueEval aluop x y).value = aluValue aluop x y := by
  simp only [aluValueEval, ite_value, map_value, pure_value, sadd_value, ssub_value,
    shl_value, shr_value, sraEval_value, aluValue]

@[simp]
theorem rtypeValueEval_value :
    (rtypeValueEval m raw x y).value = rtypeValue m raw x y := by
  simp only [rtypeValueEval, bind_value, ite_value, getFunct3Eval_value,
    mulValueEval_value, aluFunct7Bit5Eval_value, aluValueEval_value, rtypeValue]

@[simp]
theorem immValueEval_value : (immValueEval raw x imm).value = immValue raw x imm := by
  simp only [immValueEval, bind_value, ite_value, map_value, pure_value, sadd_value,
    shl_value, shr_value, sraEval_value, immValue,
    apply_ite some (checkFunct7Bit5 raw = true)]
  rfl

@[simp]
theorem mulwValueEval_value (funct3 : Byte) :
    (mulwValueEval funct3 x y).value = mulwValue funct3 x y := by
  simp only [mulwValueEval, ite_value, map_value, pure_value, rvMulwEval_value,
    rvDivwEval_value, rvDivuwEval_value, rvRemwEval_value, rvRemuwEval_value, extend,
    mulwValue]

@[simp]
theorem aluwValueEval_value (aluop : Byte) :
    (aluwValueEval aluop x y).value = aluwValue aluop x y := by
  simp only [aluwValueEval, ite_value, map_value, pure_value, sadd_value, ssub_value,
    shl_value, shr_value, srawEval_value, extend, aluwValue]

@[simp]
theorem rtypewValueEval_value :
    (rtypewValueEval m raw x y).value = rtypewValue m raw x y := by
  simp only [rtypewValueEval, bind_value, ite_value, getFunct3Eval_value,
    mulwValueEval_value, aluFunct7Bit5Eval_value, aluwValueEval_value, rtypewValue]

@[simp]
theorem immwValueEval_value : (immwValueEval raw x imm).value = immwValue raw x imm := by
  simp only [immwValueEval, bind_value, ite_value, map_value, pure_value, sadd_value,
    shl_value, shr_value, srawEval_value, extend, immwValue,
    apply_ite some (checkFunct7Bit5 raw = true)]
  rfl

end Values

section Memory

open Rvem.Library.HostArith.Fallible

variable (byte : ℕ → Option Byte) (s : Machine w) (addr val : BitVec w) (op : Byte)

theorem fallible_ite_value {A : Type} (cond : Prop) [Decidable cond] (e e' : Fallible A) :
    (if cond then e else e').value = if cond then e.value else e'.value :=
  apply_ite Fallible.value cond e e'

@[simp]
theorem memReadEval_value :
    (memReadEval byte s addr op val).value = memRead byte s addr op val := by
  simp only [memReadEval, memRead, fallible_ite_value]
  rfl

@[simp]
theorem romReadEval_value : (romReadEval s addr op val).value = romRead s addr op val :=
  memReadEval_value _ s addr val op

@[simp]
theorem ramReadEval_value : (ramReadEval s addr op val).value = ramRead s addr op val :=
  memReadEval_value _ s addr val op

@[simp]
theorem storePartEval_value (count : ℕ) :
    (storePartEval val count).value = val >>> (8 * count) := by
  rw [storePartEval, ite_value]
  split
  · next hzero => rw [hzero]; exact (BitVec.ushiftRight_zero val).symm
  · rfl

@[simp]
theorem storeBytesEval_value (ram : Fin ramSize → Byte) (count : ℕ) :
    (storeBytesEval ram addr val count).value = storeBytes ram addr val count := by
  induction count with
  | zero => rfl
  | succ count ih =>
    simp only [storeBytesEval, bind_value, ih, liftLogged_value, liftOption_value,
      Option.bind_some, storePartEval_value]
    rfl

@[simp]
theorem ramWriteEval_value :
    (ramWriteEval s addr op val).value = ramWrite s addr op val := by
  simp only [ramWriteEval, ramWrite, fallible_ite_value, bind_value, storeBytesEval_value]
  rfl

@[simp]
theorem ramGuardEval_value (range : ℕ) : (ramGuardEval addr range).value =
    decide (BitVec.ofNat w ramStart ≤ addr ∧
      addr < BitVec.ofNat w (ramStart + ramSize - range)) := by
  rw [ramGuardEval, ite_value, Bool.decide_and]
  split
  · next hlow => rw [decide_eq_true hlow]; rfl
  · next hlow => rw [decide_eq_false hlow]; rfl

@[simp]
theorem romGuardEval_value (range : ℕ) : (romGuardEval addr range).value =
    decide (addr < BitVec.ofNat w (romSize - range)) := rfl

@[simp]
theorem busReadEval_value :
    (busReadEval s addr op val).value = busRead s addr op val := by
  simp only [busReadEval, busRead, bind_value, liftLogged_value, Option.bind_some,
    ramGuardEval_value, romGuardEval_value, fallible_ite_value, decide_eq_true_eq,
    ramReadEval_value, romReadEval_value]
  rfl

@[simp]
theorem busWriteEval_value :
    (busWriteEval s addr op val).value = busWrite s addr op val := by
  simp only [busWriteEval, busWrite, bind_value, liftLogged_value, Option.bind_some,
    ramGuardEval_value, romGuardEval_value, fallible_ite_value, decide_eq_true_eq,
    ramWriteEval_value]
  rfl

@[simp]
theorem readCsrEval_value (csr : Word) : (readCsrEval s csr).value = readCsr s csr := by
  simp only [readCsrEval, ite_value, readCsr]
  rfl

end Memory

section Cases

open Rvem.Library.HostArith.Fallible

variable (s : Machine w) (raw : Word)

theorem execRegisterEval_value
    {value : BitVec w → BitVec w → Logged (Option (BitVec w))} :
    (execRegisterEval value s raw).value =
      execRegister (fun x y => (value x y).value) s raw := rfl

theorem execImmediateEval_value
    {value : BitVec w → BitVec w → Logged (Option (BitVec w))} :
    (execImmediateEval value s raw).value =
      execImmediate (fun x imm => (value x imm).value) s raw := by
  simp only [execImmediateEval, bind_value, liftLogged_value, liftOption_value,
    getSimm12Eval_value, getRs1Eval_value, getRdEval_value, Option.bind_some, pure_value]
  rfl

theorem execLoadEval_value : (execLoadEval s raw).value = execLoad s raw := by
  simp only [execLoadEval, bind_value, liftLogged_value, liftOption_value,
    Option.bind_some, getSimm12Eval_value, busReadEval_value, pure_value]
  rfl

theorem execStoreEval_value : (execStoreEval s raw).value = execStore s raw := by
  simp only [execStoreEval, bind_value, liftLogged_value, liftOption_value,
    Option.bind_some, getStoreImmEval_value, busWriteEval_value, pure_value]
  rfl

theorem execBranchEval_value : (execBranchEval s raw).value = execBranch s raw := by
  simp only [execBranchEval, bind_value, liftLogged_value, liftOption_value,
    Option.bind_some, getBranchImmEval_value, fallible_ite_value, pure_value]
  rfl

theorem execUpperEval_value (base : BitVec w) :
    (execUpperEval base s raw).value = execUpper base s raw := rfl

theorem execJalEval_value : (execJalEval s raw).value = execJal s raw := by
  simp only [execJalEval, bind_value, liftLogged_value, liftOption_value,
    Option.bind_some, getJalImmEval_value, pure_value]
  rfl

theorem execJalrEval_value : (execJalrEval s raw).value = execJalr s raw := by
  simp only [execJalrEval, bind_value, liftLogged_value, liftOption_value,
    Option.bind_some, getSimm12Eval_value, pure_value]
  rfl

theorem execSysEval_value : (execSysEval s raw).value = execSys s raw := by
  simp only [execSysEval, bind_value, liftLogged_value, liftOption_value,
    Option.bind_some, readCsrEval_value, fallible_ite_value, pure_value]
  rfl

theorem execSwitchEval_value (m : Bool) :
    (execSwitchEval m s raw).value = execSwitch m s raw := by
  rw [execSwitchEval, execSwitch]
  cases opClass w (getOpcode raw)
  case rtype =>
    rw [execRegisterEval_value]
    simp only [rtypeValueEval_value]
  case imm =>
    rw [execImmediateEval_value]
    simp only [immValueEval_value]
  case rtypew =>
    rw [execRegisterEval_value]
    simp only [rtypewValueEval_value]
  case immw =>
    rw [execImmediateEval_value]
    simp only [immwValueEval_value]
  case load => exact execLoadEval_value s raw
  case store => exact execStoreEval_value s raw
  case branch => exact execBranchEval_value s raw
  case auipc => exact execUpperEval_value s raw _
  case lui => exact execUpperEval_value s raw _
  case jal => exact execJalEval_value s raw
  case jalr => exact execJalrEval_value s raw
  case sys => exact execSysEval_value s raw
  case fence => rfl
  case unrecognized => rfl

/-- The logged `process_instr` is `process_instr`. -/
theorem processInstrEval_value (m : Bool) :
    (processInstrEval m s raw).value = processInstr m s raw := by
  rw [processInstrEval, bind_value, execSwitchEval_value]
  rfl

end Cases

end Rvem.EvaluatedCore
