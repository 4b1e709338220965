import Rvem.Model.Bus
import Rvem.Model.Mul

/-!
# Instruction execution

`process_instr` (`core.c`).  Each case of its `switch` is a function that returns
the locals the code after the `switch` reads; the inner `switch`es on function
codes are functions on operand values that return `none` where the source takes
`default: break;`.  Signed arithmetic that leaves the range of its C type is read
as two's-complement wrap-around.
-/

namespace Rvem.Core

open Rvem.Arch
open Rvem.State
open Rvem.Bus
open Rvem.Mul

variable {w : ℕ}

/-- The locals of `process_instr` after its `switch`, with the globals. -/
structure Exec (w : ℕ) where
  machine : Machine w
  instr : Instr
  nextPc : BitVec w
  execContinue : Bool

/-- The decoded instruction before the `switch`. -/
def noInstr : Instr where
  rs1 := 0
  rs2 := 0
  rd := 0
  isRegWrite := false
  isMemLoad := false

/-! ## Values computed by the inner switches -/

/-- The M extension's `switch (funct3)`. -/
def mulValue (funct3 : Byte) (x y : BitVec w) : Option (BitVec w) :=
  if funct3 = mMul then some (rvMul x y)
  else if funct3 = mMulh then some (rvMulh x y)
  else if funct3 = mMulhsu then some (rvMulhsu x y)
  else if funct3 = mMulhu then some (rvMulhu x y)
  else if funct3 = mDiv then some (rvDiv x y)
  else if funct3 = mDivu then some (rvDivu x y)
  else if funct3 = mRem then some (rvRem x y)
  else if funct3 = mRemu then some (rvRemu x y)
  else none

/-- The `switch (aluop)` of `OP_RTYPE`. -/
def aluValue (aluop : Byte) (x y : BitVec w) : Option (BitVec w) :=
  if aluop = aluAdd then some (x + y)
  else if aluop = aluSub then some (x - y)
  else if aluop = aluSll then some (x <<< (y &&& shiftMax w).toNat)
  else if aluop = aluSrl then some (x >>> (y &&& shiftMax w).toNat)
  else if aluop = aluSra then some (sra x (y &&& shiftMax w).toNat)
  else if aluop = aluSlt then some (if x.slt y then 1 else 0)
  else if aluop = aluSltu then some (if x < y then 1 else 0)
  else if aluop = aluAnd then some (x &&& y)
  else if aluop = aluOr then some (x ||| y)
  else if aluop = aluXor then some (x ^^^ y)
  else none

def rtypeValue (m : Bool) (raw : Word) (x y : BitVec w) : Option (BitVec w) :=
  if m && checkFunct7Bit0 raw then mulValue (getFunct3 raw) x y
  else aluValue (aluFunct7Bit5 raw ||| getFunct3 raw) x y

/-- The `switch (aluop)` of `OP_IMM`. -/
def immValue (raw : Word) (x imm : BitVec w) : Option (BitVec w) :=
  let aluop := getFunct3 raw
  if aluop = aluAdd then some (x + imm)
  else if aluop = aluSll then some (x <<< (imm &&& shiftMax w).toNat)
  else if aluop = aluSrl then
    some (if checkFunct7Bit5 raw then sra x (imm &&& shiftMax w).toNat
      else x >>> (imm &&& shiftMax w).toNat)
  else if aluop = aluSlt then some (if x.slt imm then 1 else 0)
  else if aluop = aluSltu then some (if x < imm then 1 else 0)
  else if aluop = aluAnd then some (x &&& imm)
  else if aluop = aluOr then some (x ||| imm)
  else if aluop = aluXor then some (x ^^^ imm)
  else none

/-- The M extension's `switch (funct3)` of `OP_RTYPEW`. -/
def mulwValue (funct3 : Byte) (x y : BitVec w) : Option (BitVec w) :=
  let x := x.setWidth 32
  let y := y.setWidth 32
  if funct3 = mMul then some ((rvMulw x y).signExtend w)
  else if funct3 = mDiv then some ((rvDivw x y).signExtend w)
  else if funct3 = mDivu then some ((rvDivuw x y).signExtend w)
  else if funct3 = mRem then some ((rvRemw x y).signExtend w)
  else if funct3 = mRemu then some ((rvRemuw x y).signExtend w)
  else none

/-- The `switch (aluop)` of `OP_RTYPEW`. -/
def aluwValue (aluop : Byte) (x y : BitVec w) : Option (BitVec w) :=
  let sh := (y &&& shiftMaxWord.setWidth w).toNat
  let x := x.setWidth 32
  let y := y.setWidth 32
  if aluop = aluAdd then some ((x + y).signExtend w)
  else if aluop = aluSub then some ((x - y).signExtend w)
  else if aluop = aluSll then some ((x <<< sh).signExtend w)
  else if aluop = aluSrl then some ((x >>> sh).signExtend w)
  else if aluop = aluSra then some ((sraw x sh).signExtend w)
  else none

def rtypewValue (m : Bool) (raw : Word) (x y : BitVec w) : Option (BitVec w) :=
  if m && checkFunct7Bit0 raw then mulwValue (getFunct3 raw) x y
  else aluwValue (aluFunct7Bit5 raw ||| getFunct3 raw) x y

/-- The `switch (aluop)` of `OP_IMMW`. -/
def immwValue (raw : Word) (x imm : BitVec w) : Option (BitVec w) :=
  let aluop := getFunct3 raw
  let sh := (imm &&& shiftMaxWord.setWidth w).toNat
  let x := x.setWidth 32
  if aluop = aluAdd then some ((x + imm.setWidth 32).signExtend w)
  else if aluop = aluSll then some ((x <<< sh).signExtend w)
  else if aluop = aluSrl then
    some (if checkFunct7Bit5 raw then (sraw x sh).signExtend w
      else (x >>> sh).signExtend w)
  else none

/-- The conditions of the `switch (type)` of `OP_BRANCH`. -/
def branchTaken (type : Byte) (x y : BitVec w) : Bool :=
  if type = branchEq then x == y
  else if type = branchNe then x != y
  else if type = branchLt then x.slt y
  else if type = branchGe then !x.slt y
  else if type = branchLtu then x < y
  else if type = branchGeu then y ≤ x
  else false

/-! ## Cases of the opcode switch -/

/-- `OP_RTYPE` and `OP_RTYPEW` differ in the value only. -/
def execRegister (value : BitVec w → BitVec w → Option (BitVec w))
    (s : Machine w) (raw : Word) : Option (Exec w) := do
  let instr := { noInstr with
    rs1 := getRs1 raw, rs2 := getRs2 raw, rd := getRd raw, isRegWrite := true }
  let s := perfModelHazard s instr
  let x ← readReg s instr.rs1
  let y ← readReg s instr.rs2
  let s ← writeRegIf s instr.rd (value x y)
  return ⟨s, instr, s.cpu.pc + 4, true⟩

/-- `OP_IMM` and `OP_IMMW` differ in the value only. -/
def execImmediate (value : BitVec w → BitVec w → Option (BitVec w))
    (s : Machine w) (raw : Word) : Option (Exec w) := do
  let instr := { noInstr with
    rs1 := getRs1 raw, rd := getRd raw, isRegWrite := true }
  let imm := getSimm12 w raw
  let s := perfModelHazard s instr
  let x ← readReg s instr.rs1
  let s ← writeRegIf s instr.rd (value x imm)
  return ⟨s, instr, s.cpu.pc + 4, true⟩

/-- The bus writes through `&cpu.regfile[instr.rd]`. -/
def execLoad (s : Machine w) (raw : Word) : Option (Exec w) := do
  let instr := { noInstr with
    rs1 := getRs1 raw, rd := getRd raw, isRegWrite := true, isMemLoad := true }
  let imm := getSimm12 w raw
  let s := perfModelHazard s instr
  let base ← readReg s instr.rs1
  let old ← readReg s instr.rd
  let (s, val) ← busRead s (base + imm) (getFunct3 raw) old
  let s ← writeReg s instr.rd val
  return ⟨s, instr, s.cpu.pc + 4, true⟩

def execStore (s : Machine w) (raw : Word) : Option (Exec w) := do
  let instr := { noInstr with rs1 := getRs1 raw, rs2 := getRs2 raw }
  let imm := getStoreImm w raw
  let s := perfModelHazard s instr
  let base ← readReg s instr.rs1
  let val ← readReg s instr.rs2
  let s ← busWrite s (base + imm) (getFunct3 raw) val
  return ⟨s, instr, s.cpu.pc + 4, true⟩

def execBranch (s : Machine w) (raw : Word) : Option (Exec w) := do
  let instr := { noInstr with rs1 := getRs1 raw, rs2 := getRs2 raw }
  let imm := getBranchImm w raw
  let s := perfModelBranchHazard s instr
  let x ← readReg s instr.rs1
  let y ← readReg s instr.rs2
  if branchTaken (getFunct3 raw) x y then
    let s := perfModelBranchTaken s
    return ⟨s, instr, s.cpu.pc + imm, true⟩
  else
    return ⟨s, instr, s.cpu.pc + 4, true⟩

/-- `OP_AUIPC` and `OP_LUI`: the upper immediate, added to `base`. -/
def execUpper (base : BitVec w) (s : Machine w) (raw : Word) :
    Option (Exec w) := do
  let instr := { noInstr with rd := getRd raw, isRegWrite := true }
  let s ← writeReg s instr.rd (base + getSimm20 w raw)
  return ⟨s, instr, s.cpu.pc + 4, true⟩

def execJal (s : Machine w) (raw : Word) : Option (Exec w) := do
  let instr := { noInstr with rd := getRd raw, isRegWrite := true }
  let s := perfModelBranchTaken s
  let nextPc := s.cpu.pc + getJalImm w raw
  let s ← writeReg s instr.rd (s.cpu.pc + 4)
  return ⟨s, instr, nextPc, true⟩

def execJalr (s : Machine w) (raw : Word) : Option (Exec w) := do
  let instr := { noInstr with
    rs1 := getRs1 raw, rd := getRd raw, isRegWrite := true }
  let imm := getSimm12 w raw
  let s := perfModelBranchHazard s instr
  let s := perfModelBranchTaken s
  let base ← readReg s instr.rs1
  let nextPc := (base + imm) &&& ~~~1#w
  let s ← writeReg s instr.rd (s.cpu.pc + 4)
  return ⟨s, instr, nextPc, true⟩

/-- The `ESYS` case: every function code 0 word that is not an `ebreak`
is treated as an `ecall`. -/
def execEsys (s : Machine w) (instr : Instr) (uimm : BitVec w) :
    Option (Exec w) := do
  if ebreak uimm then
    return ⟨print s .ebreakReached, instr, s.cpu.pc + 4, false⟩
  let number ← readReg s a0
  if number = eExit w then
    return ⟨print s .exitedGracefully, instr, s.cpu.pc + 4, false⟩
  else if number = eChar w then
    let c ← readReg s a1
    return ⟨print s (.guestChar (c.setWidth 8)), instr, s.cpu.pc + 4, true⟩
  else
    return ⟨s, instr, s.cpu.pc + 4, true⟩

def execSys (s : Machine w) (raw : Word) : Option (Exec w) := do
  let op := getFunct3 raw
  let isImm := csrImm op
  let instr := { noInstr with rs1 := getRs1 raw, rd := getRd raw }
  let uimm := getImm12 w raw
  let csr := uimm.setWidth 32
  let s := if isImm then s else perfModelHazard s instr
  -- `rs1` is an operand or, in the immediate forms, the operand itself
  let target : Option (BitVec w) :=
    if isImm then some (instr.rs1.setWidth w) else readReg s instr.rs1
  if op = esys then
    execEsys s instr uimm
  else if op = csrRw ∨ op = csrRwi then
    let val ← target
    let s ← if instr.rd ≠ 0 then writeReg s instr.rd (readCsr s csr) else some s
    let s := writeCsr s csr val
    return ⟨s, instr, s.cpu.pc + 4, true⟩
  else if op = csrRs ∨ op = csrRsi then
    let val ← target
    let csrval := readCsr s csr
    let s ← writeReg s instr.rd csrval
    let s := if instr.rs1 ≠ 0 then writeCsr s csr (csrval ||| val) else s
    return ⟨s, instr, s.cpu.pc + 4, true⟩
  else if op = csrRc ∨ op = csrRci then
    let val ← target
    let csrval := readCsr s csr
    let s ← writeReg s instr.rd csrval
    let s := if instr.rs1 ≠ 0 then writeCsr s csr (csrval &&& ~~~val) else s
    return ⟨s, instr, s.cpu.pc + 4, true⟩
  else
    return ⟨s, instr, s.cpu.pc + 4, true⟩

/-- The opcode switch of `process_instr`. -/
def execSwitch (m : Bool) (s : Machine w) (raw : Word) : Option (Exec w) :=
  let opcode := getOpcode raw
  match opClass w opcode with
  | .rtype => execRegister (rtypeValue m raw) s raw
  | .imm => execImmediate (immValue raw) s raw
  | .rtypew => execRegister (rtypewValue m raw) s raw
  | .immw => execImmediate (immwValue raw) s raw
  | .load => execLoad s raw
  | .store => execStore s raw
  | .branch => execBranch s raw
  | .fence => some ⟨s, noInstr, s.cpu.pc + 4, true⟩
  | .auipc => execUpper s.cpu.pc s raw
  | .lui => execUpper 0 s raw
  | .jal => execJal s raw
  | .jalr => execJalr s raw
  | .sys => execSys s raw
  | .unrecognized =>
      some ⟨print s (.unrecognizedOpcode opcode.toNat), noInstr, s.cpu.pc + 4, true⟩

/-- The code after the `switch`: account the cycle, move the pc, restore `x0`. -/
def retire (e : Exec w) : Option (Machine w × Bool) := do
  let s := perfModelCycle e.machine e.instr
  let s := { s with cpu := { s.cpu with pc := e.nextPc } }
  let s ← writeReg s 0 0
  return (s, e.execContinue)

/-- `m` says whether the M extension is compiled in. -/
def processInstr (m : Bool) (s : Machine w) (raw : Word) :
    Option (Machine w × Bool) := do
  retire (← execSwitch m s raw)

end Rvem.Core
