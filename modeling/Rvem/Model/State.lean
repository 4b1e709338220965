import Rvem.Library.CArray
import Rvem.Model.Arch

/-!
# Program state, performance model and counters

The globals of the emulator: `cpu` (`cpu.h`), `perf_model` (`perf.h`), `mcycle`
and `minstret` (`csr.h`), and what has been written to stdout so far.  Each
`PERF_MODEL_*` macro is a function on the whole state, as in the source, where
the macros update the globals.
-/

namespace Rvem.State

open Rvem.Arch
open Rvem.Library

/-- Everything the program prints, one constructor for each `printf`/`putchar`
call site; addresses and counters are carried as numbers. -/
inductive Output
  | guestChar (c : Byte)
  | unmappedRead (addr : ℕ)
  | romWrite (addr : ℕ)
  | unmappedWrite (addr : ℕ)
  | ebreakReached
  | exitedGracefully
  | unrecognizedOpcode (opcode : ℕ)
  | totalCycles (cycles : ℕ)
  | hitCycleLimit
  deriving DecidableEq, Repr

/-- `%X` -/
def hexText (value : ℕ) : String :=
  String.ofList ((Nat.toDigits 16 value).map Char.toUpper)

/-- The characters each call site produces. -/
def Output.text : Output → String
  | .guestChar c => String.singleton (Char.ofNat c.toNat)
  | .unmappedRead addr => "[warn] unmapped bus read 0x" ++ hexText addr ++ "; ignored."
  | .romWrite addr => "[warn] rom write at 0x" ++ hexText addr ++ "; ignored."
  | .unmappedWrite addr => "[warn] unmapped bus write 0x" ++ hexText addr ++ "; ignored."
  | .ebreakReached => "[err] ebreak called. debug breakpoint reached.\n"
  | .exitedGracefully => "[info] program exited gracefully (ecall with a0=10).\n"
  | .unrecognizedOpcode opcode =>
      "[warn] unrecognized opcode " ++ toString opcode ++ ".\n"
  | .totalCycles cycles => "[info] total cycles: " ++ toString cycles ++ ".\n"
  | .hitCycleLimit => "[info] program hit hard cycle limit without exiting.\n"

/-- The register file has a register. -/
instance regfile_neZero : NeZero 32 := ⟨by decide⟩

/-- `cpu_t` -/
structure Cpu (w : ℕ) where
  rom : Fin romSize → Byte
  ram : Fin ramSize → Byte
  regfile : Fin 32 → BitVec w
  pc : BitVec w

/-- `perf_model_t` -/
structure PerfModel where
  prevRd : Byte
  prev2Rd : Byte
  prevMemLoad : Bool
  prev2MemLoad : Bool
  prevRegWrite : Bool
  deriving DecidableEq

/-- `instr_t`; the `imms` union is a local of the cases that read it. -/
structure Instr where
  rs1 : Byte
  rs2 : Byte
  rd : Byte
  isRegWrite : Bool
  isMemLoad : Bool
  deriving DecidableEq

/-- The globals of the emulator and the lines printed so far. -/
structure Machine (w : ℕ) where
  cpu : Cpu w
  perfModel : PerfModel
  mcycle : BitVec 64
  minstret : BitVec 64
  stdout : List Output

variable {w : ℕ}

def print (s : Machine w) (line : Output) : Machine w :=
  { s with stdout := s.stdout ++ [line] }

/-! ## Register file -/

def readReg (s : Machine w) (reg : Byte) : Option (BitVec w) :=
  CArray.index s.cpu.regfile reg.toNat

def writeReg (s : Machine w) (reg : Byte) (value : BitVec w) :
    Option (Machine w) := do
  let regfile ← CArray.store s.cpu.regfile reg.toNat value
  return { s with cpu := { s.cpu with regfile } }

/-- A `switch` whose `default` leaves the destination register alone. -/
def writeRegIf (s : Machine w) (reg : Byte) :
    Option (BitVec w) → Option (Machine w)
  | some value => writeReg s reg value
  | none => some s

/-! ## Performance model -/

def PerfModel.init : PerfModel where
  prevRd := 0
  prev2Rd := 0
  prevMemLoad := false
  prev2MemLoad := false
  prevRegWrite := false

def perfModelCycle (s : Machine w) (instr : Instr) : Machine w :=
  { s with
    mcycle := s.mcycle + 1
    minstret := s.minstret + 1
    perfModel :=
      { prev2MemLoad := s.perfModel.prevMemLoad
        prevMemLoad := instr.isMemLoad
        prev2Rd := s.perfModel.prevRd
        prevRd := instr.rd
        prevRegWrite := instr.isRegWrite } }

/-- `if (cond) mcycle++;` -/
def mcycleIncrIf (cond : Bool) (s : Machine w) : Machine w :=
  if cond then { s with mcycle := s.mcycle + 1 } else s

/-- stall on data hazard -/
def dataHazard (model : PerfModel) (instr : Instr) : Bool :=
  model.prevMemLoad && model.prevRd != 0
    && (instr.rs1 == model.prevRd || instr.rs2 == model.prevRd)

/-- stall on branch hazard -/
def writeHazard (model : PerfModel) (instr : Instr) : Bool :=
  model.prevRd != 0 && model.prevRegWrite
    && (instr.rs1 == model.prevRd || instr.rs2 == model.prevRd)

/-- memory-branch special -/
def memoryBranchHazard (model : PerfModel) (instr : Instr) : Bool :=
  model.prev2Rd != 0 && model.prev2MemLoad
    && (instr.rs1 == model.prev2Rd || instr.rs2 == model.prev2Rd)

def perfModelHazard (s : Machine w) (instr : Instr) : Machine w :=
  mcycleIncrIf (dataHazard s.perfModel instr) s

def perfModelBranchHazard (s : Machine w) (instr : Instr) : Machine w :=
  let s := mcycleIncrIf (writeHazard s.perfModel instr) s
  let s := mcycleIncrIf (memoryBranchHazard s.perfModel instr) s
  mcycleIncrIf (dataHazard s.perfModel instr) s

def perfModelBranchTaken (s : Machine w) : Machine w :=
  { s with mcycle := s.mcycle + 1 }

def perfModelMemory (s : Machine w) (size : ℕ) (addr : BitVec w) : Machine w :=
  mcycleIncrIf (addr &&& BitVec.ofNat w (size - 1) != 0) s

/-! ## Control and status registers -/

def csrMcycle : Word := 0xB00
def csrMinstret : Word := 0xB02
def csrMcycleh : Word := 0xB80
def csrMinstreth : Word := 0xB82
def csrCycle : Word := 0xC00
def csrInstret : Word := 0xC02
def csrCycleh : Word := 0xC80
def csrInstreth : Word := 0xC82

/-- The high halves exist only when `RV64` is not defined. -/
def readCsr (s : Machine w) (csr : Word) : BitVec w :=
  if csr = csrMcycle ∨ csr = csrCycle then s.mcycle.setWidth w
  else if csr = csrMinstret ∨ csr = csrInstret then s.minstret.setWidth w
  else if w ≠ 64 ∧ (csr = csrMcycleh ∨ csr = csrCycleh) then
    (s.mcycle >>> 32).setWidth w
  else if w ≠ 64 ∧ (csr = csrMinstreth ∨ csr = csrInstreth) then
    (s.minstret >>> 32).setWidth w
  else 0

/-- Not implemented in the source: both arguments are discarded. -/
def writeCsr (s : Machine w) (_csr : Word) (_val : BitVec w) : Machine w := s

end Rvem.State
