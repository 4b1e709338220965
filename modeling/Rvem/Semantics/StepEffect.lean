import Rvem.Memory.FlatMap
import Rvem.Model.Core
import Rvem.Semantics.Fields

/-!
# The effect of one instruction

`process_instr` never evaluates an index out of bounds, so it is a total
function.  `effect` lists, for each opcode, everything the call does: the value
for `rd`, the RAM after it, the next pc, the stall cycles, the lines printed and
whether the run goes on.  Later results use this table and do not unfold the
code again.
-/

namespace Rvem.StepEffect

open Rvem.Arch
open Rvem.State
open Rvem.Bus
open Rvem.Core
open Rvem.Assembly
open Rvem.FlatMap
open Rvem.Fields
open Rvem.Library.LittleEndian

variable {w : ℕ}

/-! ## Cycles and output -/

/-- The state after `stalls` more cycles and the printing of `lines`. -/
def advance (s : Machine w) (stalls : ℕ) (lines : List Output) : Machine w :=
  { s with
    mcycle := s.mcycle + BitVec.ofNat 64 stalls
    stdout := s.stdout ++ lines }

theorem mcycleIncrIf_eq (cond : Bool) (s : Machine w) :
    mcycleIncrIf cond s = advance s cond.toNat [] := by
  cases cond <;> simp [mcycleIncrIf, advance]

theorem print_eq (s : Machine w) (line : Output) :
    print s line = advance s 0 [line] := by
  simp [print, advance]

theorem advance_zero (s : Machine w) : advance s 0 [] = s := by
  simp [advance]

theorem advance_advance (s : Machine w) (first second : ℕ)
    (lines more : List Output) :
    advance (advance s first lines) second more =
      advance s (first + second) (lines ++ more) := by
  simp [advance, BitVec.ofNat_add, BitVec.add_assoc]

@[simp]
theorem advance_cpu (s : Machine w) (stalls : ℕ) (lines : List Output) :
    (advance s stalls lines).cpu = s.cpu := rfl

@[simp]
theorem advance_perfModel (s : Machine w) (stalls : ℕ) (lines : List Output) :
    (advance s stalls lines).perfModel = s.perfModel := rfl

/-- Stall cycles of `PERF_MODEL_HAZARD`. -/
def dataStalls (model : PerfModel) (instr : Instr) : ℕ :=
  (dataHazard model instr).toNat

/-- Stall cycles of `PERF_MODEL_BRANCH_HAZARD`. -/
def branchStalls (model : PerfModel) (instr : Instr) : ℕ :=
  (writeHazard model instr).toNat + (memoryBranchHazard model instr).toNat
    + (dataHazard model instr).toNat

theorem perfModelHazard_eq (s : Machine w) (instr : Instr) :
    perfModelHazard s instr = advance s (dataStalls s.perfModel instr) [] :=
  mcycleIncrIf_eq _ s

theorem perfModelBranchHazard_eq (s : Machine w) (instr : Instr) :
    perfModelBranchHazard s instr =
      advance s (branchStalls s.perfModel instr) [] := by
  simp only [perfModelBranchHazard, mcycleIncrIf_eq, advance_perfModel,
    advance_advance, List.append_nil, branchStalls]

theorem perfModelBranchTaken_eq (s : Machine w) :
    perfModelBranchTaken s = advance s 1 [] := by
  simp [perfModelBranchTaken, advance]

/-! ## Bus accesses -/

/-- The value a load brings, if it is carried out. -/
def readValue (cpu : Cpu w) (addr : BitVec w) (op : Byte) : Option (BitVec w) :=
  if Readable addr.toNat (busRange w op + 1) then
    (loadSize w op).map fun n =>
      loadValue w op n (load (byteAt cpu) addr.toNat n)
  else none

/-- Stall cycles of an access that is carried out with width `size`. -/
def alignStalls (addr : BitVec w) : Option ℕ → ℕ
  | some n => (decide (addr.toNat % n ≠ 0)).toNat
  | none => 0

def readStalls (addr : BitVec w) (op : Byte) : ℕ :=
  if Readable addr.toNat (busRange w op + 1) then alignStalls addr (loadSize w op)
  else 0

def readLines (addr : BitVec w) (op : Byte) : List Output :=
  if Readable addr.toNat (busRange w op + 1) then []
  else [.unmappedRead addr.toNat]

/-- A bus read charges its stalls, prints its lines and gets its value, or keeps the
old one. -/
theorem readOutcome_eq (s : Machine w) (addr : BitVec w) (op : Byte)
    (val : BitVec w) :
    readOutcome s addr op val =
      (advance s (readStalls addr op) (readLines addr op),
        (readValue s.cpu addr op).getD val) := by
  unfold readOutcome readStalls readLines readValue
  split
  · cases loadSize w op with
    | none => simp [alignStalls, advance_zero]
    | some n => simp [alignStalls, mcycleIncrIf_eq]
  · simp [print_eq]

/-- RAM after a store. -/
def writtenRam (cpu : Cpu w) (addr : BitVec w) (op : Byte) (val : BitVec w) :
    Fin ramSize → Byte :=
  if InRam addr.toNat (busRange w op + 1) then
    match storeSize w op with
    | some n => storedRam cpu.ram addr.toNat n val.toNat
    | none => cpu.ram
  else cpu.ram

def writeStalls (addr : BitVec w) (op : Byte) : ℕ :=
  if InRam addr.toNat (busRange w op + 1) then alignStalls addr (storeSize w op)
  else 0

def writeLines (addr : BitVec w) (op : Byte) : List Output :=
  if InRam addr.toNat (busRange w op + 1) then []
  else if InRom addr.toNat (busRange w op + 1) then [.romWrite addr.toNat]
  else [.unmappedWrite addr.toNat]

theorem writeOutcome_eq (s : Machine w) (addr : BitVec w) (op : Byte)
    (val : BitVec w) :
    writeOutcome s addr op val =
      { advance s (writeStalls addr op) (writeLines addr op) with
        cpu := { s.cpu with ram := writtenRam s.cpu addr op val } } := by
  unfold writeOutcome writeStalls writeLines writtenRam
  split
  · cases storeSize w op with
    | none => simp [alignStalls, advance]
    | some n => simp [alignStalls, mcycleIncrIf_eq, advance]
  · split <;> simp [print, advance]

/-- An aligned access does not stall. -/
theorem readStalls_of_aligned {addr : BitVec w} {op : Byte} {n : ℕ}
    (hsize : loadSize w op = some n) (haligned : addr.toNat % n = 0) :
    readStalls addr op = 0 := by
  rw [readStalls, hsize, alignStalls, decide_eq_false (not_not_intro haligned)]
  exact ite_self 0

theorem writeStalls_of_aligned {addr : BitVec w} {op : Byte} {n : ℕ}
    (hsize : storeSize w op = some n) (haligned : addr.toNat % n = 0) :
    writeStalls addr op = 0 := by
  rw [writeStalls, hsize, alignStalls, decide_eq_false (not_not_intro haligned)]
  exact ite_self 0

/-! ## The effect table -/

/-- What one call of `process_instr` does, given the state and the word. -/
structure Effect (w : ℕ) where
  instr : Instr
  value : Option (BitVec w)
  ram : Fin ramSize → Byte
  stalls : ℕ
  nextPc : BitVec w
  lines : List Output
  execContinue : Bool

/-- Does nothing but move to the next word. -/
def skip (s : Machine w) (instr : Instr) : Effect w where
  instr := instr
  value := none
  ram := s.cpu.ram
  stalls := 0
  nextPc := s.cpu.pc + 4
  lines := []
  execContinue := true

/-- The fields of `instr_t` each case of the switch fills in. -/
def decoded (w : ℕ) (raw : Word) : Instr :=
  match opClass w (getOpcode raw) with
  | .rtype | .rtypew => { noInstr with
      rs1 := getRs1 raw, rs2 := getRs2 raw, rd := getRd raw, isRegWrite := true }
  | .imm | .immw | .jalr => { noInstr with
      rs1 := getRs1 raw, rd := getRd raw, isRegWrite := true }
  | .load => { noInstr with
      rs1 := getRs1 raw, rd := getRd raw, isRegWrite := true, isMemLoad := true }
  | .store | .branch => { noInstr with rs1 := getRs1 raw, rs2 := getRs2 raw }
  | .auipc | .lui | .jal => { noInstr with rd := getRd raw, isRegWrite := true }
  | .sys => { noInstr with rs1 := getRs1 raw, rd := getRd raw }
  | .fence | .unrecognized => noInstr

/-- The stalls of the hazard test of the SYSTEM case, which the immediate forms skip. -/
def sysStalls (s : Machine w) (raw : Word) : ℕ :=
  if csrImm (getFunct3 raw) then 0 else dataStalls s.perfModel (decoded w raw)

/-- Nothing waits for `x0`. -/
theorem sysStalls_of_x0 (s : Machine w) {raw : Word}
    (hclass : opClass w (getOpcode raw) = .sys) (hrs1 : getRs1 raw = 0) :
    sysStalls s raw = 0 := by
  have hhazard : dataHazard s.perfModel (decoded w raw) = false := by
    simp only [dataHazard, decoded, hclass, hrs1, noInstr, Bool.or_self, bne]
    rw [Bool.and_assoc, BEq.comm (a := (0 : Byte)), Bool.not_and_self, Bool.and_false]
  rw [sysStalls, dataStalls, hhazard]
  exact ite_self 0

/-- The CSR as the SYSTEM case reads it: after the hazard test. -/
def csrRead (s : Machine w) (raw : Word) : BitVec w :=
  readCsr (advance s (sysStalls s raw) []) ((getImm12 w raw).setWidth 32)

/-- The value the CSR instructions write to `rd`. -/
def sysValue (s : Machine w) (raw : Word) : Option (BitVec w) :=
  let op := getFunct3 raw
  if op = csrRw ∨ op = csrRwi then
    if rd raw ≠ 0 then some (csrRead s raw) else none
  else if (op = csrRs ∨ op = csrRsi) ∨ op = csrRc ∨ op = csrRci then
    some (csrRead s raw)
  else none

/-- What the `ESYS` case prints. -/
def sysLines (cpu : Cpu w) (raw : Word) : List Output :=
  if getFunct3 raw ≠ esys then []
  else if ebreak (getImm12 w raw) then [.ebreakReached]
  else if cpu.regfile 10 = eExit w then [.exitedGracefully]
  else if cpu.regfile 10 = eChar w then
    [.guestChar ((cpu.regfile 11).setWidth 8)]
  else []

/-- Whether a SYSTEM word ends the run. -/
def sysStops (cpu : Cpu w) (raw : Word) : Bool :=
  getFunct3 raw = esys ∧
    (ebreak (getImm12 w raw) ∨ cpu.regfile 10 = eExit w)

/-- The address of a load and of a store. -/
def loadAddr (cpu : Cpu w) (raw : Word) : BitVec w :=
  cpu.regfile (rs1 raw) + getSimm12 w raw

def storeAddr (cpu : Cpu w) (raw : Word) : BitVec w :=
  cpu.regfile (rs1 raw) + getStoreImm w raw

def taken (cpu : Cpu w) (raw : Word) : Bool :=
  branchTaken (getFunct3 raw) (cpu.regfile (rs1 raw)) (cpu.regfile (rs2 raw))

/-- The effect of a word, one case of the opcode switch after the other. -/
def effect (m : Bool) (s : Machine w) (raw : Word) : Effect w :=
  let instr := decoded w raw
  let x := s.cpu.regfile (rs1 raw)
  let y := s.cpu.regfile (rs2 raw)
  let imm := getSimm12 w raw
  let op := getFunct3 raw
  match opClass w (getOpcode raw) with
  | .rtype => { skip s instr with
      value := rtypeValue m raw x y
      stalls := dataStalls s.perfModel instr }
  | .imm => { skip s instr with
      value := immValue raw x imm
      stalls := dataStalls s.perfModel instr }
  | .rtypew => { skip s instr with
      value := rtypewValue m raw x y
      stalls := dataStalls s.perfModel instr }
  | .immw => { skip s instr with
      value := immwValue raw x imm
      stalls := dataStalls s.perfModel instr }
  | .load => { skip s instr with
      value := readValue s.cpu (loadAddr s.cpu raw) op
      stalls := dataStalls s.perfModel instr + readStalls (loadAddr s.cpu raw) op
      lines := readLines (loadAddr s.cpu raw) op }
  | .store => { skip s instr with
      ram := writtenRam s.cpu (storeAddr s.cpu raw) op y
      stalls := dataStalls s.perfModel instr + writeStalls (storeAddr s.cpu raw) op
      lines := writeLines (storeAddr s.cpu raw) op }
  | .branch => { skip s instr with
      stalls := branchStalls s.perfModel instr + (taken s.cpu raw).toNat
      nextPc := if taken s.cpu raw then s.cpu.pc + getBranchImm w raw
        else s.cpu.pc + 4 }
  | .fence => skip s instr
  | .auipc => { skip s instr with value := some (s.cpu.pc + getSimm20 w raw) }
  | .lui => { skip s instr with value := some (getSimm20 w raw) }
  | .jal => { skip s instr with
      value := some (s.cpu.pc + 4)
      stalls := 1
      nextPc := s.cpu.pc + getJalImm w raw }
  | .jalr => { skip s instr with
      value := some (s.cpu.pc + 4)
      stalls := branchStalls s.perfModel instr + 1
      nextPc := (x + imm) &&& ~~~1#w }
  | .sys => { skip s instr with
      value := sysValue s raw
      stalls := sysStalls s raw
      lines := sysLines s.cpu raw
      execContinue := !sysStops s.cpu raw }
  | .unrecognized => { skip s instr with
      lines := [.unrecognizedOpcode (getOpcode raw).toNat] }

/-! ## The code follows the table -/

/-- The register file after the assignment to `rd`, if there is one. -/
def writtenRegfile (regfile : Fin 32 → BitVec w) (dest : Fin 32) :
    Option (BitVec w) → Fin 32 → BitVec w
  | some v => Function.update regfile dest v
  | none => regfile

/-- The globals and locals after the opcode switch. -/
def Effect.exec (e : Effect w) (s : Machine w) (raw : Word) : Exec w where
  machine := { advance s e.stalls e.lines with
    cpu := { s.cpu with
      ram := e.ram
      regfile := writtenRegfile s.cpu.regfile (rd raw) e.value } }
  instr := e.instr
  nextPc := e.nextPc
  execContinue := e.execContinue

theorem execRegister_eq (value : BitVec w → BitVec w → Option (BitVec w))
    (s : Machine w) (raw : Word) {instr : Instr}
    (hinstr : instr = { noInstr with
      rs1 := getRs1 raw, rs2 := getRs2 raw, rd := getRd raw, isRegWrite := true }) :
    execRegister value s raw = some (Effect.exec { skip s instr with
      value := value (s.cpu.regfile (rs1 raw)) (s.cpu.regfile (rs2 raw))
      stalls := dataStalls s.perfModel instr } s raw) := by
  subst hinstr
  simp only [execRegister, perfModelHazard_eq, readReg_rs1, readReg_rs2,
    advance_cpu, Option.bind_eq_bind, Option.bind_some, Option.pure_def]
  cases value (s.cpu.regfile (rs1 raw)) (s.cpu.regfile (rs2 raw)) with
  | none => rfl
  | some v =>
      rw [writeRegIf, writeReg_rd]
      rfl

theorem execImmediate_eq (value : BitVec w → BitVec w → Option (BitVec w))
    (s : Machine w) (raw : Word) {instr : Instr}
    (hinstr : instr = { noInstr with
      rs1 := getRs1 raw, rd := getRd raw, isRegWrite := true }) :
    execImmediate value s raw = some (Effect.exec { skip s instr with
      value := value (s.cpu.regfile (rs1 raw)) (getSimm12 w raw)
      stalls := dataStalls s.perfModel instr } s raw) := by
  subst hinstr
  simp only [execImmediate, perfModelHazard_eq, readReg_rs1, advance_cpu,
    Option.bind_eq_bind, Option.bind_some, Option.pure_def]
  cases value (s.cpu.regfile (rs1 raw)) (getSimm12 w raw) with
  | none => rfl
  | some v =>
      rw [writeRegIf, writeReg_rd]
      rfl

theorem execLoad_eq (hw : w = 32 ∨ w = 64) (s : Machine w) (raw : Word)
    {instr : Instr} (hinstr : instr = { noInstr with
      rs1 := getRs1 raw, rd := getRd raw, isRegWrite := true, isMemLoad := true }) :
    execLoad s raw = some (Effect.exec { skip s instr with
      value := readValue s.cpu (loadAddr s.cpu raw) (getFunct3 raw)
      stalls := dataStalls s.perfModel instr
        + readStalls (loadAddr s.cpu raw) (getFunct3 raw)
      lines := readLines (loadAddr s.cpu raw) (getFunct3 raw) } s raw) := by
  subst hinstr
  simp only [execLoad, perfModelHazard_eq, readReg_rs1, readReg_rd, advance_cpu,
    busRead_eq hw, readOutcome_eq, writeReg_rd, advance_advance,
    Option.bind_eq_bind, Option.bind_some, Option.pure_def]
  rw [← loadAddr]
  cases readValue s.cpu (loadAddr s.cpu raw) (getFunct3 raw) with
  | none =>
      simp only [Option.getD_none, Function.update_eq_self]
      rfl
  | some v => rfl

theorem execStore_eq (hw : w = 32 ∨ w = 64) (s : Machine w) (raw : Word)
    {instr : Instr} (hinstr : instr = { noInstr with
      rs1 := getRs1 raw, rs2 := getRs2 raw }) :
    execStore s raw = some (Effect.exec { skip s instr with
      ram := writtenRam s.cpu (storeAddr s.cpu raw) (getFunct3 raw)
        (s.cpu.regfile (rs2 raw))
      stalls := dataStalls s.perfModel instr
        + writeStalls (storeAddr s.cpu raw) (getFunct3 raw)
      lines := writeLines (storeAddr s.cpu raw) (getFunct3 raw) } s raw) := by
  subst hinstr
  simp only [execStore, perfModelHazard_eq, readReg_rs1, readReg_rs2, advance_cpu,
    busWrite_eq hw, writeOutcome_eq, advance_advance,
    Option.bind_eq_bind, Option.bind_some, Option.pure_def]
  rfl

theorem execBranch_eq (s : Machine w) (raw : Word) {instr : Instr}
    (hinstr : instr = { noInstr with rs1 := getRs1 raw, rs2 := getRs2 raw }) :
    execBranch s raw = some (Effect.exec { skip s instr with
      stalls := branchStalls s.perfModel instr + (taken s.cpu raw).toNat
      nextPc := if taken s.cpu raw then s.cpu.pc + getBranchImm w raw
        else s.cpu.pc + 4 } s raw) := by
  subst hinstr
  simp only [execBranch, perfModelBranchHazard_eq, perfModelBranchTaken_eq,
    readReg_rs1, readReg_rs2, advance_cpu, advance_advance,
    Option.bind_eq_bind, Option.bind_some, Option.pure_def]
  rw [← taken]
  cases taken s.cpu raw <;> rfl

theorem execUpper_eq {base value : BitVec w} (s : Machine w) (raw : Word)
    {instr : Instr} (hvalue : base + getSimm20 w raw = value)
    (hinstr : instr = { noInstr with rd := getRd raw, isRegWrite := true }) :
    execUpper base s raw = some (Effect.exec { skip s instr with
      value := some value } s raw) := by
  subst hinstr
  simp only [execUpper, writeReg_rd, hvalue, Option.bind_eq_bind,
    Option.bind_some, Option.pure_def]
  simp only [Effect.exec, skip, advance_zero]
  rfl

theorem execJal_eq (s : Machine w) (raw : Word) {instr : Instr}
    (hinstr : instr = { noInstr with rd := getRd raw, isRegWrite := true }) :
    execJal s raw = some (Effect.exec { skip s instr with
      value := some (s.cpu.pc + 4)
      stalls := 1
      nextPc := s.cpu.pc + getJalImm w raw } s raw) := by
  subst hinstr
  simp only [execJal, perfModelBranchTaken_eq, writeReg_rd, advance_cpu,
    Option.bind_eq_bind, Option.bind_some, Option.pure_def]
  rfl

theorem execJalr_eq (s : Machine w) (raw : Word) {instr : Instr}
    (hinstr : instr = { noInstr with
      rs1 := getRs1 raw, rd := getRd raw, isRegWrite := true }) :
    execJalr s raw = some (Effect.exec { skip s instr with
      value := some (s.cpu.pc + 4)
      stalls := branchStalls s.perfModel instr + 1
      nextPc := (s.cpu.regfile (rs1 raw) + getSimm12 w raw) &&& ~~~1#w } s raw) := by
  subst hinstr
  simp only [execJalr, perfModelBranchHazard_eq, perfModelBranchTaken_eq,
    readReg_rs1, writeReg_rd, advance_cpu, advance_advance,
    Option.bind_eq_bind, Option.bind_some, Option.pure_def]
  rfl

theorem readReg_a0 (s : Machine w) : readReg s a0 = some (s.cpu.regfile 10) :=
  readReg_of_toNat_eq s rfl

theorem readReg_a1 (s : Machine w) : readReg s a1 = some (s.cpu.regfile 11) :=
  readReg_of_toNat_eq s rfl

theorem execEsys_eq (s : Machine w) (raw : Word) (instr : Instr)
    (stalls : ℕ) (hesys : getFunct3 raw = esys) :
    execEsys (advance s stalls []) instr (getImm12 w raw) =
      some (Effect.exec { skip s instr with
        stalls := stalls
        lines := sysLines s.cpu raw
        execContinue := !sysStops s.cpu raw } s raw) := by
  simp only [execEsys, readReg_a0, readReg_a1, advance_cpu, print_eq,
    advance_advance, Option.bind_eq_bind, Option.bind_some, Option.pure_def,
    sysLines, sysStops, hesys, ne_eq, not_true, if_false, true_and]
  by_cases hebreak : ebreak (getImm12 w raw)
  · simp only [hebreak, if_true, true_or, decide_true, Bool.not_true]
    rfl
  · by_cases hexit : s.cpu.regfile 10 = eExit w
    · simp only [hebreak, hexit, Bool.false_eq_true, if_false, if_true, or_true,
        decide_true, Bool.not_true]
      rfl
    · simp only [hebreak, hexit, Bool.false_eq_true, if_false, or_self,
        decide_false, Bool.not_false]
      split <;> rfl

theorem execSys_eq (s : Machine w) (raw : Word) {instr : Instr}
    (hclass : opClass w (getOpcode raw) = .sys)
    (hinstr : instr = { noInstr with rs1 := getRs1 raw, rd := getRd raw }) :
    execSys s raw = some (Effect.exec { skip s instr with
      value := sysValue s raw
      stalls := sysStalls s raw
      lines := sysLines s.cpu raw
      execContinue := !sysStops s.cpu raw } s raw) := by
  have hdecoded : decoded w raw = instr := by
    rw [hinstr, decoded, hclass]
  have hhazard : (if csrImm (getFunct3 raw) then s else perfModelHazard s instr) =
      advance s (sysStalls s raw) [] := by
    rw [perfModelHazard_eq, sysStalls, hdecoded]
    split
    · rw [advance_zero]
    · rfl
  have htarget : (if csrImm (getFunct3 raw) then some (instr.rs1.setWidth w)
      else readReg (advance s (sysStalls s raw) []) instr.rs1) =
      some (if csrImm (getFunct3 raw) then instr.rs1.setWidth w
        else s.cpu.regfile (rs1 raw)) := by
    subst hinstr
    split
    · rfl
    · exact readReg_rs1 _ raw
  subst hinstr
  simp only [execSys, hhazard, htarget, Option.bind_eq_bind, Option.bind_some,
    Option.pure_def, writeCsr, ite_self, writeReg_rd, sysValue, csrRead]
  by_cases hesys : getFunct3 raw = esys
  · rw [if_pos hesys, execEsys_eq s raw _ _ hesys]
    simp [hesys, skip]
  · have hlines : sysLines s.cpu raw = [] := if_pos hesys
    have hstops : sysStops s.cpu raw = false :=
      decide_eq_false fun h => hesys h.1
    simp only [hesys, if_false, hlines, hstops, Bool.not_false]
    by_cases hrw : getFunct3 raw = csrRw ∨ getFunct3 raw = csrRwi
    · simp only [hrw, if_true, ne_eq, getRd_eq_zero_iff]
      by_cases hrd : rd raw = 0
      · simp only [hrd, not_true, if_false]
        rfl
      · simp only [hrd, not_false_iff, if_true]
        rfl
    · by_cases hrs : getFunct3 raw = csrRs ∨ getFunct3 raw = csrRsi
      · simp only [hrw, hrs, if_false, if_true, true_or]
        rfl
      · by_cases hrc : getFunct3 raw = csrRc ∨ getFunct3 raw = csrRci
        · simp only [hrw, hrs, hrc, if_false, if_true, or_true]
          rfl
        · simp only [hrw, hrs, hrc, if_false, or_self]
          rfl

/-- The opcode switch does what the table says, and indexes nothing out of bounds. -/
theorem execSwitch_eq (hw : w = 32 ∨ w = 64) (m : Bool) (s : Machine w)
    (raw : Word) :
    execSwitch m s raw = some ((effect m s raw).exec s raw) := by
  cases hclass : opClass w (getOpcode raw) <;>
    simp only [execSwitch, effect, hclass]
  case rtype => exact execRegister_eq _ s raw (by rw [decoded, hclass])
  case imm => exact execImmediate_eq _ s raw (by rw [decoded, hclass])
  case rtypew => exact execRegister_eq _ s raw (by rw [decoded, hclass])
  case immw => exact execImmediate_eq _ s raw (by rw [decoded, hclass])
  case load => exact execLoad_eq hw s raw (by rw [decoded, hclass])
  case store => exact execStore_eq hw s raw (by rw [decoded, hclass])
  case branch => exact execBranch_eq s raw (by rw [decoded, hclass])
  case fence =>
    simp only [Effect.exec, skip, advance_zero, decoded, hclass]
    rfl
  case auipc => exact execUpper_eq s raw rfl (by rw [decoded, hclass])
  case lui =>
    exact execUpper_eq s raw (BitVec.zero_add _) (by rw [decoded, hclass])
  case jal => exact execJal_eq s raw (by rw [decoded, hclass])
  case jalr => exact execJalr_eq s raw (by rw [decoded, hclass])
  case sys => exact execSys_eq s raw hclass (by rw [decoded, hclass])
  case unrecognized =>
    simp only [print_eq, decoded, hclass]
    rfl

/-- Registers after an instruction: `rd` has the value, if there is one, and `x0`
is zero. -/
def regfileAfter (regfile : Fin 32 → BitVec w) (dest : Fin 32)
    (value : Option (BitVec w)) : Fin 32 → BitVec w :=
  fun r =>
    if r = 0 then 0
    else if r = dest then value.getD (regfile r)
    else regfile r

/-- `perf_model` after `PERF_MODEL_CYCLE`. -/
def PerfModel.after (model : PerfModel) (instr : Instr) : PerfModel where
  prev2MemLoad := model.prevMemLoad
  prevMemLoad := instr.isMemLoad
  prev2Rd := model.prevRd
  prevRd := instr.rd
  prevRegWrite := instr.isRegWrite

/-- The state `process_instr` leaves. -/
def Effect.apply (e : Effect w) (s : Machine w) (raw : Word) : Machine w where
  cpu :=
    { rom := s.cpu.rom
      ram := e.ram
      regfile := regfileAfter s.cpu.regfile (rd raw) e.value
      pc := e.nextPc }
  perfModel := PerfModel.after s.perfModel e.instr
  mcycle := s.mcycle + BitVec.ofNat 64 (e.stalls + 1)
  minstret := s.minstret + 1
  stdout := s.stdout ++ e.lines

theorem retire_exec (e : Effect w) (s : Machine w) (raw : Word) :
    retire (e.exec s raw) = some (e.apply s raw, e.execContinue) := by
  have hregs : Function.update (writtenRegfile s.cpu.regfile (rd raw) e.value) 0 0 =
      regfileAfter s.cpu.regfile (rd raw) e.value := by
    funext r
    by_cases hr : r = 0
    · rw [hr, Function.update_self, regfileAfter, if_pos rfl]
    · rw [Function.update_of_ne hr, regfileAfter, if_neg hr]
      cases e.value with
      | none => simp only [writtenRegfile, Option.getD_none, ite_self]
      | some v => simp only [writtenRegfile, Function.update_apply, Option.getD_some]
  have hcycle : (advance s e.stalls e.lines).mcycle + 1 =
      s.mcycle + BitVec.ofNat 64 (e.stalls + 1) := by
    rw [BitVec.ofNat_add, ← BitVec.add_assoc]
    rfl
  rw [retire, writeReg_of_toNat_eq _ (show (0 : Byte).toNat = (0 : Fin 32) from rfl)]
  simp only [Effect.exec, perfModelCycle, hregs, hcycle, Option.bind_eq_bind,
    Option.bind_some, Option.pure_def]
  rfl

/-- `process_instr` is total and follows the table, for every word and state. -/
theorem processInstr_eq (hw : w = 32 ∨ w = 64) (m : Bool) (s : Machine w)
    (raw : Word) :
    processInstr m s raw =
      some ((effect m s raw).apply s raw, (effect m s raw).execContinue) := by
  rw [processInstr, execSwitch_eq hw]
  exact retire_exec _ s raw

end Rvem.StepEffect
