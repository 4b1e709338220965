import Rvem.Semantics.Run

/-!
# Counters and termination

Every iteration of the main loop that executes an instruction costs between one and six
cycles, whatever the instruction and the hazard record.  The cycle limit therefore ends
every run, and neither counter ever wraps.  `minstret` counts the iterations that have
executed an instruction, and `mcycle` lies between the least and the greatest cost of as
many.  The reads of the CSRs by the guest are the values of these counters.
-/

namespace Rvem.Counters

open Rvem.Arch
open Rvem.State
open Rvem.Main
open Rvem.Fields
open Rvem.FlatMap
open Rvem.StepEffect
open Rvem.Run

variable {w : ℕ}

/-! ## Cycles of one step -/

theorem alignStalls_le (addr : BitVec w) (size : Option ℕ) :
    alignStalls addr size ≤ 1 := by
  cases size with
  | none => exact Nat.zero_le 1
  | some n => exact Bool.toNat_le _

theorem readStalls_le (addr : BitVec w) (op : Byte) : readStalls addr op ≤ 1 := by
  unfold readStalls
  split
  · exact alignStalls_le _ _
  · exact Nat.zero_le 1

theorem writeStalls_le (addr : BitVec w) (op : Byte) : writeStalls addr op ≤ 1 := by
  unfold writeStalls
  split
  · exact alignStalls_le _ _
  · exact Nat.zero_le 1

/-- No instruction stalls longer than the hazards of a branch allow, plus one
cycle for a taken branch or an unaligned data access. -/
theorem effect_stalls_le (m : Bool) (s : Machine w) (raw : Word) :
    (effect m s raw).stalls ≤ branchStalls s.perfModel (decoded w raw) + 1 := by
  have hdata : dataStalls s.perfModel (decoded w raw) ≤
      branchStalls s.perfModel (decoded w raw) := Nat.le_add_left _ _
  have hload := readStalls_le (loadAddr s.cpu raw) (getFunct3 raw)
  have hstore := writeStalls_le (storeAddr s.cpu raw) (getFunct3 raw)
  have htaken := Bool.toNat_le (taken s.cpu raw)
  cases hclass : opClass w (getOpcode raw) <;>
    simp only [effect, hclass, skip, sysStalls] <;>
    (try split) <;> omega

theorem branchStalls_le (model : PerfModel) (instr : Instr) :
    branchStalls model instr ≤ 3 := by
  have hwrite := Bool.toNat_le (writeHazard model instr)
  have hmemory := Bool.toNat_le (memoryBranchHazard model instr)
  have hdata := Bool.toNat_le (dataHazard model instr)
  rw [branchStalls]
  omega

/-- After reset there is nothing to wait for. -/
theorem branchStalls_init (instr : Instr) : branchStalls PerfModel.init instr = 0 := rfl

/-- Cycles of fetch and execution together. -/
def stepCycles (m : Bool) (s : Machine w) : ℕ :=
  readStalls s.cpu.pc memW + (stepEffect m s).stalls + 1

theorem stepCycles_pos (m : Bool) (s : Machine w) : 1 ≤ stepCycles m s :=
  Nat.le_add_left 1 _

/-- One iteration costs at most six cycles. -/
theorem stepCycles_le (m : Bool) (s : Machine w) : stepCycles m s ≤ 6 := by
  have hfetch := readStalls_le s.cpu.pc memW
  have hexec := effect_stalls_le m (afterFetch s) (fetchedWord s.cpu)
  have hbranch := branchStalls_le s.perfModel (decoded w (fetchedWord s.cpu))
  rw [afterFetch_perfModel] at hexec
  rw [stepCycles, stepEffect]
  omega

theorem step_mcycle (m : Bool) (s : Machine w) :
    (step m s).mcycle = s.mcycle + BitVec.ofNat 64 (stepCycles m s) := by
  simp only [step, Effect.apply, afterFetch, advance, stepCycles]
  rw [BitVec.add_assoc, ← BitVec.ofNat_add, add_assoc]

theorem toNat_add_ofNat {x : BitVec 64} {d : ℕ} (hfits : x.toNat + d < 2 ^ 64) :
    (x + BitVec.ofNat 64 d).toNat = x.toNat + d := by
  rw [BitVec.toNat_add, BitVec.toNat_ofNat, Nat.mod_eq_of_lt (by omega : d < 2 ^ 64),
    Nat.mod_eq_of_lt hfits]

/-- Below the cycle limit the counter does not wrap. -/
theorem toNat_step_mcycle (m : Bool) {s : Machine w}
    (hcycles : s.mcycle.toNat < maxCycles) :
    (step m s).mcycle.toNat = s.mcycle.toNat + stepCycles m s := by
  have hcost := stepCycles_le m s
  rw [maxCycles] at hcycles
  rw [step_mcycle, toNat_add_ofNat (by omega)]

theorem toNat_afterFetch_mcycle {s : Machine w}
    (hcycles : s.mcycle.toNat < maxCycles) :
    (afterFetch s).mcycle.toNat = s.mcycle.toNat + readStalls s.cpu.pc memW := by
  have hfetch := readStalls_le s.cpu.pc memW
  rw [maxCycles] at hcycles
  exact toNat_add_ofNat (by omega)

/-! ## The invariant of the main loop -/

/-- The pipeline as it is after reset: nothing executed, pc aligned. -/
def Fresh (s : Machine w) : Prop :=
  s.mcycle = 4 ∧ s.perfModel = PerfModel.init ∧ s.cpu.pc = 0

theorem Fresh.fetch_stalls {s : Machine w} (hfresh : Fresh s) :
    readStalls s.cpu.pc memW = 0 :=
  readStalls_of_aligned loadSize_memW (by rw [hfresh.2.2]; rfl)

/-- The first instruction is fetched from an aligned pc without hazards. -/
theorem Fresh.stepCycles_le (m : Bool) {s : Machine w} (hfresh : Fresh s) :
    stepCycles m s ≤ 2 := by
  have hexec := effect_stalls_le m (afterFetch s) (fetchedWord s.cpu)
  rw [afterFetch_perfModel, hfresh.2.1, branchStalls_init] at hexec
  rw [stepCycles, stepEffect, hfresh.fetch_stalls]
  omega

/-- The counters of a state reached after `n` calls of `process_instr`. -/
structure CountersAfter (n : ℕ) (s : Machine w) : Prop where
  minstret : s.minstret.toNat = n
  low : n + 4 ≤ s.mcycle.toNat
  high : s.mcycle.toNat ≤ 6 * n + 4
  executed : n ≤ maxCycles - 4
  limit : s.mcycle.toNat ≤ maxCycles + 5

/-- A state from which the loop goes on leaves room below the upper bound for the
fetch of a word that is not executed. -/
def Spare (n : ℕ) (s : Machine w) : Prop :=
  Fresh s ∨ s.mcycle.toNat ≤ 6 * n

/-- One executed instruction moves the counters on and keeps both bounds. -/
theorem CountersAfter.execute (m : Bool) {n : ℕ} {s : Machine w}
    (hcounters : CountersAfter n s) (hspare : Spare n s)
    (hcycles : s.mcycle.toNat < maxCycles) :
    CountersAfter (n + 1) (step m s) ∧ Spare (n + 1) (step m s) := by
  obtain ⟨hret, hlow, hhigh, -, -⟩ := hcounters
  have hmcycle := toNat_step_mcycle m hcycles
  have hpos := stepCycles_pos m s
  have hcost := Counters.stepCycles_le m s
  have hexact : s.mcycle.toNat + stepCycles m s ≤ 6 * (n + 1) := by
    rcases hspare with hfresh | hbound
    · have hfirst := hfresh.stepCycles_le m
      have hstart : s.mcycle.toNat = 4 := by rw [hfresh.1]; rfl
      omega
    · omega
  have hminstret : (step m s).minstret.toNat = n + 1 := by
    have hfits : s.minstret.toNat + 1 < 2 ^ 64 := by
      rw [maxCycles] at hcycles
      omega
    exact (toNat_add_ofNat hfits).trans (congrArg (· + 1) hret)
  refine ⟨⟨hminstret, ?_, ?_, ?_, ?_⟩, .inr (hmcycle.trans_le hexact)⟩ <;> omega

/-- A zero word costs at most the stall of its fetch. -/
theorem CountersAfter.fetch {n : ℕ} {s : Machine w}
    (hcounters : CountersAfter n s) (hspare : Spare n s)
    (hcycles : s.mcycle.toNat < maxCycles) : CountersAfter n (afterFetch s) := by
  obtain ⟨hret, hlow, hhigh, hexecuted, -⟩ := hcounters
  have hmcycle := toNat_afterFetch_mcycle hcycles
  have hfetch := readStalls_le s.cpu.pc memW
  have hexact : s.mcycle.toNat + readStalls s.cpu.pc memW ≤ 6 * n + 4 := by
    rcases hspare with hfresh | hbound
    · rw [hfresh.fetch_stalls]
      exact hhigh
    · omega
  exact ⟨hret, by omega, by omega, hexecuted, by omega⟩

/-- The invariant of the main loop after `n` calls of `process_instr`. -/
structure CounterInvariant (n : ℕ) (c : MainState w) : Prop where
  counters : CountersAfter n c.machine
  spare : c.looping = true → Spare n c.machine

/-- One iteration keeps the invariant and counts its call, if it makes one. -/
theorem CounterInvariant.next (m : Bool) {n : ℕ} {c : MainState w}
    (hinv : CounterInvariant n c) :
    CounterInvariant (n + (nextCall c).toList.length) (loopNext m c) := by
  rcases loopNext_cases m c with
    ⟨s, rfl, hcycles, hnext, hstep⟩ | ⟨s, rfl, hcycles, -, hnext, hstep⟩ |
      ⟨-, hnext, hstep⟩ <;>
    rw [nextCall, hnext, hstep]
  · obtain ⟨hcounters, hspare⟩ :=
      hinv.counters.execute m (hinv.spare (loopGuard_of_lt hcycles)) hcycles
    exact ⟨hcounters, fun _ => hspare⟩
  · refine ⟨hinv.counters.fetch (hinv.spare (loopGuard_of_lt hcycles)) hcycles, ?_⟩
    intro hfailed
    cases hfailed
  · exact hinv

/-! ## Runs from reset -/

section Runs

variable (b : Build) (rom : Fin romSize → Byte)

/-- Number of `process_instr` calls completed in the first `k` iterations. -/
def completed (k : ℕ) : ℕ :=
  (mainCalls b rom k).length

theorem completed_succ (k : ℕ) :
    completed b rom (k + 1) =
      completed b rom k + (nextCall (mainAfter b rom k)).toList.length := by
  rw [completed, mainCalls_succ, List.length_append, ← completed]

/-- The invariant holds after every number of iterations. -/
theorem counterInvariant (k : ℕ) :
    CounterInvariant (completed b rom k) (mainAfter b rom k) := by
  induction k with
  | zero =>
      refine ⟨⟨rfl, le_refl _, le_refl _, Nat.zero_le _, ?_⟩, ?_⟩
      · change 4 ≤ maxCycles + 5
        norm_num [maxCycles]
      · intro _
        exact .inl ⟨rfl, rfl, rfl⟩
  | succ k ih =>
      rw [completed_succ, mainAfter_succ]
      exact ih.next b.mExt

/-- As long as the loop goes on, every iteration has executed an instruction. -/
theorem completed_of_looping {k : ℕ} (hlooping : (mainAfter b rom k).looping = true) :
    completed b rom k = k := by
  induction k with
  | zero => rfl
  | succ k ih =>
      rw [mainAfter_succ] at hlooping
      rcases loopNext_cases b.mExt (mainAfter b rom k) with
        ⟨s, hstate, hcycles, hnext, -⟩ | ⟨s, -, -, -, -, hstep⟩ | ⟨hleft, -, hstep⟩
      · rw [hstate] at ih
        rw [completed_succ, ih (loopGuard_of_lt hcycles), nextCall, hnext]
        rfl
      · rw [hstep] at hlooping
        cases hlooping
      · rw [hstep, hleft] at hlooping
        cases hlooping

/-- Each iteration costs a cycle, so the limit ends the loop if nothing else does. -/
theorem terminates : (mainAfter b rom (maxCycles - 4)).looping = false := by
  by_contra hlooping
  rw [Bool.not_eq_false] at hlooping
  have hlow := (counterInvariant b rom (maxCycles - 4)).counters.low
  rw [completed_of_looping b rom hlooping] at hlow
  cases hstate : mainAfter b rom (maxCycles - 4) with
  | failed s =>
      rw [hstate] at hlooping
      cases hlooping
  | loop instrLoop s =>
      rw [hstate] at hlooping hlow
      simp only [MainState.looping, loopGuard, Bool.and_eq_true,
        decide_eq_true_eq] at hlooping
      have hcycles := hlooping.2
      simp only [MainState.machine] at hlow
      omega

/-- The cycle counter never runs backwards. -/
theorem mcycle_mono {i j : ℕ} (hij : i ≤ j) :
    (mainAfter b rom i).machine.mcycle.toNat ≤
      (mainAfter b rom j).machine.mcycle.toNat := by
  induction j, hij using Nat.le_induction with
  | base => exact le_refl _
  | succ j hij ih =>
      apply ih.trans
      rw [mainAfter_succ]
      rcases loopNext_cases b.mExt (mainAfter b rom j) with
        ⟨s, hstate, hcycles, -, hstep⟩ | ⟨s, hstate, hcycles, -, -, hstep⟩ |
          ⟨-, -, hstep⟩ <;>
        rw [hstep]
      · rw [hstate]
        exact (Nat.le_add_right _ _).trans_eq (toNat_step_mcycle b.mExt hcycles).symm
      · rw [hstate]
        exact (Nat.le_add_right _ _).trans_eq (toNat_afterFetch_mcycle hcycles).symm

end Runs

/-! ## What a CSR instruction sees -/

/-- `raw` is a CSR instruction that reads number `csr` into a register other than
`x0`. -/
structure ReadsCsr (raw csr : Word) : Prop where
  opcode : getOpcode raw = 0x73
  funct3 : getFunct3 raw ≠ 0 ∧ getFunct3 raw ≠ 4
  number : raw >>> 20 = csr
  dest : rd raw ≠ 0

def ReadsCycle (raw : Word) : Prop :=
  ReadsCsr raw csrMcycle ∨ ReadsCsr raw csrCycle

def ReadsInstret (raw : Word) : Prop :=
  ReadsCsr raw csrMinstret ∨ ReadsCsr raw csrInstret

/-- The high halves, which only RV32 has. -/
def ReadsHigh (raw : Word) : Prop :=
  (ReadsCsr raw csrMcycleh ∨ ReadsCsr raw csrCycleh) ∨
    ReadsCsr raw csrMinstreth ∨ ReadsCsr raw csrInstreth

/-- The state in which `step` evaluates `read_csr`. -/
def readState (s : Machine w) : Machine w :=
  advance (afterFetch s) (sysStalls (afterFetch s) (fetchedWord s.cpu)) []

theorem csrNumber_eq (hw : w = 32 ∨ w = 64) (raw : Word) :
    (getImm12 w raw).setWidth 32 = raw >>> 20 := by
  have hraw := raw.isLt
  have hpow := two_pow_xlen_ge hw
  apply BitVec.eq_of_toNat_eq
  rw [getImm12, BitVec.toNat_setWidth, BitVec.toNat_setWidth, toNat_imm12,
    BitVec.toNat_ushiftRight, Nat.shiftRight_eq_div_pow,
    Nat.mod_eq_of_lt (by omega : raw.toNat / 2 ^ 20 < 2 ^ w),
    Nat.mod_eq_of_lt (by omega)]

theorem ReadsCsr.opClass_eq {raw csr : Word} (hreads : ReadsCsr raw csr) :
    opClass w (getOpcode raw) = .sys := by
  rw [hreads.opcode]
  simp [opClass]

theorem ReadsCsr.sysValue_eq (hw : w = 32 ∨ w = 64) {raw csr : Word}
    (hreads : ReadsCsr raw csr) (s : Machine w) :
    sysValue s raw = some (readCsr (advance s (sysStalls s raw) []) csr) := by
  have hsmall : (getFunct3 raw).toNat < 8 := by
    rw [toNat_getFunct3]
    exact Nat.mod_lt _ (by norm_num)
  obtain ⟨hne0, hne4⟩ := hreads.funct3
  have hcases : (getFunct3 raw = csrRw ∨ getFunct3 raw = csrRwi) ∨
      (getFunct3 raw = csrRs ∨ getFunct3 raw = csrRsi) ∨
      getFunct3 raw = csrRc ∨ getFunct3 raw = csrRci := by
    simp only [csrRw, csrRwi, csrRs, csrRsi, csrRc, csrRci]
    bv_omega
  have hread : csrRead s raw = readCsr (advance s (sysStalls s raw) []) csr := by
    rw [csrRead, csrNumber_eq hw, hreads.number]
  rw [sysValue, hread]
  by_cases hrw : getFunct3 raw = csrRw ∨ getFunct3 raw = csrRwi
  · simp only [hrw, if_true, ne_eq, hreads.dest, not_false_iff]
  · simp only [hrw, if_false, hcases.resolve_left hrw, if_true]

/-- The register named by the instruction receives the CSR as it is after the
fetch and the hazard test. -/
theorem ReadsCsr.step_regfile (hw : w = 32 ∨ w = 64) (m : Bool) {s : Machine w}
    {csr : Word} (hreads : ReadsCsr (fetchedWord s.cpu) csr) :
    (step m s).cpu.regfile (rd (fetchedWord s.cpu)) = readCsr (readState s) csr := by
  simp only [step, stepEffect, Effect.apply, effect, hreads.opClass_eq,
    hreads.sysValue_eq hw, regfileAfter, hreads.dest, if_false, if_true,
    Option.getD_some]
  rfl

theorem ReadsCsr.stepCycles_eq (m : Bool) {s : Machine w} {csr : Word}
    (hreads : ReadsCsr (fetchedWord s.cpu) csr) :
    stepCycles m s = readStalls s.cpu.pc memW
      + sysStalls (afterFetch s) (fetchedWord s.cpu) + 1 := by
  simp only [stepCycles, stepEffect, effect, hreads.opClass_eq]

/-- The counter at the CSR read lies between its values before and after the
instruction. -/
theorem ReadsCsr.readState_mcycle (m : Bool) {s : Machine w} {csr : Word}
    (hreads : ReadsCsr (fetchedWord s.cpu) csr)
    (hcycles : s.mcycle.toNat < maxCycles) :
    s.mcycle.toNat ≤ (readState s).mcycle.toNat ∧
      (readState s).mcycle.toNat + 1 = (step m s).mcycle.toNat := by
  have hcost := Counters.stepCycles_le m s
  have hfetched := toNat_afterFetch_mcycle hcycles
  have hstep := toNat_step_mcycle m hcycles
  rw [hreads.stepCycles_eq] at hcost hstep
  have hread : (readState s).mcycle.toNat = s.mcycle.toNat
      + readStalls s.cpu.pc memW + sysStalls (afterFetch s) (fetchedWord s.cpu) := by
    rw [maxCycles] at hcycles
    rw [← hfetched]
    exact toNat_add_ofNat (by omega)
  omega

/-- A counter below `2 ^ 32` fits a register of either width. -/
theorem toNat_setWidth_counter (hw : w = 32 ∨ w = 64) {x : BitVec 64}
    (hx : x.toNat < 2 ^ 32) : (x.setWidth w).toNat = x.toNat := by
  rw [BitVec.toNat_setWidth]
  exact Nat.mod_eq_of_lt (hx.trans_le (two_pow_xlen_ge hw))

theorem shiftRight_counter {x : BitVec 64} (hx : x.toNat < 2 ^ 32) : x >>> 32 = 0 := by
  apply BitVec.eq_of_toNat_eq
  rw [BitVec.toNat_ushiftRight, Nat.shiftRight_eq_div_pow, Nat.div_eq_of_lt hx]
  rfl

theorem readCsr_cycle (s : Machine w) {csr : Word}
    (hcsr : csr = csrMcycle ∨ csr = csrCycle) :
    readCsr s csr = s.mcycle.setWidth w :=
  if_pos hcsr

theorem readCsr_instret (s : Machine w) {csr : Word}
    (hcsr : csr = csrMinstret ∨ csr = csrInstret) :
    readCsr s csr = s.minstret.setWidth w := by
  rcases hcsr with rfl | rfl <;> rfl

theorem readCsr_high (s : Machine w) {csr : Word}
    (hmcycle : s.mcycle.toNat < 2 ^ 32) (hminstret : s.minstret.toNat < 2 ^ 32)
    (hcsr : (csr = csrMcycleh ∨ csr = csrCycleh) ∨
      csr = csrMinstreth ∨ csr = csrInstreth) : readCsr s csr = 0 := by
  by_cases hw : w = 64
  · rcases hcsr with (rfl | rfl) | rfl | rfl <;>
      simp [readCsr, hw, csrMcycle, csrCycle, csrMinstret, csrInstret, csrMcycleh,
        csrCycleh, csrMinstreth, csrInstreth]
  · rcases hcsr with (rfl | rfl) | rfl | rfl <;>
      simp [readCsr, hw, csrMcycle, csrCycle, csrMinstret, csrInstret, csrMcycleh,
        csrCycleh, csrMinstreth, csrInstreth, shiftRight_counter hmcycle,
        shiftRight_counter hminstret]

/-! ## The main result -/

/-- An iteration of the main loop that executes `word` after `n` completed calls:
what it does to the counters and what the instruction sees of them. -/
structure ExecutedIteration (n : ℕ) (word : Word) (s s' : Machine w) : Prop where
  rises : s.mcycle.toNat + 1 ≤ s'.mcycle.toNat ∧
    s'.mcycle.toNat ≤ s.mcycle.toNat + 6
  instret_seen : ReadsInstret word → (s'.cpu.regfile (rd word)).toNat = n
  cycle_seen : ReadsCycle word →
    s.mcycle.toNat ≤ (s'.cpu.regfile (rd word)).toNat ∧
      (s'.cpu.regfile (rd word)).toNat < s'.mcycle.toNat
  high_seen : ReadsHigh word → (s'.cpu.regfile (rd word)).toNat = 0

theorem executedIteration (hw : w = 32 ∨ w = 64) (m : Bool) {n : ℕ} {s : Machine w}
    (hcounters : CountersAfter n s) (hcycles : s.mcycle.toNat < maxCycles) :
    ExecutedIteration n (fetchedWord s.cpu) s (step m s) := by
  have hsmall : maxCycles + 5 < 2 ^ 32 := by norm_num [maxCycles]
  have hexecuted := hcounters.executed
  have hminstret : (readState s).minstret.toNat < 2 ^ 32 := by
    change s.minstret.toNat < 2 ^ 32
    rw [hcounters.minstret]
    omega
  constructor
  · have hpos := stepCycles_pos m s
    have hcost := stepCycles_le m s
    rw [toNat_step_mcycle m hcycles]
    omega
  · rintro (hreads | hreads) <;>
      rw [hreads.step_regfile hw, readCsr_instret _ (by simp),
        toNat_setWidth_counter hw hminstret] <;>
      exact hcounters.minstret
  · rintro (hreads | hreads) <;>
      obtain ⟨hlow, hnext⟩ := hreads.readState_mcycle m hcycles <;>
      have hcost := toNat_step_mcycle m hcycles <;>
      have hmost := stepCycles_le m s <;>
      rw [hreads.step_regfile hw, readCsr_cycle _ (by simp),
        toNat_setWidth_counter hw (by omega)] <;>
      omega
  · have hmcycle : ∀ {csr}, ReadsCsr (fetchedWord s.cpu) csr →
        (readState s).mcycle.toNat < 2 ^ 32 := by
      intro csr hreads
      have hnext := (hreads.readState_mcycle m hcycles).2
      have hcost := toNat_step_mcycle m hcycles
      have hmost := stepCycles_le m s
      omega
    rintro ((hreads | hreads) | hreads | hreads) <;>
      rw [hreads.step_regfile hw,
        readCsr_high _ (hmcycle hreads) hminstret (by simp)] <;>
      rfl

section Runs

variable (b : Build) (rom : Fin romSize → Byte)

/-- The iteration after the first `k`, if it executes `word`. -/
theorem executedIteration_main {k : ℕ} {word : Word}
    (hnext : nextWord (mainAfter b rom k) = some word) :
    completed b rom (k + 1) = completed b rom k + 1 ∧
      ExecutedIteration (completed b rom k) word (mainAfter b rom k).machine
        (mainAfter b rom (k + 1)).machine := by
  have hcounters := (counterInvariant b rom k).counters
  rcases loopNext_cases b.mExt (mainAfter b rom k) with
    ⟨s, hstate, hcycles, hword, hstep⟩ | ⟨s, -, -, -, hnone, -⟩ | ⟨-, hnone, -⟩
  · obtain rfl : fetchedWord s.cpu = word :=
      Option.some.inj (hword.symm.trans hnext)
    rw [mainAfter_succ, hstep, completed_succ, nextCall, hnext, hstate]
    rw [hstate] at hcounters
    exact ⟨rfl, executedIteration b.xlen_eq b.mExt hcounters hcycles⟩
  · rw [hnone] at hnext
    cases hnext
  · rw [hnone] at hnext
    cases hnext

/-- For every ROM image the main loop terminates, the counters stay within their
bounds and never wrap, every executed instruction costs one to six cycles, and
counter reads see exact and strictly increasing values. -/
theorem run_counters (b : Build) (rom : Fin romSize → Byte) :
    (∃ k ≤ maxCycles - 4, ∃ c, runLoop b.mExt k (initMain b.xlen rom) = some c ∧
      c.looping = false) ∧
    (∀ k, ∃ c, runLoop b.mExt k (initMain b.xlen rom) = some c ∧
      CountersAfter (completed b rom k) c.machine) ∧
    (∀ k c word, runLoop b.mExt k (initMain b.xlen rom) = some c →
      nextWord c = some word →
      ∃ c', loopStep b.mExt c = some c' ∧
        completed b rom (k + 1) = completed b rom k + 1 ∧
        ExecutedIteration (completed b rom k) word c.machine c'.machine) ∧
    ∀ i j c c' d d' u v, i < j →
      runLoop b.mExt i (initMain b.xlen rom) = some c →
      runLoop b.mExt j (initMain b.xlen rom) = some d →
      nextWord c = some u → nextWord d = some v →
      loopStep b.mExt c = some c' → loopStep b.mExt d = some d' →
      ReadsCycle u → ReadsCycle v →
      (c'.machine.cpu.regfile (rd u)).toNat < (d'.machine.cpu.regfile (rd v)).toNat := by
  simp only [runLoop_main, loopStep_eq b.xlen_eq, Option.some.injEq, exists_eq_left']
  refine ⟨⟨_, le_refl _, terminates b rom⟩, ?_, ?_, ?_⟩
  · intro k
    exact (counterInvariant b rom k).counters
  · rintro k c word rfl hnext
    rw [← mainAfter_succ]
    exact executedIteration_main b rom hnext
  · rintro i j c c' d d' u v hij rfl rfl hfirst hsecond rfl rfl hu hv
    rw [← mainAfter_succ, ← mainAfter_succ]
    have hread := ((executedIteration_main b rom hfirst).2.cycle_seen hu).2
    have hlater := ((executedIteration_main b rom hsecond).2.cycle_seen hv).1
    exact (hread.trans_le (mcycle_mono b rom hij)).trans_le hlater

end Runs

end Rvem.Counters
