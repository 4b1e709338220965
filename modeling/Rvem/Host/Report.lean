import Rvem.Host.GuestCalls
import Rvem.Timing.Counters
import Rvem.Timing.Transparent

/-!
# The report after the loop

`main` decides what to report from the cycle counter alone.  The report tells how
the run ended exactly when the run meets no zero or unmapped word, for which
`main` returns without a report, and the guest's exit retires below the cycle
limit; an exit that lands on the limit is reported as a run that did not exit.
-/

namespace Rvem.Report

open Rvem.Arch
open Rvem.State
open Rvem.Core
open Rvem.Main
open Rvem.Fields
open Rvem.StepEffect
open Rvem.Run
open Rvem.Code
open Rvem.Counters
open Rvem.GuestCalls

variable {w : ℕ}

/-! ## How the loop ends -/

/-- Cycles from the call of `process_instr` for a word that stops the run to the
end of the call. -/
def exitCycles (s : Machine w) (word : Word) : ℕ :=
  dataStalls s.perfModel (decoded w word) + 1

theorem stalls_of_stopsRun (m : Bool) {s : Machine w} {word : Word}
    (hstops : StopsRun s.cpu word) :
    (effect m s word).stalls + 1 = exitCycles s word := by
  obtain ⟨⟨hopcode, hesys⟩, -⟩ := hstops
  have hclass := (opClass_sys_iff (w := w) word).mpr hopcode
  have hregister : csrImm (getFunct3 word) = false := by
    rw [hesys]
    decide
  simp only [effect, hclass]
  rw [sysStalls, hregister]
  rfl

section Runs

variable (b : Build) (rom : Fin romSize → Byte)

/-- The last call of `process_instr` in the first `k` iterations, if there was
one, has returned true: `instr_loop` still asks to continue. -/
def AsksToContinue (k : ℕ) : Prop :=
  ∀ call ∈ (mainCalls b rom k).getLast?,
    ∃ s, processInstr b.mExt call.1 call.2 = some (s, true)

/-- The last call asked to continue unless it was made on a word that the code takes for
an exit or a breakpoint. -/
theorem asksToContinue_iff (k : ℕ) : AsksToContinue b rom k ↔
    ¬∃ call, (mainCalls b rom k).getLast? = some call ∧ StopsRun call.1.cpu call.2 := by
  have hresult (call : Machine b.xlen × Word) :
      (∃ s, processInstr b.mExt call.1 call.2 = some (s, true)) ↔
        ¬StopsRun call.1.cpu call.2 := by
    rw [← execContinue_eq_false_iff b.mExt call.1 call.2, Bool.not_eq_false,
      processInstr_eq b.xlen_eq]
    simp
  simp only [AsksToContinue, Option.mem_def, hresult, not_exists, not_and]

/-- `main` after `k` iterations, seen from the last call of `process_instr`: the
local `instr_loop` is false exactly when that call stopped the run, and then the
counter is the one at the call plus the cycles of the call. -/
structure EndState (k : ℕ) : Prop where
  stopped : Transparent.control (mainAfter b rom k) = some false ↔
    ∃ call, (mainCalls b rom k).getLast? = some call ∧ StopsRun call.1.cpu call.2
  cycles : ∀ call, (mainCalls b rom k).getLast? = some call →
    StopsRun call.1.cpu call.2 →
    (mainAfter b rom k).machine.mcycle.toNat =
      call.1.mcycle.toNat + exitCycles call.1 call.2

theorem endState_executed {k : ℕ} {s : Machine b.xlen}
    (hcycles : s.mcycle.toNat < maxCycles)
    (hstate : mainAfter b rom (k + 1) = .loop (stepContinues b.mExt s) (step b.mExt s))
    (hlast : (mainCalls b rom (k + 1)).getLast? =
      some (afterFetch s, fetchedWord s.cpu)) : EndState b rom (k + 1) := by
  have hcontinue := execContinue_eq_false_iff b.mExt (afterFetch s) (fetchedWord s.cpu)
  refine ⟨?_, ?_⟩
  · rw [hstate, hlast]
    simp only [Transparent.control, Option.some.injEq, exists_eq_left']
    exact hcontinue
  · intro call hcall hstops
    rw [hlast, Option.some.injEq] at hcall
    subst hcall
    rw [hstate, MainState.machine, toNat_step_mcycle b.mExt hcycles,
      toNat_afterFetch_mcycle hcycles, ← stalls_of_stopsRun b.mExt hstops, add_assoc]
    rfl

/-- `EndState` holds after every number of iterations: an iteration that executes an
instruction makes it so, and the others leave the loop or change nothing. -/
theorem endState (k : ℕ) : EndState b rom k := by
  induction k with
  | zero =>
      have hnone : (mainCalls b rom 0).getLast? = none := rfl
      constructor
      · rw [hnone]
        simp [Transparent.control, mainAfter, initMain]
      · intro call hcall
        rw [hnone] at hcall
        cases hcall
  | succ k ih =>
      have hcalls := mainCalls_succ b rom k
      have hsucc := mainAfter_succ b rom k
      rcases loopNext_cases b.mExt (mainAfter b rom k) with
        ⟨s, hstate, hcycles, hnext, hstep⟩ | ⟨s, hstate, hcycles, -, hnext, hstep⟩ |
          ⟨-, hnext, hstep⟩ <;>
        rw [hstep] at hsucc <;>
        rw [nextCall, hnext] at hcalls
      · apply endState_executed b rom hcycles hsucc
        rw [hcalls, hstate]
        simp [MainState.machine]
      · rw [Option.map_none, Option.toList_none, List.append_nil] at hcalls
        have hrunning : ¬∃ call, (mainCalls b rom k).getLast? = some call ∧
            StopsRun call.1.cpu call.2 := by
          rw [← ih.stopped, hstate]
          simp [Transparent.control]
        refine ⟨?_, ?_⟩
        · rw [hcalls, hsucc]
          simp only [Transparent.control, reduceCtorEq, false_iff]
          exact hrunning
        · intro call hcall hstops
          rw [hcalls] at hcall
          exact absurd ⟨call, hcall, hstops⟩ hrunning
      · rw [Option.map_none, Option.toList_none, List.append_nil] at hcalls
        refine ⟨?_, ?_⟩
        · rw [hcalls, hsucc]
          exact ih.stopped
        · rw [hcalls, hsucc]
          exact ih.cycles

/-- The loop is left by `return 1` exactly when an iteration fetches a word that
is zero or not mapped. -/
theorem failed_iff (k : ℕ) : Transparent.control (mainAfter b rom k) = none ↔
    ∃ j < k, (mainAfter b rom j).looping = true ∧
      fetchedWord (mainAfter b rom j).machine.cpu = 0 := by
  induction k with
  | zero => simp [Transparent.control, mainAfter, initMain]
  | succ k ih =>
      have hsucc := mainAfter_succ b rom k
      simp only [Nat.lt_succ_iff_lt_or_eq, or_and_right, exists_or, exists_eq_left, ← ih]
      rcases loopNext_cases b.mExt (mainAfter b rom k) with
        ⟨s, hstate, hcycles, hnext, hstep⟩ | ⟨s, hstate, hcycles, hzero, -, hstep⟩ |
          ⟨hleft, -, hstep⟩ <;>
        rw [hstep] at hsucc <;> rw [hsucc]
      · have hword : fetchedWord s.cpu ≠ 0 := by
          intro hzero
          rw [hstate] at hnext
          simp [nextWord, hzero] at hnext
        rw [hstate]
        apply iff_of_false (Option.some_ne_none _)
        rintro (hbefore | ⟨-, hzero⟩)
        · cases hbefore
        · exact hword hzero
      · have hguard : loopGuard true s = true := loopGuard_of_lt hcycles
        rw [hstate]
        exact iff_of_true rfl (.inr ⟨hguard, hzero⟩)
      · simp [hleft]

/-! ## The main result -/

/-- The report printed in state `c`, reached after `k` iterations, tells how the
run ended: it is that of a run without an exit if `instr_loop` is still true, and
gives the cycles if the guest has asked to stop. -/
structure TruthfulReport (k : ℕ) (c : MainState b.xlen) : Prop where
  hitCycleLimit : .hitCycleLimit ∈ report c ↔ AsksToContinue b rom k
  totalCycles : .totalCycles c.machine.mcycle.toNat ∈ report c ↔
    ∃ call, (mainCalls b rom k).getLast? = some call ∧
      RequestsStop call.1.cpu call.2

/-- No iteration fetches a word that is zero or not mapped, and if the last call
stops the run, it does so for an ECALL or EBREAK and retires below the cycle
limit. -/
structure ExitsBelowLimit (k : ℕ) : Prop where
  fetches : ∀ j < k, (mainAfter b rom j).looping = true →
    fetchedWord (mainAfter b rom j).machine.cpu ≠ 0
  exits : ∀ call, (mainCalls b rom k).getLast? = some call → StopsRun call.1.cpu call.2 →
    RequestsStop call.1.cpu call.2 ∧
      call.1.mcycle.toNat + exitCycles call.1 call.2 < maxCycles

/-- No iteration has met a zero or unmapped word exactly if the loop was not left by the
return in its body. -/
theorem fetches_iff (k : ℕ) : Transparent.control (mainAfter b rom k) ≠ none ↔
    ∀ j < k, (mainAfter b rom j).looping = true →
      fetchedWord (mainAfter b rom j).machine.cpu ≠ 0 := by
  rw [ne_eq, failed_iff]
  simp only [not_exists, not_and, ne_eq]

/-- `main` returns for a zero word without a line, although no call has stopped
the run. -/
theorem truthful_of_failed {k : ℕ} {s : Machine b.xlen}
    (hstate : mainAfter b rom k = .failed s) :
    TruthfulReport b rom k (.failed s) ↔ ExitsBelowLimit b rom k := by
  apply iff_of_false
  · intro htruthful
    have hasks : AsksToContinue b rom k := by
      rw [asksToContinue_iff, ← (endState b rom k).stopped, hstate]
      exact Option.some_ne_none false ∘ Eq.symm
    exact List.not_mem_nil (htruthful.hitCycleLimit.mpr hasks)
  · intro hexits
    exact (fetches_iff b rom k).mpr hexits.fetches (by rw [hstate]; rfl)

/-- A run that the guest has not ended is reported as such. -/
theorem truthful_of_limit {k : ℕ} {s : Machine b.xlen}
    (hstate : mainAfter b rom k = .loop true s) (hlimit : ¬s.mcycle.toNat < maxCycles) :
    TruthfulReport b rom k (.loop true s) ↔ ExitsBelowLimit b rom k := by
  have hreport : report (.loop true s) = [.hitCycleLimit] := if_neg hlimit
  have hnone : ¬∃ call, (mainCalls b rom k).getLast? = some call ∧
      StopsRun call.1.cpu call.2 := by
    rw [← (endState b rom k).stopped, hstate]
    simp [Transparent.control]
  apply iff_of_true
  · refine ⟨?_, iff_of_false ?_ ?_⟩
    · rw [asksToContinue_iff, hreport]
      exact iff_of_true (List.mem_singleton_self _) hnone
    · rw [hreport]
      simp
    · rintro ⟨call, hcall, hrequest⟩
      exact hnone ⟨call, hcall, stopsRun_of_requestsStop b.xlen_eq hrequest⟩
  · refine ⟨?_, ?_⟩
    · rw [← fetches_iff, hstate]
      exact Option.some_ne_none true
    · intro call hcall hstops
      exact absurd ⟨call, hcall, hstops⟩ hnone

/-- A loop left by a call that stopped it is reported truthfully exactly if it is below
the cycle limit. -/
theorem truthful_of_stopped {k : ℕ} {s : Machine b.xlen}
    (hstate : mainAfter b rom k = .loop false s) :
    TruthfulReport b rom k (.loop false s) ↔ ExitsBelowLimit b rom k := by
  obtain ⟨call, hcall, hstops⟩ := (endState b rom k).stopped.mp (by rw [hstate]; rfl)
  have hcycles := (endState b rom k).cycles call hcall hstops
  rw [hstate, MainState.machine] at hcycles
  have hfetches :=
    (fetches_iff b rom k).mp (by rw [hstate]; exact Option.some_ne_none false)
  have hasks : ¬AsksToContinue b rom k := by
    rw [asksToContinue_iff, not_not]
    exact ⟨call, hcall, hstops⟩
  have hexits : ExitsBelowLimit b rom k ↔
      RequestsStop call.1.cpu call.2 ∧ s.mcycle.toNat < maxCycles := by
    rw [hcycles]
    constructor
    · intro h
      exact h.exits call hcall hstops
    · intro h
      refine ⟨hfetches, ?_⟩
      rintro last hlast -
      rw [hcall, Option.some.injEq] at hlast
      exact hlast ▸ h
  rw [hexits]
  by_cases hbelow : s.mcycle.toNat < maxCycles
  · have hreport : report (.loop false s) = [.totalCycles s.mcycle.toNat] := if_pos hbelow
    constructor
    · intro htruthful
      have htotal :=
        htruthful.totalCycles.mp (by rw [hreport]; exact List.mem_singleton_self _)
      obtain ⟨last, hlast, hrequest⟩ := htotal
      rw [hcall, Option.some.injEq] at hlast
      exact ⟨hlast ▸ hrequest, hbelow⟩
    · rintro ⟨hrequest, -⟩
      refine ⟨iff_of_false ?_ hasks, iff_of_true ?_ ⟨call, hcall, hrequest⟩⟩
      · rw [hreport]
        simp
      · rw [hreport]
        exact List.mem_singleton_self _
  · have hreport : report (.loop false s) = [.hitCycleLimit] := if_neg hbelow
    apply iff_of_false
    · intro htruthful
      exact hasks
        (htruthful.hitCycleLimit.mp (by rw [hreport]; exact List.mem_singleton_self _))
    · exact fun h => hbelow h.2

end Runs

/-- For every ROM image, the report printed when the loop is left tells how the run
ended exactly when the loop is not left for a zero or unmapped word, and the word
that stops the run, if there is one, is an ECALL or EBREAK and retires below the
cycle limit. -/
theorem report_truthful (b : Build) (rom : Fin romSize → Byte) (k : ℕ) :
    ∃ c, runLoop b.mExt k (initMain b.xlen rom) = some c ∧
      (c.looping = false → (TruthfulReport b rom k c ↔ ExitsBelowLimit b rom k)) := by
  refine ⟨_, runLoop_main b rom k, ?_⟩
  intro hleft
  cases hstate : mainAfter b rom k with
  | failed s => exact truthful_of_failed b rom hstate
  | loop instrLoop s =>
      cases instrLoop with
      | false => exact truthful_of_stopped b rom hstate
      | true =>
          have hlimit : ¬s.mcycle.toNat < maxCycles := by
            rw [hstate] at hleft
            simpa only [MainState.looping, loopGuard, Bool.true_and,
              decide_eq_false_iff_not] using hleft
          exact truthful_of_limit b rom hstate hlimit

/-! ## An exit on the limit -/

/-- A guest that counts `x5` down from `61035 * 4096 + 638` and then exits:
`lui x5, 61035; addi x5, x5, 638; nop; addi a0, x0, 10`, the loop
`addi x5, x5, -1; bne x5, x0, -4`, and `ecall`. -/
def limitWords : List Word :=
  [0x0EE6B2B7, 0x27E28293, 0x00000013, 0x00A00513, 0xFFF28293, 0xFE029EE3, 0x00000073]

def limitRom : Fin romSize → Byte := romOfWords limitWords

/-- The head of the loop with `n` passes to go. -/
structure AtLoopHead (n : ℕ) (s : Machine 32) : Prop where
  rom : s.cpu.rom = limitRom
  pc : s.cpu.pc = 16
  zero : s.cpu.regfile 0 = 0
  counter : s.cpu.regfile 5 = BitVec.ofNat 32 n
  number : s.cpu.regfile 10 = 10
  noLoad : s.perfModel.prevMemLoad = false
  cycles : s.mcycle.toNat + 4 * n = 1000000000

theorem setup_done :
    ∃ s, mainAfter rv32im limitRom 4 = .loop true s ∧ AtLoopHead 249999998 s := by
  have hcontrol : Transparent.control (mainAfter rv32im limitRom 4) = some true := by
    decide +kernel
  cases hstate : mainAfter rv32im limitRom 4 with
  | failed s =>
      rw [hstate] at hcontrol
      cases hcontrol
  | loop instrLoop s =>
      rw [hstate] at hcontrol
      obtain rfl : instrLoop = true := Option.some.inj hcontrol
      have hs : s = (mainAfter rv32im limitRom 4).machine := by rw [hstate]; rfl
      refine ⟨s, rfl, ?_, ?_, ?_, ?_, ?_, ?_, ?_⟩ <;> rw [hs]
      · exact mainAfter_rom rv32im limitRom 4
      all_goals decide +kernel

theorem fetchedWord_limitRom {s : Machine 32} {i : ℕ} {word : Word}
    (hrom : s.cpu.rom = limitRom) (hpc : s.cpu.pc.toNat = 4 * i)
    (hword : limitWords[i]? = some word) (hi : 4 * i + 4 ≤ romSize) :
    fetchedWord s.cpu = word := by
  apply fetchedWord_of_holds
  rw [hpc]
  exact holdsWord_romOfWords hrom hword hi

/-- State before the branch at the end of a pass. -/
structure AtBranch (n : ℕ) (s : Machine 32) : Prop where
  rom : s.cpu.rom = limitRom
  pc : s.cpu.pc = 20
  zero : s.cpu.regfile 0 = 0
  counter : s.cpu.regfile 5 = BitVec.ofNat 32 n
  number : s.cpu.regfile 10 = 10
  model : s.perfModel.prevRd = 5 ∧ s.perfModel.prevRegWrite = true ∧
    s.perfModel.prevMemLoad = false ∧ s.perfModel.prev2MemLoad = false
  cycles : s.mcycle.toNat + 4 * n + 3 = 1000000000

theorem ofNat_succ_sub_one (n : ℕ) :
    BitVec.ofNat 32 (n + 1) + -1 = BitVec.ofNat 32 n := by
  rw [BitVec.ofNat_add, BitVec.add_assoc]
  exact BitVec.add_zero _

theorem AtLoopHead.next {n : ℕ} {s : Machine 32} (hhead : AtLoopHead (n + 1) s) :
    ∃ s', loopNext true (.loop true s) = .loop true s' ∧ AtBranch n s' := by
  obtain ⟨hrom, hpc, hzero, hcounter, hnumber, hload, hcycles⟩ := hhead
  have hword : fetchedWord s.cpu = 0xFFF28293#32 :=
    fetchedWord_limitRom (i := 4) hrom (by rw [hpc]; rfl) rfl (by norm_num [romSize])
  obtain ⟨hcpu, hcontinues⟩ := step_addi (m := true) hword (by decide) (by decide)
  have himm : getSimm12 32 0xFFF28293#32 = -1 := by decide
  have hdecoded : decoded 32 0xFFF28293#32 = ⟨5, 0, 5, true, false⟩ := by decide
  have hbelow : s.mcycle.toNat < maxCycles := by
    rw [maxCycles]
    omega
  have hcost : stepCycles true s = 1 := by
    have hclass : opClass 32 (getOpcode 0xFFF28293#32) = .imm := by decide
    rw [stepCycles, readStalls_of_aligned loadSize_memW (by rw [hpc]; rfl), stepEffect,
      hword]
    simp [effect, hclass, dataStalls, dataHazard, hload]
  refine ⟨step true s, ?_, ?_⟩
  · rw [loopNext_of_looping (loopGuard_of_lt hbelow), loopBody, hword, hcontinues]
    rfl
  · constructor
    · rw [hcpu]
      exact hrom
    · rw [hcpu, hpc]
      rfl
    · rw [hcpu]
      rfl
    · rw [hcpu, himm]
      change s.cpu.regfile 5 + -1 = _
      rw [hcounter, ofNat_succ_sub_one]
    · rw [hcpu]
      exact hnumber
    · rw [step_perfModel hword, hdecoded]
      exact ⟨rfl, rfl, rfl, hload⟩
    · rw [toNat_step_mcycle true hbelow, hcost]
      omega

theorem AtBranch.stepCycles_eq {n : ℕ} {s : Machine 32} (hbranch : AtBranch n s)
    (hword : fetchedWord s.cpu = 0xFE029EE3#32) :
    stepCycles true s = 2 + (taken s.cpu 0xFE029EE3#32).toNat := by
  obtain ⟨-, hpc, -, -, -, ⟨hrd, hwrite, hload, hload2⟩, -⟩ := hbranch
  have hclass : opClass 32 (getOpcode 0xFE029EE3#32) = .branch := by decide
  have hdecoded : decoded 32 0xFE029EE3#32 = ⟨5, 0, 0, false, false⟩ := by decide
  rw [stepCycles, readStalls_of_aligned loadSize_memW (by rw [hpc]; rfl), stepEffect,
    hword]
  simp [effect, hclass, hdecoded, branchStalls, writeHazard, memoryBranchHazard,
    dataHazard, hrd, hwrite, hload, hload2]
  omega

theorem AtBranch.taken_eq {n : ℕ} {s : Machine 32} (hbranch : AtBranch n s) :
    taken s.cpu 0xFE029EE3#32 = (BitVec.ofNat 32 n != 0) := by
  have hrs1 : rs1 0xFE029EE3#32 = 5 := by decide
  have hrs2 : rs2 0xFE029EE3#32 = 0 := by decide
  have hfunct3 : getFunct3 0xFE029EE3#32 = branchNe := by decide
  rw [taken, hrs1, hrs2, hfunct3, hbranch.counter, hbranch.zero]
  rfl

/-- The branch goes back to the loop head while the counter is not zero. -/
theorem AtBranch.next {n : ℕ} {s : Machine 32} (hbranch : AtBranch n s)
    (hn : n < 2 ^ 32) :
    ∃ s', loopNext true (.loop true s) = .loop true s' ∧
      if n = 0 then
        s'.cpu.rom = limitRom ∧ s'.cpu.pc = 24 ∧ s'.cpu.regfile 10 = 10 ∧
          s'.perfModel.prevMemLoad = false ∧ s'.mcycle.toNat = 999999999
      else AtLoopHead n s' := by
  have htaken := hbranch.taken_eq
  have hcost := hbranch.stepCycles_eq
  obtain ⟨hrom, hpc, hzero, hcounter, hnumber, -, hcycles⟩ := hbranch
  have hword : fetchedWord s.cpu = 0xFE029EE3#32 :=
    fetchedWord_limitRom (i := 5) hrom (by rw [hpc]; rfl) rfl (by norm_num [romSize])
  obtain ⟨hcpu, hcontinues⟩ := step_branch (m := true) hword (by decide)
  have himm : getBranchImm 32 0xFE029EE3#32 = -4 := by decide
  have hdecoded : decoded 32 0xFE029EE3#32 = ⟨5, 0, 0, false, false⟩ := by decide
  have hbelow : s.mcycle.toNat < maxCycles := by
    rw [maxCycles]
    omega
  rw [himm, hpc] at hcpu
  have hstep := toNat_step_mcycle true hbelow
  rw [hcost hword] at hstep
  refine ⟨step true s, ?_, ?_⟩
  · rw [loopNext_of_looping (loopGuard_of_lt hbelow), loopBody, hword, hcontinues]
    rfl
  · by_cases hdone : n = 0
    · subst hdone
      have hnot : taken s.cpu 0xFE029EE3#32 = false := htaken
      rw [hnot] at hcpu hstep
      rw [if_pos rfl, hcpu, step_perfModel hword, hdecoded]
      refine ⟨hrom, rfl, hnumber, rfl, ?_⟩
      rw [hstep, Bool.toNat_false]
      omega
    · have hnonzero : BitVec.ofNat 32 n ≠ 0 := by
        intro hzero
        have hvalue := congrArg BitVec.toNat hzero
        rw [BitVec.toNat_ofNat, Nat.mod_eq_of_lt hn] at hvalue
        exact hdone hvalue
      have hyes : taken s.cpu 0xFE029EE3#32 = true := by
        rw [htaken]
        exact bne_iff_ne.mpr hnonzero
      rw [hyes] at hcpu hstep
      rw [if_neg hdone]
      constructor
      · rw [hcpu]
        exact hrom
      · rw [hcpu]
        rfl
      · rw [hcpu]
        rfl
      · rw [hcpu]
        exact hcounter
      · rw [hcpu]
        exact hnumber
      · rw [step_perfModel hword, hdecoded]
        rfl
      · rw [hstep, Bool.toNat_true]
        omega

/-- The countdown runs to its end. -/
theorem AtLoopHead.run {n : ℕ} (hn : n + 1 < 2 ^ 32) {s : Machine 32}
    (hhead : AtLoopHead (n + 1) s) :
    ∃ k s', (loopNext true)^[k] (.loop true s) = .loop true s' ∧
      s'.cpu.rom = limitRom ∧ s'.cpu.pc = 24 ∧ s'.cpu.regfile 10 = 10 ∧
      s'.perfModel.prevMemLoad = false ∧ s'.mcycle.toNat = 999999999 := by
  induction n generalizing s with
  | zero =>
      obtain ⟨s₁, hfirst, hbranch⟩ := hhead.next
      obtain ⟨s₂, hsecond, hexit⟩ := hbranch.next (by norm_num)
      refine ⟨2, s₂, ?_, hexit⟩
      rw [Function.iterate_succ_apply, Function.iterate_one, hfirst, hsecond]
  | succ n ih =>
      obtain ⟨s₁, hfirst, hbranch⟩ := hhead.next
      obtain ⟨s₂, hsecond, hagain⟩ := hbranch.next (by omega)
      rw [if_neg (Nat.succ_ne_zero n)] at hagain
      obtain ⟨k, s', hrun, hexit⟩ := ih (by omega) hagain
      refine ⟨k + 2, s', ?_, hexit⟩
      rw [Function.iterate_add_apply, Function.iterate_succ_apply, Function.iterate_one,
        hfirst, hsecond, hrun]

/-- A guest that executes its exit ECALL, reported as one that did not exit. -/
theorem exit_on_limit :
    ∃ k s, runLoop true k (initMain 32 limitRom) = some (.loop false s) ∧
    s.mcycle.toNat = maxCycles ∧ report (.loop false s) = [.hitCycleLimit] ∧
    ¬TruthfulReport rv32im limitRom k (.loop false s) := by
  obtain ⟨s₀, hsetup, hhead⟩ := setup_done
  obtain ⟨k, s, hrun, hrom, hpc, hnumber, hload, hcycles⟩ := hhead.run (by norm_num)
  have hword : fetchedWord s.cpu = 0x00000073#32 :=
    fetchedWord_limitRom (i := 6) hrom (by rw [hpc]; rfl) rfl (by norm_num [romSize])
  have hclass : opClass 32 (getOpcode 0x00000073#32) = .sys := by decide
  have hbelow : s.mcycle.toNat < maxCycles := by
    rw [hcycles]
    norm_num [maxCycles]
  have hstops : stepContinues true s = false := by
    rw [stepContinues, stepEffect, hword]
    simp only [effect, hclass, sysStops, afterFetch_cpu, hnumber]
    decide
  have hcost : stepCycles true s = 1 := by
    rw [stepCycles, readStalls_of_aligned loadSize_memW (by rw [hpc]; rfl), stepEffect,
      hword]
    simp [effect, hclass, sysStalls, dataStalls, dataHazard, hload]
  have hlast : (step true s).mcycle.toNat = maxCycles := by
    rw [toNat_step_mcycle true hbelow, hcost, hcycles]
    rfl
  have hstate : mainAfter rv32im limitRom (k + 1 + 4) = .loop false (step true s) := by
    rw [mainAfter, Function.iterate_add_apply]
    rw [mainAfter] at hsetup
    rw [hsetup, Function.iterate_succ_apply', hrun,
      loopNext_of_looping (loopGuard_of_lt hbelow), loopBody, hword, hstops]
    rfl
  have hreport : report (.loop false (step true s)) = [.hitCycleLimit] :=
    if_neg (by rw [hlast]; exact lt_irrefl _)
  refine ⟨k + 1 + 4, step true s, ?_, hlast, hreport, ?_⟩
  · rw [← hstate]
    exact runLoop_main rv32im limitRom _
  · intro htruthful
    have hasks :=
      htruthful.hitCycleLimit.mp (by rw [hreport]; exact List.mem_singleton_self _)
    rw [asksToContinue_iff, ← (endState rv32im limitRom _).stopped, hstate] at hasks
    exact hasks rfl

end Rvem.Report
