import Rvem.Model.Main
import Rvem.Semantics.StepEffect

/-!
# Runs

The fetch, one iteration of the loop of `main` and `n` iterations of it are total
functions.  `step` is fetch and execution together; `loopNext` adds the loop condition
and the exit taken for a zero word.  The calls of `process_instr` that a run makes are
listed in order, each with the state it is made in, so what holds of every call is said
of this list.
-/

namespace Rvem.Run

open Rvem.Arch
open Rvem.State
open Rvem.Bus
open Rvem.Core
open Rvem.Main
open Rvem.Assembly
open Rvem.FlatMap
open Rvem.Fields
open Rvem.StepEffect
open Rvem.Library.LittleEndian

variable {w : ℕ}

/-! ## Fetch -/

def afterFetch (s : Machine w) : Machine w :=
  advance s (readStalls s.cpu.pc memW) (readLines s.cpu.pc memW)

/-- The word at the pc, zero when its four bytes are not all mapped. -/
def fetchedWord (cpu : Cpu w) : Word :=
  if Readable cpu.pc.toNat 4 then
    BitVec.ofNat 32 (load (byteAt cpu) cpu.pc.toNat 4)
  else 0

theorem loadSize_memW : loadSize w memW = some 4 := by
  simp [loadSize]

theorem busRange_memW : busRange w memW + 1 = 4 :=
  busRange_of_loadSize loadSize_memW

theorem fetch_eq (hw : w = 32 ∨ w = 64) (s : Machine w) :
    fetch s = some (afterFetch s, fetchedWord s.cpu) := by
  rw [fetch, busRead_eq hw, readOutcome_eq]
  simp only [Option.bind_eq_bind, Option.bind_some, Option.pure_def,
    Option.some.injEq, Prod.mk.injEq]
  refine ⟨rfl, ?_⟩
  rw [readValue, fetchedWord, busRange_memW, loadSize_memW]
  split
  · simp only [Option.map_some, Option.getD_some, loadValue]
    exact setWidth_signExtend_word hw _
  · simp

@[simp]
theorem afterFetch_cpu (s : Machine w) : (afterFetch s).cpu = s.cpu := rfl

@[simp]
theorem afterFetch_perfModel (s : Machine w) :
    (afterFetch s).perfModel = s.perfModel := rfl

/-! ## One step -/

def stepEffect (m : Bool) (s : Machine w) : Effect w :=
  effect m (afterFetch s) (fetchedWord s.cpu)

/-- One iteration of the loop body that fetches and executes an instruction. -/
def step (m : Bool) (s : Machine w) : Machine w :=
  (stepEffect m s).apply (afterFetch s) (fetchedWord s.cpu)

/-- What the call of `process_instr` in this iteration returns. -/
def stepContinues (m : Bool) (s : Machine w) : Bool :=
  (stepEffect m s).execContinue

theorem fetchExecute_eq (hw : w = 32 ∨ w = 64) (m : Bool) (s : Machine w) :
    fetchExecute m s = some (step m s, stepContinues m s) := by
  rw [fetchExecute, fetch_eq hw]
  exact processInstr_eq hw m _ _

/-- Fetching and executing never indexes out of bounds, so `n` times is an iterate of one
function. -/
theorem runSteps_eq (hw : w = 32 ∨ w = 64) (m : Bool) (n : ℕ) (s : Machine w) :
    runSteps m n s = some ((step m)^[n] s) := by
  induction n generalizing s with
  | zero => rfl
  | succ n ih =>
      rw [runSteps, fetchExecute_eq hw]
      exact ih (step m s)

/-! ## The main loop -/

/-- The loop body at the loop head with machine `s`. -/
def loopBody (m : Bool) (s : Machine w) : MainState w :=
  if fetchedWord s.cpu = 0 then .failed (afterFetch s)
  else .loop (stepContinues m s) (step m s)

/-- One iteration of the loop of `main`, or none if it has been left. -/
def loopNext (m : Bool) : MainState w → MainState w
  | .loop instrLoop s =>
      if loopGuard instrLoop s then loopBody m s else .loop instrLoop s
  | .failed s => .failed s

theorem loopStep_eq (hw : w = 32 ∨ w = 64) (m : Bool) (c : MainState w) :
    loopStep m c = some (loopNext m c) := by
  cases c with
  | failed s => rfl
  | loop instrLoop s =>
      rw [loopStep, loopNext]
      split
      · rw [fetch_eq hw, loopBody]
        simp only [Option.bind_eq_bind, Option.bind_some]
        split
        · rfl
        · rw [processInstr_eq hw]
          rfl
      · rfl

/-- The loop of `main` never indexes out of bounds either. -/
theorem runLoop_eq (hw : w = 32 ∨ w = 64) (m : Bool) (n : ℕ) (c : MainState w) :
    runLoop m n c = some ((loopNext m)^[n] c) := by
  induction n generalizing c with
  | zero => rfl
  | succ n ih =>
      rw [runLoop, loopStep_eq hw]
      exact ih (loopNext m c)

theorem loopNext_of_looping {m : Bool} {instrLoop : Bool} {s : Machine w}
    (hguard : loopGuard instrLoop s = true) :
    loopNext m (.loop instrLoop s) = loopBody m s :=
  if_pos hguard

theorem loopGuard_of_lt {instrLoop : Bool} {s : Machine w}
    (hcycles : s.mcycle.toNat < maxCycles) : loopGuard instrLoop s = instrLoop := by
  simp only [loopGuard, hcycles, decide_true, Bool.and_true]

/-- A state that has left the loop is final. -/
theorem loopNext_of_left {m : Bool} {c : MainState w} (hleft : c.looping = false) :
    loopNext m c = c := by
  cases c with
  | failed s => rfl
  | loop instrLoop s =>
      have hguard : loopGuard instrLoop s = false := hleft
      rw [loopNext, hguard]
      rfl

/-- The word the next loop iteration passes to `process_instr`, if it gets that far. -/
def nextWord : MainState w → Option Word
  | .loop instrLoop s =>
      if loopGuard instrLoop s ∧ fetchedWord s.cpu ≠ 0 then some (fetchedWord s.cpu)
      else none
  | .failed _ => none

/-- An iteration either executes the fetched word, or leaves the loop on a zero
word, or does nothing because the loop has been left. -/
theorem loopNext_cases (m : Bool) (c : MainState w) :
    (∃ s, c = .loop true s ∧ s.mcycle.toNat < maxCycles ∧
        nextWord c = some (fetchedWord s.cpu) ∧
        loopNext m c = .loop (stepContinues m s) (step m s)) ∨
      (∃ s, c = .loop true s ∧ s.mcycle.toNat < maxCycles ∧
        fetchedWord s.cpu = 0 ∧ nextWord c = none ∧
        loopNext m c = .failed (afterFetch s)) ∨
      (c.looping = false ∧ nextWord c = none ∧ loopNext m c = c) := by
  cases c with
  | failed s => exact .inr (.inr ⟨rfl, rfl, rfl⟩)
  | loop instrLoop s =>
      cases hguard : loopGuard instrLoop s with
      | false =>
          refine .inr (.inr ⟨hguard, ?_, loopNext_of_left hguard⟩)
          simp only [nextWord, hguard, Bool.false_eq_true, false_and, if_false]
      | true =>
          have hparts := hguard
          simp only [loopGuard, Bool.and_eq_true, decide_eq_true_eq] at hparts
          obtain ⟨rfl, hcycles⟩ := hparts
          by_cases hword : fetchedWord s.cpu = 0
          · refine .inr (.inl ⟨s, rfl, hcycles, hword, ?_, ?_⟩)
            · simp only [nextWord, hword, ne_eq, not_true, and_false, if_false]
            · rw [loopNext_of_looping hguard, loopBody, if_pos hword]
          · refine .inl ⟨s, rfl, hcycles, ?_, ?_⟩
            · simp only [nextWord, hguard, ne_eq, hword, not_false_iff, and_self,
                if_true]
            · rw [loopNext_of_looping hguard, loopBody, if_neg hword]

/-! ## The calls of `process_instr` -/

/-- The globals and the word the next iteration calls `process_instr` with. -/
def nextCall (c : MainState w) : Option (Machine w × Word) :=
  (nextWord c).map fun word => (afterFetch c.machine, word)

/-- The calls completed in the first `n` iterations, in order. -/
def calls (m : Bool) (n : ℕ) (c : MainState w) : List (Machine w × Word) :=
  (List.range n).filterMap fun k => nextCall ((loopNext m)^[k] c)

theorem calls_succ (m : Bool) (n : ℕ) (c : MainState w) :
    calls m (n + 1) c = calls m n c ++ (nextCall ((loopNext m)^[n] c)).toList := by
  rw [calls, List.range_succ, List.filterMap_append, ← calls]
  congr 1

/-! ## Runs from reset -/

section Reset

variable (b : Build) (rom : Fin romSize → Byte)

/-- The state of `main` after `k` evaluations of the loop body. -/
def mainAfter (k : ℕ) : MainState b.xlen :=
  (loopNext b.mExt)^[k] (initMain b.xlen rom)

theorem mainAfter_succ (k : ℕ) :
    mainAfter b rom (k + 1) = loopNext b.mExt (mainAfter b rom k) :=
  Function.iterate_succ_apply' _ _ _

theorem runLoop_main (k : ℕ) :
    runLoop b.mExt k (initMain b.xlen rom) = some (mainAfter b rom k) :=
  runLoop_eq b.xlen_eq b.mExt k _

theorem mainAfter_rom (k : ℕ) : (mainAfter b rom k).machine.cpu.rom = rom := by
  induction k with
  | zero => rfl
  | succ k ih =>
      apply Eq.trans _ ih
      rw [mainAfter_succ]
      rcases loopNext_cases b.mExt (mainAfter b rom k) with
        ⟨s, hstate, -, -, hstep⟩ | ⟨s, hstate, -, -, -, hstep⟩ | ⟨-, -, hstep⟩ <;>
        rw [hstep]
      · rw [hstate]
        rfl
      · rw [hstate]
        rfl

/-- The calls completed in the first `k` iterations. -/
def mainCalls (k : ℕ) : List (Machine b.xlen × Word) :=
  calls b.mExt k (initMain b.xlen rom)

theorem mainCalls_succ (k : ℕ) :
    mainCalls b rom (k + 1) =
      mainCalls b rom k ++ (nextCall (mainAfter b rom k)).toList :=
  calls_succ b.mExt k _

end Reset

end Rvem.Run
