import Rvem.Isa.ManualEffects

/-!
# The loop of `main` against the manual, in all four builds

From reset, each iteration of the loop of `main` is one instruction of the manual's
machine: same pc, registers and RAM, and on stdout exactly the events of the run.  The
loop ends where the run exits, unless it has met its cycle limit before.
-/

namespace Rvem.ManualRefinement

open Rvem.Arch
open Rvem.State
open Rvem.Core
open Rvem.Main
open Rvem.Fields
open Rvem.FlatMap
open Rvem.StepEffect
open Rvem.Run
open Rvem.Counters
open Rvem.ManualEffects
open Rvem.Library.LittleEndian
open Rvem.Reference (Hart)

variable {w : ℕ}

/-! ## Lockstep -/

/-- The emulator shows the state and the events of a run. -/
structure Shows (r : Manual.Run) (s : Machine w) : Prop where
  hart : Agrees r.hart s.cpu
  stdout : s.stdout = r.events.map line

/-- The zero word encodes no instruction. -/
theorem decode_zero (b : Build) : Manual.decode 0 b = none := by
  have hopcode : Reference.opcode 0 = 0 := by decide
  simp [Manual.decode, Manual.findCounter, hopcode]

/-- One permitted step keeps the machines in lockstep, and the loop of `main` goes on
exactly if the run does. -/
theorem shows_step (b : Build) {r : Manual.Run} {s : Machine b.xlen} (hshows : Shows r s)
    (hrunning : r.running = true) (hpermitted : r.Permitted Readable InRam b) :
    Shows (r.step b (countsOf (afterFetch s))) (step b.mExt s) ∧
      stepContinues b.mExt s = (r.step b (countsOf (afterFetch s))).running ∧
      fetchedWord s.cpu ≠ 0 := by
  have hregion := hpermitted.fetch hrunning
  have hfetch := hshows.hart.fetch hregion
  obtain ⟨instr, hdecode⟩ := Option.isSome_iff_exists.mp (hpermitted.decode hrunning)
  have hloads := hpermitted.load hrunning instr hdecode
  have hstores := hpermitted.store hrunning instr hdecode
  have hlines : readLines s.cpu.pc memW = [] := by
    rw [readLines, busRange_memW, if_pos (hshows.hart.pc ▸ hregion)]
  have hstdout : (afterFetch s).stdout = r.events.map line := by
    rw [afterFetch, advance, hlines, List.append_nil, hshows.stdout]
  rw [Manual.Run.step_of_decode hrunning hdecode]
  rw [hfetch] at hdecode
  have hfollows :=
    follows_of_decode b (s := afterFetch s) hshows.hart hdecode hloads hstores
  refine ⟨⟨hfollows.cpu, ?_⟩, hfollows.execContinue, ?_⟩
  · rw [List.map_append, ← hfollows.lines, ← hstdout]
    rfl
  · intro hzero
    rw [hzero] at hdecode
    exact absurd (hdecode.symm.trans (decode_zero b)) (Option.some_ne_none instr)

/-- The reference machine after reset, with `rom` at address zero and all other
bytes zero. -/
def resetHart (rom : Fin romSize → Byte) : Hart where
  pc := 0
  reg := fun _ => 0
  mem := fun a => if ha : a < romSize then (rom ⟨a, ha⟩).toNat else 0

/-- The run from reset. -/
def resetRun (rom : Fin romSize → Byte) : Manual.Run where
  hart := resetHart rom
  events := []
  running := true

/-- The machines start in agreement: the ROM image at address zero and zeros everywhere
else. -/
theorem shows_reset (w : ℕ) (rom : Fin romSize → Byte) :
    Shows (resetRun rom) (initMachine w rom) where
  hart :=
    { pc := BitVec.toNat_zero.symm
      reg := fun _ => BitVec.toNat_zero.symm
      mem := by
        funext a
        simp only [resetRun, resetHart, byteAt, initMachine]
        split
        · rfl
        · split <;> rfl
      zero := rfl }
  stdout := rfl

/-- The run after `k` instructions, if instruction `i` finds `cycles i` in the cycle
counter. -/
def runAfter (b : Build) (rom : Fin romSize → Byte) (cycles : ℕ → ℕ) : ℕ → Manual.Run
  | 0 => resetRun rom
  | k + 1 => (runAfter b rom cycles k).step b ⟨cycles k, k⟩

theorem runAfter_succ (b : Build) (rom : Fin romSize → Byte) (cycles : ℕ → ℕ) (k : ℕ) :
    runAfter b rom cycles (k + 1) = (runAfter b rom cycles k).step b ⟨cycles k, k⟩ := rfl

/-- A run that reads no counter is the same with every cycle counter. -/
theorem runAfter_counts {b : Build} {rom : Fin romSize → Byte} {cycles : ℕ → ℕ} {n : ℕ}
    (hreads : ∀ k < n, (Manual.decode (runAfter b rom cycles k).hart.fetch b).any
      Manual.Instr.readsCounter = false) (cycles' : ℕ → ℕ) :
    ∀ k ≤ n, runAfter b rom cycles' k = runAfter b rom cycles k := by
  intro k hk
  induction k with
  | zero => rfl
  | succ k ih =>
      rw [runAfter_succ, runAfter_succ, ih (by omega)]
      exact Manual.Run.step_counts (hreads k (by omega))

/-- A cycle counter that the manual allows, at the rate of the performance model. -/
structure CycleCounter (cycles : ℕ → ℕ) : Prop where
  increases : StrictMono cycles
  low : ∀ k, k + 4 ≤ cycles k
  high : ∀ k, cycles k ≤ 6 * k + 5

/-- What instruction `k` finds in `mcycle`: the cycles before it and those of its fetch.
An iteration that executes nothing counts as one cycle. -/
def cyclesSeen (b : Build) (rom : Fin romSize → Byte) (k : ℕ) : ℕ :=
  (mainAfter b rom k).machine.mcycle.toNat
    + readStalls (mainAfter b rom k).machine.cpu.pc memW + (k - completed b rom k)

theorem completed_le (b : Build) (rom : Fin romSize → Byte) (k : ℕ) :
    completed b rom k ≤ k := by
  induction k with
  | zero => exact le_refl 0
  | succ k ih =>
      have hone : (nextCall (mainAfter b rom k)).toList.length ≤ 1 :=
        Option.length_toList_le
      rw [completed_succ]
      omega

/-- The next instruction finds a later cycle. -/
theorem cyclesSeen_lt_succ (b : Build) (rom : Fin romSize → Byte) (k : ℕ) :
    cyclesSeen b rom k < cyclesSeen b rom (k + 1) := by
  have hle := completed_le b rom k
  have hsucc := completed_succ b rom k
  rw [cyclesSeen, cyclesSeen, mainAfter_succ]
  rcases loopNext_cases b.mExt (mainAfter b rom k) with
    ⟨s, hstate, hcycles, hnext, hstep⟩ | ⟨s, hstate, hcycles, -, hnext, hstep⟩ |
      ⟨-, hnext, hstep⟩ <;>
    rw [nextCall, hnext] at hsucc
  · have hcost : (step b.mExt s).mcycle.toNat =
        s.mcycle.toNat + (readStalls s.cpu.pc memW
          + (stepEffect b.mExt s).stalls + 1) := toNat_step_mcycle b.mExt hcycles
    rw [hstep, hstate, hsucc]
    simp only [MainState.machine, Option.map_some, Option.toList_some,
      List.length_singleton]
    omega
  · rw [hstep, hstate, hsucc]
    simp only [MainState.machine, Option.map_none, Option.toList_none, List.length_nil,
      toNat_afterFetch_mcycle hcycles]
    omega
  · rw [hstep, hsucc]
    simp only [Option.map_none, Option.toList_none, List.length_nil]
    omega

/-- What the instructions find in `mcycle` increases from one to the next and keeps the
bounds of the performance model. -/
theorem cycleCounter (b : Build) (rom : Fin romSize → Byte) :
    CycleCounter (cyclesSeen b rom) where
  increases := strictMono_nat_of_lt_succ (cyclesSeen_lt_succ b rom)
  low := by
    intro k
    have hle := completed_le b rom k
    have hlow := (counterInvariant b rom k).counters.low
    rw [cyclesSeen]
    omega
  high := by
    intro k
    have hle := completed_le b rom k
    have hhigh := (counterInvariant b rom k).counters.high
    have hfetch := readStalls_le (mainAfter b rom k).machine.cpu.pc memW
    rw [cyclesSeen]
    omega

/-- The loop of `main` after `n` iterations: it is at instruction `k` of the run, which is
the `n`-th unless the cycle limit has ended the loop. -/
structure AtInstruction (b : Build) (rom : Fin romSize → Byte) (cycles : ℕ → ℕ)
    (n k : ℕ) (s : Machine b.xlen) : Prop where
  le : k ≤ n
  loop : runLoop b.mExt n (initMain b.xlen rom) =
    some (.loop (runAfter b rom cycles k).running s)
  shows : Shows (runAfter b rom cycles k) s
  limit : k < n → maxCycles ≤ s.mcycle.toNat

theorem AtInstruction.main {b : Build} {rom : Fin romSize → Byte} {cycles : ℕ → ℕ}
    {n k : ℕ} {s : Machine b.xlen} (hat : AtInstruction b rom cycles n k s) :
    mainAfter b rom n = .loop (runAfter b rom cycles k).running s :=
  Option.some.inj ((runLoop_main b rom n).symm.trans hat.loop)

/-- A loop that has been left stays where it is. -/
theorem AtInstruction.left {b : Build} {rom : Fin romSize → Byte} {cycles : ℕ → ℕ}
    {n k : ℕ} {s : Machine b.xlen} (hat : AtInstruction b rom cycles n k s)
    (hleft : loopGuard (runAfter b rom cycles k).running s = false) :
    runLoop b.mExt (n + 1) (initMain b.xlen rom) =
      some (.loop (runAfter b rom cycles k).running s) := by
  rw [runLoop_main, mainAfter_succ, hat.main, loopNext_of_left]
  exact hleft

section Loop

variable {b : Build} {rom : Fin romSize → Byte} {n k : ℕ} {s : Machine b.xlen}

/-- While the loop goes on, the counters are those of the run. -/
theorem AtInstruction.counts_eq (hat : AtInstruction b rom (cyclesSeen b rom) n n s)
    (hcycles : s.mcycle.toNat < maxCycles)
    (hrunning : (runAfter b rom (cyclesSeen b rom) n).running = true) :
    ⟨cyclesSeen b rom n, n⟩ = countsOf (afterFetch s) := by
  have hmain := hat.main
  rw [hrunning] at hmain
  have hcompleted : completed b rom n = n := by
    apply completed_of_looping
    rw [hmain]
    exact loopGuard_of_lt hcycles
  have hminstret := (counterInvariant b rom n).counters.minstret
  rw [hcompleted, hmain] at hminstret
  rw [countsOf, toNat_afterFetch_mcycle hcycles, cyclesSeen, hcompleted, hmain,
    Nat.sub_self, Nat.add_zero]
  exact congrArg _ hminstret.symm

/-- An iteration below the cycle limit executes the next instruction. -/
theorem AtInstruction.execute (hat : AtInstruction b rom (cyclesSeen b rom) n n s)
    (hcycles : s.mcycle.toNat < maxCycles)
    (hrunning : (runAfter b rom (cyclesSeen b rom) n).running = true)
    (hpermitted : (runAfter b rom (cyclesSeen b rom) n).Permitted Readable InRam b) :
    AtInstruction b rom (cyclesSeen b rom) (n + 1) (n + 1) (step b.mExt s) ∧
      nextCall (mainAfter b rom n) = some (afterFetch s, fetchedWord s.cpu) := by
  obtain ⟨hshows, hcontinues, hword⟩ := shows_step b hat.shows hrunning hpermitted
  rw [← hat.counts_eq hcycles hrunning, ← runAfter_succ] at hshows hcontinues
  have hguard : loopGuard true s = true := loopGuard_of_lt hcycles
  have hmain := hat.main
  rw [hrunning] at hmain
  refine ⟨⟨le_refl _, ?_, hshows, fun hlt => absurd hlt (lt_irrefl _)⟩, ?_⟩
  · rw [runLoop_main, mainAfter_succ, hmain, loopNext_of_looping hguard, loopBody,
      if_neg hword, hcontinues]
  · rw [hmain, nextCall, nextWord, if_pos ⟨hguard, hword⟩]
    rfl

/-- One more iteration: an instruction, or nothing if the loop has been left. -/
theorem AtInstruction.succ (hat : AtInstruction b rom (cyclesSeen b rom) n k s)
    (hpermitted : (runAfter b rom (cyclesSeen b rom) n).Permitted Readable InRam b) :
    ∃ k' s', AtInstruction b rom (cyclesSeen b rom) (n + 1) k' s' := by
  by_cases hcycles : s.mcycle.toNat < maxCycles
  · obtain rfl : k = n := by
      have hle := hat.le
      have hlimit := hat.limit
      omega
    cases hrunning : (runAfter b rom (cyclesSeen b rom) k).running with
    | true => exact ⟨_, _, (hat.execute hcycles hrunning hpermitted).1⟩
    | false =>
        have hsame : runAfter b rom (cyclesSeen b rom) (k + 1) =
            runAfter b rom (cyclesSeen b rom) k := by
          rw [runAfter_succ, Manual.Run.step_of_stopped hrunning]
        have hleft :
            loopGuard (runAfter b rom (cyclesSeen b rom) k).running s = false := by
          rw [hrunning]
          rfl
        refine ⟨k + 1, s, le_refl _, ?_, ?_, fun hlt => absurd hlt (lt_irrefl _)⟩
        · rw [hsame]
          exact hat.left hleft
        · rw [hsame]
          exact hat.shows
  · refine ⟨k, s, hat.le.trans (Nat.le_succ n), hat.left ?_, hat.shows,
      fun _ => not_lt.mp hcycles⟩
    rw [loopGuard, decide_eq_false hcycles, Bool.and_false]

end Loop

theorem atInstruction_zero (b : Build) (rom : Fin romSize → Byte) (cycles : ℕ → ℕ) :
    AtInstruction b rom cycles 0 0 (initMachine b.xlen rom) where
  le := le_refl 0
  loop := rfl
  shows := shows_reset b.xlen rom
  limit := fun hlt => absurd hlt (lt_irrefl 0)

/-- For every build and every ROM image there is a cycle counter such that, for every `n`:
while the run of the manual's machine with this counter is permitted, the loop of `main`
shows it, instruction by instruction, with the events of the run on stdout and nothing
else, and stops where the run exits; only the cycle limit ends it before. -/
theorem main_follows_manual (b : Build) (rom : Fin romSize → Byte) :
    ∃ cycles, CycleCounter cycles ∧ ∀ n,
      (∀ k < n, (runAfter b rom cycles k).Permitted Readable InRam b) →
        ∃ k s, AtInstruction b rom cycles n k s := by
  refine ⟨cyclesSeen b rom, cycleCounter b rom, ?_⟩
  intro n hpermitted
  induction n with
  | zero => exact ⟨0, _, atInstruction_zero b rom _⟩
  | succ n ih =>
      obtain ⟨k, s, hat⟩ := ih fun k hk => hpermitted k (by omega)
      exact hat.succ (hpermitted n (by omega))

/-- `addiw a1, x0, 65; addi a0, x0, 11; ecall; addi a0, x0, 10; ecall` -/
def printExitRom : Fin romSize → Byte :=
  Code.romOfWords [0x0410059B, 0x00B00513, 0x00000073, 0x00A00513, 0x00000073]

/-- On RV64I. -/
def rv64i : Build := ⟨64, .inr rfl, false⟩

theorem main_follows_manual_print : ∃ cycles, CycleCounter cycles ∧
    (∃ k s, AtInstruction rv64i printExitRom cycles 5 k s) ∧
      (runAfter rv64i printExitRom cycles 5).events = [.char 65, .exit] := by
  obtain ⟨cycles, hcounter, hfollows⟩ := main_follows_manual rv64i printExitRom
  have hsame : ∀ k ≤ 5, runAfter rv64i printExitRom cycles k =
      runAfter rv64i printExitRom (fun _ => 0) k :=
    runAfter_counts (by decide +kernel) cycles
  have hpermitted : ∀ k < 5,
      (runAfter rv64i printExitRom (fun _ => 0) k).Permitted Readable InRam rv64i := by
    decide +kernel
  refine ⟨cycles, hcounter, hfollows 5 ?_, ?_⟩
  · intro k hk
    rw [hsame k hk.le]
    exact hpermitted k hk
  · rw [hsame 5 (le_refl 5)]
    decide +kernel

end Rvem.ManualRefinement
