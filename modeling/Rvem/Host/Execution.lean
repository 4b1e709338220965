import Rvem.Isa.ManualRefinement
import Rvem.Model.Program

/-!
# Whole executions

`main` returns for all arguments and files, and its status says why the loop ended.  A
guest program that the manual's machine runs to its exit is run to its exit: output and
cycle count are those of the run.  The events of the run give the lines printed, and the
bounds on the cycle count are those of the performance model.  A limit met on the way
shows in the report and in no other place.
-/

namespace Rvem.Execution

open Rvem.Arch
open Rvem.State
open Rvem.Main
open Rvem.Run
open Rvem.FlatMap
open Rvem.Counters
open Rvem.Program
open Rvem.ManualEffects
open Rvem.ManualRefinement

variable {b : Build} {rom : Fin romSize → Byte}

/-! ## The end of the loop -/

/-- The loop stays where it has been left. -/
theorem mainAfter_of_left {n fuel : ℕ} (hleft : (mainAfter b rom n).looping = false)
    (hfuel : n ≤ fuel) : mainAfter b rom fuel = mainAfter b rom n := by
  induction fuel, hfuel using Nat.le_induction with
  | base => rfl
  | succ fuel _ ih => rw [mainAfter_succ, ih, loopNext_of_left hleft]

/-- What `main` returns when the loop has been left in `c`. -/
def outcome (bytes : List Byte) {w : ℕ} (c : MainState w) : Returned :=
  ⟨status c, .loaded (min bytes.length romSize) ::
    (c.machine.stdout ++ report c).map .output⟩

/-- Once the loop has been left `main` returns, whatever fuel remains, with the status
and the lines of the state it was left in. -/
theorem main_of_left {fopen : String → Option (List Byte)} {filename : String}
    {bytes : List Byte} (hopen : fopen filename = some bytes) (path : String) {n fuel : ℕ}
    (hleft : (mainAfter b (loadedRom bytes) n).looping = false) (hfuel : n ≤ fuel) :
    Program.main b fopen path [filename] fuel =
      some (some (outcome bytes (mainAfter b (loadedRom bytes) n))) := by
  have hload : loadRomBinary fopen filename =
      (some (loadedRom bytes), [.loaded (min bytes.length romSize)]) := by
    rw [loadRomBinary, hopen]
  simp only [Program.main, hload, runLoop_main, mainAfter_of_left hleft hfuel,
    Option.bind_eq_bind, Option.bind_some, hleft, Bool.false_eq_true, if_false]
  rfl

/-- The iteration in which the loop ends. -/
theorem exists_end (b : Build) (rom : Fin romSize → Byte) :
    ∃ n ≤ maxCycles - 4, (mainAfter b rom n).looping = false ∧
      ∀ k < n, (mainAfter b rom k).looping = true := by
  have hend : ∃ n, (mainAfter b rom n).looping = false := ⟨_, terminates b rom⟩
  refine ⟨Nat.find hend, Nat.find_min' hend (terminates b rom), Nat.find_spec hend, ?_⟩
  intro k hk
  exact Bool.eq_true_of_not_eq_false (Nat.find_min hend hk)

/-! ## The exit status -/

/-- The loop has come to a pc at which the next four bytes are zero or not all mapped. -/
def MeetsZero (b : Build) (rom : Fin romSize → Byte) : Prop :=
  ∃ n s s', runLoop b.mExt n (initMain b.xlen rom) = some (.loop true s) ∧
    s.mcycle.toNat < maxCycles ∧ fetch s = some (s', 0)

/-- The loop ends with `return 1` exactly when it meets such a word. -/
theorem status_iff {n : ℕ} (hleft : (mainAfter b rom n).looping = false)
    (hlooping : ∀ k < n, (mainAfter b rom k).looping = true) :
    status (mainAfter b rom n) = 1 ↔ MeetsZero b rom := by
  constructor
  · intro hstatus
    cases n with
    | zero => cases hstatus
    | succ n =>
        have hbefore := hlooping n (Nat.lt_succ_self n)
        rw [mainAfter_succ] at hstatus
        rcases loopNext_cases b.mExt (mainAfter b rom n) with
          ⟨s, -, -, -, hstep⟩ | ⟨s, hstate, hcycles, hzero, -, -⟩ | ⟨hnot, -, -⟩
        · rw [hstep] at hstatus
          cases hstatus
        · refine ⟨n, s, afterFetch s, ?_, hcycles, ?_⟩
          · rw [runLoop_main, hstate]
          · rw [fetch_eq b.xlen_eq, hzero]
        · rw [hnot] at hbefore
          cases hbefore
  · rintro ⟨k, s, s', hloop, hcycles, hfetch⟩
    rw [runLoop_main, Option.some.injEq] at hloop
    rw [fetch_eq b.xlen_eq, Option.some.injEq, Prod.mk.injEq] at hfetch
    have hguard : loopGuard true s = true := loopGuard_of_lt hcycles
    have hfailed : mainAfter b rom (k + 1) = .failed (afterFetch s) := by
      rw [mainAfter_succ, hloop, loopNext_of_looping hguard, loopBody, if_pos hfetch.2]
    have hk : k < n := by
      by_contra hnot
      rw [← mainAfter_of_left hleft (not_lt.mp hnot), hloop] at hleft
      rw [MainState.looping, hguard] at hleft
      cases hleft
    have hend : mainAfter b rom n = mainAfter b rom (k + 1) :=
      mainAfter_of_left (by rw [hfailed]; rfl) hk
    rw [hend, hfailed]
    rfl

/-- The command lines with which `main` returns 1. -/
def Fails (b : Build) (fopen : String → Option (List Byte)) (args : List String) : Prop :=
  match args with
  | [filename] => ∀ bytes, fopen filename = some bytes → MeetsZero b (loadedRom bytes)
  | _ => True

/-- For every build, all arguments and all files `main` returns, within `MAX_CYCLES - 4`
iterations of its loop.  It returns 1 without exactly one argument, if the file cannot be
opened, and if the run comes to a word that is zero or not mapped before the cycle limit;
otherwise it returns 0. -/
theorem main_returns (b : Build) (fopen : String → Option (List Byte)) (path : String)
    (args : List String) :
    ∃ r : Returned,
      (∀ fuel, maxCycles - 4 ≤ fuel →
        Program.main b fopen path args fuel = some (some r)) ∧
      (r.status = 0 ∨ r.status = 1) ∧ (r.status = 1 ↔ Fails b fopen args) := by
  rcases args with _ | ⟨filename, _ | ⟨second, rest⟩⟩
  · exact ⟨⟨1, [.usage path]⟩, fun _ _ => rfl, .inr rfl, by simp [Fails]⟩
  · cases hopen : fopen filename with
    | none =>
        refine ⟨⟨1, [.openFailed filename]⟩, fun fuel _ => ?_,
          .inr rfl, by simp [Fails, hopen]⟩
        simp only [Program.main, loadRomBinary, hopen]
    | some bytes =>
        obtain ⟨n, hn, hleft, hlooping⟩ := exists_end b (loadedRom bytes)
        refine ⟨outcome bytes (mainAfter b (loadedRom bytes) n), ?_, ?_, ?_⟩
        · intro fuel hfuel
          exact main_of_left hopen path hleft (hn.trans hfuel)
        · cases hstate : mainAfter b (loadedRom bytes) n with
          | loop instrLoop s => exact .inl rfl
          | failed s => exact .inr rfl
        · rw [Fails, outcome, status_iff hleft hlooping]
          simp only [hopen, Option.some.injEq, forall_eq']
  · exact ⟨⟨1, [.usage path]⟩, fun _ _ => rfl, .inr rfl, by simp [Fails]⟩

/-! ## The instructions executed -/

/-- The loop has executed `k` instructions of the manual's run in `k` iterations. -/
structure Executed (b : Build) (rom : Fin romSize → Byte) (k : ℕ) (s : Machine b.xlen) :
    Prop where
  at_instruction : AtInstruction b rom (cyclesSeen b rom) k k s
  completed : Counters.completed b rom k = k

theorem Executed.counters {k : ℕ} {s : Machine b.xlen} (hexecuted : Executed b rom k s) :
    CountersAfter k s := by
  have hcounters := (counterInvariant b rom k).counters
  rwa [hexecuted.completed, hexecuted.at_instruction.main] at hcounters

/-- The loop goes on as long as the run does and the cycle limit is not met. -/
theorem Executed.looping_iff {k : ℕ} {s : Machine b.xlen}
    (hexecuted : Executed b rom k s) : (mainAfter b rom k).looping = true ↔
      (runAfter b rom (cyclesSeen b rom) k).running = true ∧
        s.mcycle.toNat < maxCycles := by
  rw [hexecuted.at_instruction.main, MainState.looping, loopGuard, Bool.and_eq_true,
    decide_eq_true_iff]

/-- As long as the loop goes on, each of its iterations has executed one instruction of
the run. -/
theorem executed_of_looping {n : ℕ}
    (hpermitted : ∀ k < n,
      (runAfter b rom (cyclesSeen b rom) k).Permitted Readable InRam b)
    (hlooping : ∀ k < n, (mainAfter b rom k).looping = true) :
    ∃ s, Executed b rom n s := by
  induction n with
  | zero => exact ⟨_, atInstruction_zero b rom _, rfl⟩
  | succ n ih =>
      obtain ⟨s, hexecuted⟩ := ih (fun k hk => hpermitted k (by omega))
        fun k hk => hlooping k (by omega)
      obtain ⟨hrunning, hcycles⟩ := hexecuted.looping_iff.mp (hlooping n (by omega))
      obtain ⟨hat, hcall⟩ :=
        hexecuted.at_instruction.execute hcycles hrunning (hpermitted n (by omega))
      refine ⟨_, hat, ?_⟩
      rw [completed_succ, hexecuted.completed, hcall]
      rfl

/-! ## The main result -/

/-- The execution of a run by `main`: `n` instructions in `total` cycles. -/
structure Executes (b : Build) (rom : Fin romSize → Byte) (cycles : ℕ → ℕ)
    (n total : ℕ) : Prop where
  running : ∀ k < n, (runAfter b rom cycles k).running = true
  stopped : total < maxCycles → (runAfter b rom cycles n).running = false
  low : n + 4 ≤ total
  high : total ≤ 6 * n + 4

/-- The last line of the report. -/
def verdict (total : ℕ) : Output :=
  if total < maxCycles then .totalCycles total else .hitCycleLimit

/-- For every build and every file there is a cycle counter such that: if the manual's
machine with this counter, started on the first `ROM_SIZE` bytes of the file, stays inside
the memory map, `main` returns 0.  It prints the events of the run, up to its exit or to
the cycle limit, between its own first and last line. -/
theorem main_executes (b : Build) {fopen : String → Option (List Byte)}
    {filename : String} {bytes : List Byte} (hopen : fopen filename = some bytes)
    (path : String) :
    ∃ cycles, CycleCounter cycles ∧
      ((∀ k < maxCycles - 4,
          (runAfter b (loadedRom bytes) cycles k).Permitted Readable InRam b) →
        ∃ n total, Executes b (loadedRom bytes) cycles n total ∧
          ∀ fuel, maxCycles - 4 ≤ fuel →
            Program.main b fopen path [filename] fuel = some (some
              { status := 0
                lines := .loaded (min bytes.length romSize) ::
                  ((runAfter b (loadedRom bytes) cycles n).events.map line
                    ++ [verdict total]).map Line.output })) := by
  refine ⟨cyclesSeen b (loadedRom bytes), cycleCounter b (loadedRom bytes), ?_⟩
  intro hpermitted
  obtain ⟨n, hn, hleft, hlooping⟩ := exists_end b (loadedRom bytes)
  obtain ⟨s, hexecuted⟩ :=
    executed_of_looping (fun k hk => hpermitted k (by omega)) hlooping
  have hcounters := hexecuted.counters
  have hmain := hexecuted.at_instruction.main
  refine ⟨n, s.mcycle.toNat, ⟨?_, ?_, hcounters.low, hcounters.high⟩, ?_⟩
  · intro k hk
    obtain ⟨_, hbefore⟩ := executed_of_looping
      (fun j hj => hpermitted j (by omega)) fun j hj => hlooping j (hj.trans hk)
    exact (hbefore.looping_iff.mp (hlooping k hk)).1
  · intro hcycles
    by_contra hrunning
    rw [Bool.not_eq_false] at hrunning
    rw [hexecuted.looping_iff.mpr ⟨hrunning, hcycles⟩] at hleft
    cases hleft
  · intro fuel hfuel
    rw [main_of_left hopen path hleft (hn.trans hfuel), hmain, outcome, MainState.machine,
      hexecuted.at_instruction.shows.stdout, report, verdict]
    split
    · rfl
    · rfl

/-! ## A program that prints and exits -/

/-- Nothing is asked of a run that has stopped. -/
theorem permitted_of_stopped {r : Manual.Run} (hstopped : r.running = false) :
    r.Permitted Readable InRam b := by
  have hnot : r.running ≠ true := by
    rw [hstopped]
    exact Bool.false_ne_true
  exact ⟨fun h => absurd h hnot, fun h => absurd h hnot, fun h => absurd h hnot,
    fun h => absurd h hnot⟩

/-- A run that has stopped stays. -/
theorem runAfter_of_stopped {cycles : ℕ → ℕ} {n k : ℕ}
    (hstopped : (runAfter b rom cycles n).running = false) (hk : n ≤ k) :
    runAfter b rom cycles k = runAfter b rom cycles n := by
  induction k, hk using Nat.le_induction with
  | base => rfl
  | succ k _ ih => rw [runAfter_succ, ih, Manual.Run.step_of_stopped hstopped]

/-- `addiw a1, x0, 65; addi a0, x0, 11; ecall; addi a0, x0, 10; ecall` -/
def printExitFile : List Byte :=
  [0x9B, 0x05, 0x10, 0x04, 0x13, 0x05, 0xB0, 0x00, 0x73, 0x00, 0x00, 0x00,
    0x13, 0x05, 0xA0, 0x00, 0x73, 0x00, 0x00, 0x00]

/-- The host's files. -/
def printExitFiles : String → Option (List Byte)
  | "hello.bin" => some printExitFile
  | _ => none

theorem main_executes_print : ∃ total ≤ 34, ∀ fuel, maxCycles - 4 ≤ fuel →
    Program.main rv64i printExitFiles "rvem" ["hello.bin"] fuel =
      some (some ⟨0, [.loaded 20, .output (.guestChar 65), .output .exitedGracefully,
        .output (.totalCycles total)]⟩) := by
  have hopen : printExitFiles "hello.bin" = some printExitFile := rfl
  obtain ⟨cycles, -, hmain⟩ := main_executes rv64i hopen "rvem"
  have hsame : ∀ k ≤ 5, runAfter rv64i (loadedRom printExitFile) cycles k =
      runAfter rv64i (loadedRom printExitFile) (fun _ => 0) k :=
    runAfter_counts (by decide +kernel) cycles
  have hfirst : ∀ k < 5,
      (runAfter rv64i (loadedRom printExitFile) (fun _ => 0) k).Permitted
          Readable InRam rv64i ∧
        (runAfter rv64i (loadedRom printExitFile) (fun _ => 0) k).running = true := by
    decide +kernel
  have hlast :
      (runAfter rv64i (loadedRom printExitFile) (fun _ => 0) 5).running = false ∧
        (runAfter rv64i (loadedRom printExitFile) (fun _ => 0) 5).events =
          [.char 65, .exit] := by
    decide +kernel
  rw [← hsame 5 (le_refl 5)] at hlast
  obtain ⟨hstopped, hevents⟩ := hlast
  have hpermitted : ∀ k < maxCycles - 4,
      (runAfter rv64i (loadedRom printExitFile) cycles k).Permitted Readable InRam
        rv64i := by
    intro k _
    by_cases hk : k < 5
    · rw [hsame k hk.le]
      exact (hfirst k hk).1
    · rw [runAfter_of_stopped hstopped (not_lt.mp hk)]
      exact permitted_of_stopped hstopped
  obtain ⟨n, total, hexecutes, hmain⟩ := hmain hpermitted
  have hhigh := hexecutes.high
  have hlimit : maxCycles = 1000000000 := rfl
  obtain rfl : n = 5 := by
    rcases lt_trichotomy n 5 with hlt | heq | hgt
    · have hrunning := (hfirst n hlt).2
      rw [← hsame n hlt.le, hexecutes.stopped (by omega)] at hrunning
      cases hrunning
    · exact heq
    · have hrunning := hexecutes.running 5 hgt
      rw [hstopped] at hrunning
      cases hrunning
  refine ⟨total, hhigh, fun fuel hfuel => ?_⟩
  rw [hmain fuel hfuel, hevents, verdict, if_pos (by omega)]
  rfl

end Rvem.Execution
