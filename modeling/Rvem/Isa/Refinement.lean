import Rvem.Isa.ManualRefinement

/-!
# The emulator refines the reference machine

In the RV32 build with the M extension the loop body of `main` moves in lockstep
with the reference machine, as long as the words executed are RV32IM encodings
other than SYSTEM and every access stays inside the memory map.  On such words the
machine of the four builds makes the steps of the reference machine and shows
nothing, so one step is a case of the lockstep with that machine.
-/

namespace Rvem.Refinement

open Rvem.Arch
open Rvem.State
open Rvem.Core
open Rvem.Main
open Rvem.FlatMap
open Rvem.StepEffect
open Rvem.Run
open Rvem.Code
open Rvem.ManualRefinement (Shows shows_step shows_reset resetHart)
open Rvem.Reference (Hart)

/-- A run of the four builds that has shown nothing and goes on. -/
def quietRun (h : Hart) : Manual.Run where
  hart := h
  events := []
  running := true

/-- One step of the loop body keeps the machines in agreement. -/
theorem shows_quiet {h : Hart} {s : Machine 32} (hshows : Shows (quietRun h) s)
    (hpermitted : h.Permitted Readable InRam) :
    Shows (quietRun h.step) (step true s) ∧ stepContinues true s = true ∧
      fetchedWord s.cpu ≠ 0 := by
  have hquiet : ∀ counts, (quietRun h).step rv32im counts = quietRun h.step := by
    intro counts
    exact ManualExtension.step_rv32im counts rfl hpermitted.decode
  have hstep := shows_step rv32im (s := s) hshows rfl
    (ManualExtension.permitted_rv32im hpermitted)
  rw [hquiet] at hstep
  exact hstep

/-- The machines agree along a run whose steps are all permitted. -/
theorem shows_run {h : Hart} {s : Machine 32} (hshows : Shows (quietRun h) s) (n : ℕ)
    (hpermitted : ∀ k < n, (Hart.step^[k] h).Permitted Readable InRam) :
    Shows (quietRun (Hart.step^[n] h)) ((step true)^[n] s) := by
  induction n with
  | zero => exact hshows
  | succ n ih =>
      rw [Function.iterate_succ_apply', Function.iterate_succ_apply']
      have hbefore := ih fun k hk => hpermitted k (by omega)
      exact (shows_quiet hbefore (hpermitted n (by omega))).1

/-- Below the cycle limit the loop of `main` takes the same steps. -/
theorem loop_run {h : Hart} {s : Machine 32} (hshows : Shows (quietRun h) s) (n : ℕ)
    (hpermitted : ∀ k < n, (Hart.step^[k] h).Permitted Readable InRam)
    (hcycles : ∀ k < n, ((step true)^[k] s).mcycle.toNat < maxCycles) :
    (loopNext true)^[n] (.loop true s) = .loop true ((step true)^[n] s) := by
  induction n with
  | zero => rfl
  | succ n ih =>
      have hbefore := ih (fun k hk => hpermitted k (by omega))
        fun k hk => hcycles k (by omega)
      have hshown := shows_run hshows n fun k hk => hpermitted k (by omega)
      obtain ⟨-, hcontinues, hword⟩ := shows_quiet hshown (hpermitted n (by omega))
      rw [Function.iterate_succ_apply', hbefore,
        loopNext_of_looping (loopGuard_of_lt (hcycles n (by omega))), loopBody,
        if_neg hword, hcontinues, Function.iterate_succ_apply']

/-- For every ROM image and every `n`: if the first `n` steps of the reference
machine are permitted, `n` times fetch and `process_instr` end in its pc,
registers and RAM, and the loop of `main` is there too unless it has met its cycle
limit before. -/
theorem emulator_refines_reference (rom : Fin romSize → Byte) (n : ℕ)
    (hpermitted : ∀ k < n,
      (Hart.step^[k] (resetHart rom)).Permitted Readable InRam) :
    ∃ s, runSteps true n (initMachine 32 rom) = some s ∧
      (Hart.step^[n] (resetHart rom)).pc = s.cpu.pc.toNat ∧
      (∀ r, (Hart.step^[n] (resetHart rom)).reg r = (s.cpu.regfile r).toNat) ∧
      (∀ i : Fin ramSize,
        (Hart.step^[n] (resetHart rom)).mem (ramStart + i) = (s.cpu.ram i).toNat) ∧
      ((∀ k < n, ∀ t, runSteps true k (initMachine 32 rom) = some t →
          t.mcycle.toNat < maxCycles) →
        runLoop true n (initMain 32 rom) = some (.loop true s)) := by
  have hreset : Shows (quietRun (resetHart rom)) (initMachine 32 rom) :=
    shows_reset 32 rom
  have hagrees := (shows_run hreset n hpermitted).hart
  refine ⟨_, runSteps_eq (.inl rfl) true n _, hagrees.pc, hagrees.reg, ?_, ?_⟩
  · intro i
    have hmem : (Hart.step^[n] (resetHart rom)).mem = _ := hagrees.mem
    rw [hmem, byteAt_ram _ i.isLt]
  · intro hcycles
    rw [runLoop_eq (.inl rfl), initMain]
    rw [loop_run hreset n hpermitted]
    intro k hk
    exact hcycles k hk _ (runSteps_eq (.inl rfl) true k _)

/-- `lui x1, 0x20000; sw x1, 0(x1); lw x2, 0(x1)` -/
def storeLoadRom : Fin romSize → Byte :=
  romOfWords [0x200000B7, 0x0010A023, 0x0000A103]

theorem refines_store_load : ∃ s,
    runSteps true 3 (initMachine 32 storeLoadRom) = some s ∧
      (s.cpu.regfile 2).toNat = 0x20000000 := by
  have hpermitted : ∀ k < 3,
      (Hart.step^[k] (resetHart storeLoadRom)).Permitted Readable InRam := by
    decide +kernel
  obtain ⟨s, hrun, -, hreg, -, -⟩ := emulator_refines_reference storeLoadRom 3 hpermitted
  refine ⟨s, hrun, ?_⟩
  rw [← hreg 2]
  decide +kernel

end Rvem.Refinement
