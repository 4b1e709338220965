import Rvem.Isa.Immediates
import Rvem.Memory.Bounds

/-!
# Invariants of every run

`x0` is zero and the pc is even in every state of the main loop, whatever words the
run meets.  The word executed is made of the four bytes at the pc; a pc where these
are not all mapped, and a zero word, end the loop and change nothing.
-/

namespace Rvem.RunInvariant

open Rvem.Arch
open Rvem.State
open Rvem.Core
open Rvem.Main
open Rvem.FlatMap
open Rvem.Fields
open Rvem.StepEffect
open Rvem.Run
open Rvem.Bounds
open Rvem.Immediates
open Rvem.Library.LittleEndian

variable {w : ℕ}

/-! ## Even addresses -/

/-- A multiple of two. -/
def Even (x : BitVec w) : Prop := 2 ∣ x.toNat

theorem even_iff_toInt (hw : 32 ≤ w) (x : BitVec w) : Even x ↔ 2 ∣ x.toInt := by
  have hpow : (2 : ℤ) ∣ 2 ^ w := dvd_pow_self 2 (by omega)
  have hnat : Even x ↔ (2 : ℤ) ∣ (x.toNat : ℤ) := by
    rw [Even]
    norm_cast
  rw [hnat, BitVec.toInt_eq_toNat_cond]
  split
  · rfl
  · push_cast
    exact (dvd_sub_left hpow).symm

theorem Even.add (hw : 32 ≤ w) {x y : BitVec w} (hx : Even x) (hy : Even y) :
    Even (x + y) := by
  have hpow : 2 ∣ 2 ^ w := dvd_pow_self 2 (by omega)
  rw [Even, BitVec.toNat_add, Nat.dvd_mod_iff hpow]
  exact dvd_add hx hy

theorem even_four (hw : 32 ≤ w) : Even (4 : BitVec w) := by
  have hpow : 2 ∣ 2 ^ w := dvd_pow_self 2 (by omega)
  change 2 ∣ 4 % 2 ^ w
  rw [Nat.dvd_mod_iff hpow]
  norm_num

/-- `& ~((reg_t) 1)` -/
theorem even_clearBit0 (hw : 32 ≤ w) (x : BitVec w) : Even (x &&& ~~~1#w) := by
  have hone : (1#w).getLsbD 0 = true := by
    simp only [BitVec.getLsbD_one, decide_eq_true (show 0 < w by omega), decide_true,
      Bool.and_self]
  have hbit : (x &&& ~~~1#w).toNat.testBit 0 = false := by
    rw [BitVec.testBit_toNat, BitVec.getLsbD_and, BitVec.getLsbD_not, hone, Bool.not_true,
      Bool.and_false, Bool.and_false]
  rw [Nat.testBit_zero, decide_eq_false_iff_not] at hbit
  rw [Even]
  omega

theorem even_getBranchImm (hw : 32 ≤ w) (raw : Word) : Even (getBranchImm w raw) := by
  rw [even_iff_toInt hw]
  exact ((packs_getBranchImm hw).in_range raw).1

theorem even_getJalImm (hw : 32 ≤ w) (raw : Word) : Even (getJalImm w raw) := by
  rw [even_iff_toInt hw]
  exact ((packs_getJalImm hw).in_range raw).1

/-! ## One step -/

/-- What every instruction keeps. -/
structure CpuInvariant (cpu : Cpu w) : Prop where
  zero : cpu.regfile 0 = 0
  even : Even cpu.pc

/-- Branch and jump offsets are even and `OP_JALR` clears bit 0, so an even pc stays
even. -/
theorem even_nextPc (hw : 32 ≤ w) (m : Bool) (s : Machine w) (raw : Word)
    (hpc : Even s.cpu.pc) : Even (effect m s raw).nextPc := by
  have hnext : Even (s.cpu.pc + 4) := hpc.add hw (even_four hw)
  cases hclass : opClass w (getOpcode raw) <;> simp only [effect, hclass, skip]
  case branch =>
    split
    · exact hpc.add hw (even_getBranchImm hw raw)
    · exact hnext
  case jal => exact hpc.add hw (even_getJalImm hw raw)
  case jalr => exact even_clearBit0 hw _
  all_goals exact hnext

/-- One call keeps `x0` zero and the pc even. -/
theorem CpuInvariant.step (hw : 32 ≤ w) (m : Bool) {s : Machine w}
    (hinv : CpuInvariant s.cpu) : CpuInvariant (step m s).cpu where
  zero := rfl
  even := even_nextPc hw m (afterFetch s) _ hinv.even

theorem CpuInvariant.loopNext (hw : 32 ≤ w) (m : Bool) {c : MainState w}
    (hinv : CpuInvariant c.machine.cpu) : CpuInvariant (loopNext m c).machine.cpu := by
  rcases loopNext_cases m c with
    ⟨s, rfl, -, -, hstep⟩ | ⟨s, rfl, -, -, -, hstep⟩ | ⟨-, -, hstep⟩ <;>
    rw [hstep]
  · exact hinv.step hw m
  · exact hinv
  · exact hinv

/-! ## Every run -/

/-- In every state of the main loop `x0` is zero and the pc is even. -/
theorem cpuInvariant (b : Build) (rom : Fin romSize → Byte) (k : ℕ) :
    CpuInvariant (mainAfter b rom k).machine.cpu := by
  have hw : 32 ≤ b.xlen := by
    rcases b.xlen_eq with hxlen | hxlen <;> omega
  induction k with
  | zero => exact ⟨rfl, dvd_zero 2⟩
  | succ k ih =>
      rw [mainAfter_succ]
      exact ih.loopNext hw b.mExt

/-- What holds in every state of the loop. -/
structure LoopInvariant (m : Bool) (c : MainState w) : Prop where
  zero : c.machine.cpu.regfile 0 = 0
  operands : ∀ raw, (rs1 raw = 0 → readReg c.machine (getRs1 raw) = some 0) ∧
    (rs2 raw = 0 → readReg c.machine (getRs2 raw) = some 0)
  even : Even c.machine.cpu.pc
  executed : ∀ s word, fetch c.machine = some (s, word) → word ≠ 0 →
    Readable c.machine.cpu.pc.toNat 4 ∧
      word.toNat = load (byteAt c.machine.cpu) c.machine.cpu.pc.toNat 4
  left : c.looping = true →
    ¬Readable c.machine.cpu.pc.toNat 4 ∨
      load (byteAt c.machine.cpu) c.machine.cpu.pc.toNat 4 = 0 →
    ∃ s, loopStep m c = some (.failed s) ∧ s.cpu = c.machine.cpu

/-- The word fetched is nonzero only where it is mapped and spelled by the four
bytes. -/
theorem fetchedWord_ne_zero {cpu : Cpu w} (hword : fetchedWord cpu ≠ 0) :
    Readable cpu.pc.toNat 4 ∧ (fetchedWord cpu).toNat =
      load (byteAt cpu) cpu.pc.toNat 4 := by
  by_cases hregion : Readable cpu.pc.toNat 4
  · refine ⟨hregion, ?_⟩
    rw [fetchedWord, if_pos hregion, BitVec.toNat_ofNat]
    exact Nat.mod_eq_of_lt (load_lt (byteAt_lt cpu) _ 4)
  · exact absurd (if_neg hregion) hword

theorem fetchedWord_eq_zero {cpu : Cpu w} (hcpu : ¬Readable cpu.pc.toNat 4 ∨
    load (byteAt cpu) cpu.pc.toNat 4 = 0) : fetchedWord cpu = 0 := by
  rw [fetchedWord]
  split
  · next hregion =>
      rw [hcpu.resolve_left (not_not.mpr hregion)]
      rfl
  · rfl

/-- What one iteration does: it executes the word at the pc, or it ends the loop and
changes nothing. -/
theorem loopInvariant (hw : w = 32 ∨ w = 64) (m : Bool) {c : MainState w}
    (hinv : CpuInvariant c.machine.cpu) : LoopInvariant m c where
  zero := hinv.zero
  operands := by
    intro raw
    constructor
    · intro hrs1
      rw [readReg_rs1, hrs1, hinv.zero]
    · intro hrs2
      rw [readReg_rs2, hrs2, hinv.zero]
  even := hinv.even
  executed := by
    intro s word hfetch hword
    rw [fetch_eq hw, Option.some.injEq, Prod.mk.injEq] at hfetch
    obtain ⟨-, rfl⟩ := hfetch
    exact fetchedWord_ne_zero hword
  left := by
    intro hlooping hcpu
    cases c with
    | failed s => cases hlooping
    | loop instrLoop s =>
        have hword : fetchedWord s.cpu = 0 := fetchedWord_eq_zero hcpu
        refine ⟨afterFetch s, ?_, rfl⟩
        rw [loopStep_eq hw, loopNext_of_looping hlooping, loopBody, if_pos hword]

/-- For every ROM image, after any number of iterations. -/
theorem run_invariant (b : Build) (rom : Fin romSize → Byte) (k : ℕ) :
    ∃ c, runLoop b.mExt k (initMain b.xlen rom) = some c ∧ LoopInvariant b.mExt c :=
  ⟨_, runLoop_main b rom k, loopInvariant b.xlen_eq b.mExt (cpuInvariant b rom k)⟩

end Rvem.RunInvariant
