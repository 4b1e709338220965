import Rvem.Semantics.Run

/-!
# The frame of one step

What `process_instr` leaves alone, for every word: the registers other than `rd`, RAM
outside the bytes of a store, ROM, and the pc's way to the next word.  Only the STORE
case touches RAM, and only in the bytes of its access; only branches and jumps go
anywhere else; nothing ever writes ROM.
-/

namespace Rvem.Frame

open Rvem.Arch
open Rvem.State
open Rvem.Bus
open Rvem.Core
open Rvem.Main
open Rvem.Assembly
open Rvem.FlatMap
open Rvem.Fields
open Rvem.StepEffect
open Rvem.Run

variable {w : ℕ}

/-! ## The frame of the effect table -/

/-- The words that have no destination register. -/
def WritesNoRegister (w : ℕ) (raw : Word) : Prop :=
  match opClass w (getOpcode raw) with
  | .store | .branch | .fence | .unrecognized => True
  | .sys => getFunct3 raw = 0 ∨ getFunct3 raw = 4
  | _ => False

/-- The words that do not go on with the next word in every state. -/
def IsControlTransfer (w : ℕ) (raw : Word) : Prop :=
  match opClass w (getOpcode raw) with
  | .branch | .jal | .jalr => True
  | _ => False

/-- Stores, branches and fences have no value for `rd`. -/
theorem effect_value_of_writesNoRegister (m : Bool) (s : Machine w) {raw : Word}
    (hraw : WritesNoRegister w raw) : (effect m s raw).value = none := by
  rw [WritesNoRegister] at hraw
  cases hclass : opClass w (getOpcode raw) <;> rw [hclass] at hraw <;>
    simp only [effect, hclass, skip]
  case sys =>
    rcases hraw with hesys | hfour
    · simp [sysValue, hesys]
    · simp [sysValue, hfour]
  all_goals cases hraw

/-- Only the STORE case touches RAM. -/
theorem effect_ram (m : Bool) (s : Machine w) {raw : Word}
    (hclass : opClass w (getOpcode raw) ≠ .store) : (effect m s raw).ram = s.cpu.ram := by
  cases hcase : opClass w (getOpcode raw) <;> simp only [effect, hcase, skip]
  exact absurd hcase hclass

theorem effect_ram_store (m : Bool) (s : Machine w) {raw : Word}
    (hclass : opClass w (getOpcode raw) = .store) :
    (effect m s raw).ram = writtenRam s.cpu (storeAddr s.cpu raw) (getFunct3 raw)
      (s.cpu.regfile (rs2 raw)) := by
  simp only [effect, hclass]

/-- Only branches and jumps go anywhere but to the next word. -/
theorem effect_nextPc (m : Bool) (s : Machine w) {raw : Word}
    (hraw : ¬IsControlTransfer w raw) : (effect m s raw).nextPc = s.cpu.pc + 4 := by
  rw [IsControlTransfer] at hraw
  cases hclass : opClass w (getOpcode raw) <;> rw [hclass] at hraw <;>
    simp only [effect, hclass, skip]
  all_goals exact absurd trivial hraw

/-- A byte that a store changes is one of the bytes it covers. -/
theorem writtenRam_frame (cpu : Cpu w) (addr : BitVec w) (op : Byte) (val : BitVec w)
    {i : Fin ramSize} (hchanged : writtenRam cpu addr op val i ≠ cpu.ram i) :
    ∃ n ∈ storeSize w op, addr.toNat ≤ ramStart + i ∧ ramStart + i < addr.toNat + n := by
  rw [writtenRam] at hchanged
  by_cases hregion : InRam addr.toNat (busRange w op + 1)
  · rw [if_pos hregion] at hchanged
    cases hsize : storeSize w op with
    | none =>
        rw [hsize] at hchanged
        exact absurd rfl hchanged
    | some n =>
        rw [hsize] at hchanged
        refine ⟨n, rfl, ?_⟩
        by_contra houtside
        exact hchanged (if_neg houtside)
  · rw [if_neg hregion] at hchanged
    exact absurd rfl hchanged

/-! ## The frame of a call -/

/-- What every call of `process_instr` with `raw` keeps of `s` in `s'`. -/
structure StepFrame (raw : Word) (s s' : Machine w) : Prop where
  registers : ∀ r, r ≠ rd raw → s'.cpu.regfile r = s.cpu.regfile r
  no_register : WritesNoRegister w raw → s'.cpu.regfile = s.cpu.regfile
  ram : opClass w (getOpcode raw) ≠ .store → s'.cpu.ram = s.cpu.ram
  stored : ∀ i : Fin ramSize, s'.cpu.ram i ≠ s.cpu.ram i →
    ∃ size ∈ storeSize w (getFunct3 raw),
      (storeAddr s.cpu raw).toNat ≤ ramStart + i ∧
      ramStart + i < (storeAddr s.cpu raw).toNat + size
  rom : s'.cpu.rom = s.cpu.rom
  pc : ¬IsControlTransfer w raw → s'.cpu.pc = s.cpu.pc + 4
  minstret : s'.minstret = s.minstret + 1

/-- For every word and every state in which `x0` is zero. -/
theorem process_instr_frame (b : Build) (s : Machine b.xlen) (raw : Word)
    (hzero : s.cpu.regfile 0 = 0) :
    ∃ s' execContinue, processInstr b.mExt s raw = some (s', execContinue) ∧
      StepFrame raw s s' := by
  refine ⟨_, _, processInstr_eq b.xlen_eq b.mExt s raw, ?_⟩
  refine ⟨?_, ?_, effect_ram b.mExt s, ?_, rfl, effect_nextPc b.mExt s, rfl⟩
  · intro r hr
    by_cases hr0 : r = 0
    · rw [hr0, hzero]
      rfl
    · simp only [Effect.apply, regfileAfter, if_neg hr0, if_neg hr]
  · intro hraw
    funext r
    simp only [Effect.apply, regfileAfter, effect_value_of_writesNoRegister b.mExt s hraw,
      Option.getD_none, ite_self]
    split
    · next hr => rw [hr, hzero]
    · rfl
  · intro i hchanged
    by_cases hclass : opClass b.xlen (getOpcode raw) = .store
    · rw [Effect.apply, effect_ram_store b.mExt s hclass] at hchanged
      exact writtenRam_frame _ _ _ _ hchanged
    · exact absurd (congrFun (effect_ram b.mExt s hclass) i) hchanged

/-- A machine in the middle of a run: no register but `x0` and no byte of RAM is
zero, and `x5` points into RAM. -/
def runningMachine : Machine 32 :=
  { initMachine 32 fun _ => 0 with
    cpu :=
      { rom := fun _ => 0
        ram := fun i => BitVec.ofNat 8 (i % 255 + 1)
        regfile := fun r =>
          if r = 0 then 0
          else if r = 5 then BitVec.ofNat 32 (ramStart + 155)
          else BitVec.ofNat 32 (0x12345600 + r)
        pc := 0x40 }
    mcycle := 77
    minstret := 40
    perfModel := ⟨5, 6, true, true, true⟩ }

/-- `sw x6, 10(x5)`: the four bytes of `x6` replace those of RAM at 165 to 168,
across a word boundary, and the bytes around them stay. -/
theorem process_instr_frame_store : ∃ s' execContinue,
    processInstr true runningMachine 0x0062A523#32 = some (s', execContinue) ∧
      StepFrame 0x0062A523#32 runningMachine s' ∧
      (List.range' (ramStart + 164) 6).map (byteAt s'.cpu) =
        [165, 0x06, 0x56, 0x34, 0x12, 170] := by
  obtain ⟨s', execContinue, hcall, hframe⟩ :=
    process_instr_frame ⟨32, .inl rfl, true⟩ runningMachine 0x0062A523#32 rfl
  refine ⟨s', execContinue, hcall, hframe, ?_⟩
  rw [processInstr_eq (.inl rfl), Option.some.injEq, Prod.mk.injEq] at hcall
  rw [← hcall.1]
  decide +kernel

end Rvem.Frame
