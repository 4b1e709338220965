import Rvem.Memory.StoreHistory
import Rvem.Semantics.Run

/-!
# Bounds and all-or-nothing accesses

An index out of bounds makes the model undefined, so totality of the accesses is
the absence of such indices.  A load, store or fetch with a defined width code is
carried out exactly when all its bytes lie in one permitted region; any other
access leaves memory, the destination register and the stall count alone.
-/

namespace Rvem.Bounds

open Rvem.Arch
open Rvem.State
open Rvem.Bus
open Rvem.Core
open Rvem.Main
open Rvem.Assembly
open Rvem.FlatMap
open Rvem.Fields
open Rvem.StepEffect
open Rvem.StoreHistory
open Rvem.Run
open Rvem.Library.LittleEndian

variable {w : ℕ}

/-- A load code is defined and its bytes lie in ROM or in RAM. -/
def LoadPermitted (w : ℕ) (op : Byte) (address : ℕ) : Prop :=
  ∃ n, loadSize w op = some n ∧ Readable address n

/-- A store code is defined and its bytes lie in RAM. -/
def StorePermitted (w : ℕ) (op : Byte) (address : ℕ) : Prop :=
  ∃ n, storeSize w op = some n ∧ InRam address n

/-- A permitted load gets the bytes at its address and waits one cycle for each unaligned
byte. -/
theorem readValue_permitted (cpu : Cpu w) {addr : BitVec w} {op : Byte} {n : ℕ}
    (hsize : loadSize w op = some n) (hregion : Readable addr.toNat n) :
    readValue cpu addr op =
        some (loadValue w op n (load (byteAt cpu) addr.toNat n)) ∧
      readStalls addr op = unaligned addr.toNat n := by
  have hregion' : Readable addr.toNat (busRange w op + 1) := by
    rwa [busRange_of_loadSize hsize]
  rw [readValue, readStalls, if_pos hregion', if_pos hregion', hsize,
    alignStalls_some]
  exact ⟨rfl, rfl⟩

/-- A refused load keeps the old value and costs nothing. -/
theorem readValue_refused (cpu : Cpu w) {addr : BitVec w} {op : Byte}
    (hrefused : ¬LoadPermitted w op addr.toNat) :
    readValue cpu addr op = none ∧ readStalls addr op = 0 := by
  rw [readValue, readStalls]
  cases hsize : loadSize w op with
  | none => simp [alignStalls]
  | some n =>
      have hregion : ¬Readable addr.toNat (busRange w op + 1) := by
        rw [busRange_of_loadSize hsize]
        exact fun hregion => hrefused ⟨n, hsize, hregion⟩
      rw [if_neg hregion, if_neg hregion]
      exact ⟨rfl, rfl⟩

/-- A permitted store writes the bytes of its value and nothing else. -/
theorem writtenRam_permitted (cpu : Cpu w) {addr : BitVec w} {op : Byte} {n : ℕ}
    (val : BitVec w) (hsize : storeSize w op = some n)
    (hregion : InRam addr.toNat n) :
    writtenRam cpu addr op val = storedRam cpu.ram addr.toNat n val.toNat ∧
      writeStalls addr op = unaligned addr.toNat n := by
  have hregion' : InRam addr.toNat (busRange w op + 1) := by
    rwa [busRange_of_loadSize (loadSize_of_storeSize hsize)]
  rw [writtenRam, writeStalls, if_pos hregion', if_pos hregion', hsize,
    alignStalls_some]
  exact ⟨rfl, rfl⟩

theorem writtenRam_refused (cpu : Cpu w) {addr : BitVec w} {op : Byte}
    (val : BitVec w) (hrefused : ¬StorePermitted w op addr.toNat) :
    writtenRam cpu addr op val = cpu.ram ∧ writeStalls addr op = 0 := by
  rw [writtenRam, writeStalls]
  cases hsize : storeSize w op with
  | none => simp [alignStalls]
  | some n =>
      have hregion : ¬InRam addr.toNat (busRange w op + 1) := by
        rw [busRange_of_loadSize (loadSize_of_storeSize hsize)]
        exact fun hregion => hrefused ⟨n, hsize, hregion⟩
      rw [if_neg hregion, if_neg hregion]
      exact ⟨rfl, rfl⟩

/-! ## Instructions -/

/-- Registers no instruction wrote: `x0` is zero, the others are kept. -/
def KeepsRegisters (before after : Machine w) : Prop :=
  ∀ r, after.cpu.regfile r = if r = 0 then 0 else before.cpu.regfile r

/-- What a LOAD word does in state `s`. -/
structure LoadBehaviour (s : Machine w) (raw : Word) (s' : Machine w) : Prop where
  memory_kept : s'.cpu.rom = s.cpu.rom ∧ s'.cpu.ram = s.cpu.ram
  carried_out : ∀ n, loadSize w (getFunct3 raw) = some n →
    Readable (loadAddr s.cpu raw).toNat n →
    s'.cpu.regfile = regfileAfter s.cpu.regfile (rd raw)
        (some (loadValue w (getFunct3 raw) n
          (load (byteAt s.cpu) (loadAddr s.cpu raw).toNat n))) ∧
      s'.mcycle = s.mcycle + BitVec.ofNat 64
        (dataStalls s.perfModel (decoded w raw)
          + unaligned (loadAddr s.cpu raw).toNat n + 1)
  refused : ¬LoadPermitted w (getFunct3 raw) (loadAddr s.cpu raw).toNat →
    KeepsRegisters s s' ∧
      s'.mcycle = s.mcycle + BitVec.ofNat 64
        (dataStalls s.perfModel (decoded w raw) + 1)

/-- What a STORE word does in state `s`. -/
structure StoreBehaviour (s : Machine w) (raw : Word) (s' : Machine w) : Prop where
  registers_kept : s'.cpu.rom = s.cpu.rom ∧ KeepsRegisters s s'
  carried_out : ∀ n, storeSize w (getFunct3 raw) = some n →
    InRam (storeAddr s.cpu raw).toNat n →
    byteAt s'.cpu = store (byteAt s.cpu) (storeAddr s.cpu raw).toNat n
        (s.cpu.regfile (rs2 raw)).toNat ∧
      s'.mcycle = s.mcycle + BitVec.ofNat 64
        (dataStalls s.perfModel (decoded w raw)
          + unaligned (storeAddr s.cpu raw).toNat n + 1)
  refused : ¬StorePermitted w (getFunct3 raw) (storeAddr s.cpu raw).toNat →
    s'.cpu.ram = s.cpu.ram ∧
      s'.mcycle = s.mcycle + BitVec.ofNat 64
        (dataStalls s.perfModel (decoded w raw) + 1)

/-- What the fetch does in state `s`. -/
structure FetchBehaviour (s s' : Machine w) (word : Word) : Prop where
  cpu_kept : s'.cpu = s.cpu
  carried_out : Readable s.cpu.pc.toNat 4 →
    word = BitVec.ofNat 32 (load (byteAt s.cpu) s.cpu.pc.toNat 4) ∧
      s'.mcycle = s.mcycle + BitVec.ofNat 64 (unaligned s.cpu.pc.toNat 4)
  refused : ¬Readable s.cpu.pc.toNat 4 → word = 0 ∧ s'.mcycle = s.mcycle

theorem loadBehaviour (m : Bool) (s : Machine w) {raw : Word}
    (hclass : opClass w (getOpcode raw) = .load) :
    LoadBehaviour s raw ((effect m s raw).apply s raw) where
  memory_kept := by
    simp only [effect, hclass]
    exact ⟨rfl, rfl⟩
  carried_out := by
    intro n hsize hregion
    obtain ⟨hvalue, hstalls⟩ := readValue_permitted s.cpu hsize hregion
    simp only [effect, hclass, Effect.apply, hvalue, hstalls]
    exact ⟨trivial, trivial⟩
  refused := by
    intro hrefused
    obtain ⟨hvalue, hstalls⟩ := readValue_refused s.cpu hrefused
    simp only [KeepsRegisters, effect, hclass, Effect.apply, hvalue, hstalls]
    refine ⟨fun r => ?_, trivial⟩
    simp only [regfileAfter, Option.getD_none, ite_self]

theorem storeBehaviour (m : Bool) (s : Machine w) {raw : Word}
    (hclass : opClass w (getOpcode raw) = .store) :
    StoreBehaviour s raw ((effect m s raw).apply s raw) where
  registers_kept := by
    simp only [KeepsRegisters, effect, hclass, Effect.apply, skip]
    refine ⟨trivial, fun r => ?_⟩
    simp only [regfileAfter, Option.getD_none, ite_self]
  carried_out := by
    intro n hsize hregion
    obtain ⟨hram, hstalls⟩ :=
      writtenRam_permitted s.cpu (s.cpu.regfile (rs2 raw)) hsize hregion
    simp only [effect, hclass, Effect.apply, hram, hstalls]
    exact ⟨byteAt_storedRam s.cpu _ hregion, trivial⟩
  refused := by
    intro hrefused
    obtain ⟨hram, hstalls⟩ :=
      writtenRam_refused s.cpu (s.cpu.regfile (rs2 raw)) hrefused
    simp only [effect, hclass, Effect.apply, hram, hstalls]
    exact ⟨trivial, trivial⟩

theorem fetchBehaviour (s : Machine w) :
    FetchBehaviour s (afterFetch s) (fetchedWord s.cpu) where
  cpu_kept := rfl
  carried_out := by
    intro hregion
    obtain ⟨-, hstalls⟩ := readValue_permitted s.cpu loadSize_memW hregion
    rw [fetchedWord, if_pos hregion, afterFetch, hstalls]
    exact ⟨rfl, rfl⟩
  refused := by
    intro hregion
    have hrefused : ¬LoadPermitted w memW s.cpu.pc.toNat := by
      rintro ⟨n, hsize, hreadable⟩
      rw [loadSize_memW, Option.some.injEq] at hsize
      exact hregion (hsize ▸ hreadable)
    obtain ⟨-, hstalls⟩ := readValue_refused s.cpu hrefused
    rw [fetchedWord, if_neg hregion, afterFetch, hstalls]
    exact ⟨rfl, BitVec.add_zero s.mcycle⟩

/-- No index is out of bounds, and loads, stores and fetches are carried out
exactly when permitted and are all-or-nothing, for every word and state. -/
theorem accesses_bounded (b : Build) (s : Machine b.xlen) :
    (∀ (addr val : BitVec b.xlen) (op : Byte),
      (busRead s addr op val).isSome ∧ (busWrite s addr op val).isSome) ∧
    (∃ s' word, fetch s = some (s', word) ∧ FetchBehaviour s s' word) ∧
    ∀ raw : Word, ∃ s' execContinue,
      processInstr b.mExt s raw = some (s', execContinue) ∧
      (opClass b.xlen (getOpcode raw) = .load → LoadBehaviour s raw s') ∧
      (opClass b.xlen (getOpcode raw) = .store → StoreBehaviour s raw s') := by
  refine ⟨fun addr val op => ?_, ?_, fun raw => ?_⟩
  · rw [busRead_eq b.xlen_eq, busWrite_eq b.xlen_eq]
    exact ⟨rfl, rfl⟩
  · exact ⟨_, _, fetch_eq b.xlen_eq s, fetchBehaviour s⟩
  · exact ⟨_, _, processInstr_eq b.xlen_eq b.mExt s raw,
      loadBehaviour b.mExt s, storeBehaviour b.mExt s⟩

end Rvem.Bounds
