import Rvem.Memory.FlatMap
import Rvem.Semantics.StepEffect

/-!
# Reads after any sequence of stores

`bus_write` refines a write to the flat byte map: a store that lies inside RAM is
carried out, any other one is ignored.  A read after any sequence of stores then
composes the bytes last written.  The cycles spent are those of the unaligned bytes,
call by call.
-/

namespace Rvem.StoreHistory

open Rvem.Arch
open Rvem.State
open Rvem.Bus
open Rvem.Assembly
open Rvem.FlatMap
open Rvem.StepEffect
open Rvem.Library.LittleEndian

variable {w : ℕ}

/-- The arguments of one call of `bus_write`. -/
structure StoreCall (w : ℕ) where
  addr : BitVec w
  op : Byte
  val : BitVec w

/-- The calls one after the other. -/
def writeAll : Machine w → List (StoreCall w) → Option (Machine w)
  | s, [] => some s
  | s, call :: calls => do
      writeAll (← busWrite s call.addr call.op call.val) calls

/-- The write a call carries out on the flat map, if it carries one out. -/
def performed (call : StoreCall w) : Option Write :=
  match storeSize w call.op with
  | some n =>
      if InRam call.addr.toNat n then some ⟨call.addr.toNat, n, call.val.toNat⟩
      else none
  | none => none

/-- Stall cycles of an access of `count` bytes. -/
def unaligned (address count : ℕ) : ℕ :=
  if address % count = 0 then 0 else 1

/-- Stall cycles of one call. -/
def callCycles (call : StoreCall w) : ℕ :=
  match performed call with
  | some write => unaligned write.address write.count
  | none => 0

theorem alignStalls_some (addr : BitVec w) (n : ℕ) :
    alignStalls addr (some n) = unaligned addr.toNat n := by
  unfold alignStalls unaligned
  by_cases h : addr.toNat % n = 0 <;> simp [h]

theorem callCycles_eq (call : StoreCall w) :
    callCycles call = writeStalls call.addr call.op := by
  unfold callCycles performed writeStalls
  cases hsize : storeSize w call.op with
  | none => simp [alignStalls]
  | some n =>
      rw [busRange_of_loadSize (loadSize_of_storeSize hsize), alignStalls_some]
      by_cases hram : InRam call.addr.toNat n
      · simp only [if_pos hram]
      · simp only [if_neg hram]

/-- One call refines one write of the flat map. -/
theorem byteAt_writeOutcome (s : Machine w) (call : StoreCall w) :
    byteAt (writeOutcome s call.addr call.op call.val).cpu =
      applyWrites (byteAt s.cpu) (performed call).toList := by
  rw [writeOutcome_eq, performed]
  simp only [writtenRam]
  cases hsize : storeSize w call.op with
  | none =>
      simp only [ite_self]
      exact byteAt_congr rfl rfl
  | some n =>
      rw [busRange_of_loadSize (loadSize_of_storeSize hsize)]
      by_cases hram : InRam call.addr.toNat n
      · simp only [if_pos hram]
        exact byteAt_storedRam s.cpu _ hram
      · simp only [if_neg hram]
        exact byteAt_congr rfl rfl

/-- Any sequence of calls refines the writes it carries out: ROM keeps its
content, and the counter moves by the stalls of these writes alone. -/
theorem writeAll_eq (hw : w = 32 ∨ w = 64) (s : Machine w)
    (calls : List (StoreCall w)) :
    ∃ s', writeAll s calls = some s' ∧ s'.cpu.rom = s.cpu.rom ∧
      byteAt s'.cpu = applyWrites (byteAt s.cpu) (calls.filterMap performed) ∧
      s'.mcycle = s.mcycle + BitVec.ofNat 64 (calls.map callCycles).sum := by
  induction calls generalizing s with
  | nil => exact ⟨s, rfl, rfl, rfl, (BitVec.add_zero s.mcycle).symm⟩
  | cons call calls ih =>
      let s₁ := writeOutcome s call.addr call.op call.val
      obtain ⟨s', hrun, hrom, hbytes, hcycles⟩ := ih s₁
      have hfirst : s₁.mcycle = s.mcycle + BitVec.ofNat 64 (callCycles call) := by
        rw [callCycles_eq]
        exact congrArg Machine.mcycle (writeOutcome_eq s _ _ _)
      have hkept : s₁.cpu.rom = s.cpu.rom :=
        congrArg (fun s => s.cpu.rom) (writeOutcome_eq s _ _ _)
      refine ⟨s', ?_, hrom.trans hkept, ?_, ?_⟩
      · rw [writeAll, busWrite_eq hw]
        exact hrun
      · rw [hbytes, byteAt_writeOutcome s call, List.filterMap_cons]
        cases performed call with
        | none => rfl
        | some write => rfl
      · rw [hcycles, hfirst, List.map_cons, List.sum_cons, BitVec.ofNat_add,
          BitVec.add_assoc]

/-- A read that lies inside one region composes the bytes shown there. -/
theorem busRead_readable (hw : w = 32 ∨ w = 64) (s : Machine w)
    {addr : BitVec w} {op : Byte} {n : ℕ} (val : BitVec w)
    (hsize : loadSize w op = some n) (hregion : Readable addr.toNat n) :
    busRead s addr op val =
      some (advance s (unaligned addr.toNat n) [],
        loadValue w op n (load (byteAt s.cpu) addr.toNat n)) := by
  have hregion' : Readable addr.toNat (busRange w op + 1) := by
    rwa [busRange_of_loadSize hsize]
  rw [busRead_eq hw, readOutcome_eq, readStalls, readLines, readValue,
    if_pos hregion', if_pos hregion', if_pos hregion', hsize, alignStalls_some]
  rfl

/-- The byte at `a` after `calls`: the last one written there, or the initial one. -/
def byteAfter (s : Machine w) (calls : List (StoreCall w)) (a : ℕ) : ℕ :=
  lastByte (byteAt s.cpu) a (calls.filterMap performed).reverse

/-- ROM and RAM behave as one flat little-endian byte map whose ROM part is
read-only: after any stores, a read inside one region composes the bytes last
written to its addresses.  Reads of equal bytes give equal values, and each
access carried out costs one cycle exactly when it is unaligned. -/
theorem busRead_after_stores (b : Build) (s : Machine b.xlen)
    (calls : List (StoreCall b.xlen)) :
    ∃ s', writeAll s calls = some s' ∧
      s'.cpu.rom = s.cpu.rom ∧
      s'.mcycle = s.mcycle + BitVec.ofNat 64 (calls.map callCycles).sum ∧
      (∀ (addr val : BitVec b.xlen) (op : Byte) (n : ℕ),
        loadSize b.xlen op = some n → Readable addr.toNat n →
        ∃ s'', busRead s' addr op val =
            some (s'', loadValue b.xlen op n
              (load (byteAfter s calls) addr.toNat n)) ∧
          s''.cpu = s'.cpu ∧
          s''.mcycle = s'.mcycle + BitVec.ofNat 64 (unaligned addr.toNat n)) ∧
      ∀ (left right val : BitVec b.xlen) (op : Byte) (n : ℕ),
        loadSize b.xlen op = some n →
        Readable left.toNat n → Readable right.toNat n →
        (∀ i < n, byteAfter s calls (left.toNat + i) =
          byteAfter s calls (right.toNat + i)) →
        (busRead s' left op val).map Prod.snd =
          (busRead s' right op val).map Prod.snd := by
  obtain ⟨s', hrun, hrom, hbytes, hcycles⟩ := writeAll_eq b.xlen_eq s calls
  have hafter : byteAt s'.cpu = byteAfter s calls := by
    funext a
    rw [hbytes, applyWrites_apply]
    rfl
  refine ⟨s', hrun, hrom, hcycles, ?_, ?_⟩
  · intro addr val op n hsize hregion
    refine ⟨advance s' (unaligned addr.toNat n) [], ?_, rfl, rfl⟩
    rw [busRead_readable b.xlen_eq s' val hsize hregion, hafter]
  · intro left right val op n hsize hleft hright hequal
    rw [busRead_readable b.xlen_eq s' val hsize hleft,
      busRead_readable b.xlen_eq s' val hsize hright, Option.map_some,
      Option.map_some, hafter, load_congr hequal]

end Rvem.StoreHistory
