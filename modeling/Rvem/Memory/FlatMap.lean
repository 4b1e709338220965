import Rvem.Memory.Assembly

/-!
# The bus as one byte map

ROM and RAM are shown as a single byte map over bus addresses.  Every bus access
is then defined, whatever its address and code, and its outcome is stated once:
in terms of this map, the access width and the region the access lies in.
-/

namespace Rvem.FlatMap

open Rvem.Arch
open Rvem.State
open Rvem.Bus
open Rvem.Assembly
open Rvem.Library
open Rvem.Library.LittleEndian

variable {w : ℕ}

/-! ## Regions -/

/-- The `count` bytes from `address` on all lie in ROM. -/
def InRom (address count : ℕ) : Prop :=
  romStart ≤ address ∧ address + count ≤ romStart + romSize

/-- The `count` bytes from `address` on all lie in RAM. -/
def InRam (address count : ℕ) : Prop :=
  ramStart ≤ address ∧ address + count ≤ ramStart + ramSize

/-- The region lies inside ROM or inside RAM. -/
def Readable (address count : ℕ) : Prop :=
  InRom address count ∨ InRam address count

instance (address count : ℕ) : Decidable (InRom address count) :=
  inferInstanceAs (Decidable (_ ∧ _))

instance (address count : ℕ) : Decidable (InRam address count) :=
  inferInstanceAs (Decidable (_ ∧ _))

instance (address count : ℕ) : Decidable (Readable address count) :=
  inferInstanceAs (Decidable (_ ∨ _))

/-- The byte shown at a bus address; unmapped addresses show zero. -/
def byteAt (cpu : Cpu w) (a : ℕ) : ℕ :=
  if h : a < romSize then (cpu.rom ⟨a, h⟩).toNat
  else if h : ramStart ≤ a ∧ a < ramStart + ramSize then
    (cpu.ram ⟨a - ramStart, by omega⟩).toNat
  else 0

theorem byteAt_lt (cpu : Cpu w) (a : ℕ) : byteAt cpu a < 256 := by
  unfold byteAt
  split
  · exact (cpu.rom _).isLt
  · split
    · exact (cpu.ram _).isLt
    · norm_num

theorem byteAt_rom (cpu : Cpu w) {a : ℕ} (ha : a < romSize) :
    byteAt cpu a = (cpu.rom ⟨a, ha⟩).toNat :=
  dif_pos ha

theorem byteAt_ram (cpu : Cpu w) {i : ℕ} (hi : i < ramSize) :
    byteAt cpu (ramStart + i) = (cpu.ram ⟨i, hi⟩).toNat := by
  have hrom : ¬ramStart + i < romSize := by
    simp only [ramStart, romSize]
    omega
  simp only [byteAt, hrom, dite_false, Nat.le_add_right, true_and,
    Nat.add_lt_add_iff_left, hi, dite_true, Nat.add_sub_cancel_left]

/-- The map depends on the two arrays only. -/
theorem byteAt_congr {left right : Cpu w} (hrom : left.rom = right.rom)
    (hram : left.ram = right.ram) : byteAt left = byteAt right := by
  funext a
  unfold byteAt
  rw [hrom, hram]

/-! ## The range tests -/

theorem busRange_le (w : ℕ) (op : Byte) : busRange w op ≤ 7 := by
  unfold busRange
  split_ifs <;> norm_num

theorem two_pow_xlen_ge (hw : w = 32 ∨ w = 64) : 2 ^ 32 ≤ 2 ^ w :=
  Nat.pow_le_pow_right (by norm_num) (by omega)

/-- The guard of the RAM macros, evaluated at the register width, asks for the whole
region. -/
theorem ramGuard_iff (hw : w = 32 ∨ w = 64) (addr : BitVec w) {range : ℕ}
    (hrange : range ≤ 7) :
    (BitVec.ofNat w ramStart ≤ addr
        ∧ addr < BitVec.ofNat w (ramStart + ramSize - range)) ↔
      InRam addr.toNat (range + 1) := by
  have hpow := two_pow_xlen_ge hw
  simp only [InRam, ramStart, ramSize] at hpow ⊢
  rw [BitVec.le_def, BitVec.lt_def, BitVec.toNat_ofNat, BitVec.toNat_ofNat,
    Nat.mod_eq_of_lt (by omega), Nat.mod_eq_of_lt (by omega)]
  omega

theorem romGuard_iff (hw : w = 32 ∨ w = 64) (addr : BitVec w) {range : ℕ}
    (hrange : range ≤ 7) :
    addr < BitVec.ofNat w (romSize - range) ↔ InRom addr.toNat (range + 1) := by
  have hpow := two_pow_xlen_ge hw
  simp only [InRom, romStart, romSize] at hpow ⊢
  rw [BitVec.lt_def, BitVec.toNat_ofNat, Nat.mod_eq_of_lt (by omega)]
  omega

/-! ## Reads -/

/-- What `bus_read` does: the state after it and the new contents of `*val`. -/
def readOutcome (s : Machine w) (addr : BitVec w) (op : Byte) (val : BitVec w) :
    Machine w × BitVec w :=
  if Readable addr.toNat (busRange w op + 1) then
    match loadSize w op with
    | some n =>
        (mcycleIncrIf (addr.toNat % n ≠ 0) s,
          loadValue w op n (load (byteAt s.cpu) addr.toNat n))
    | none => (s, val)
  else (print s (.unmappedRead addr.toNat), val)

theorem index_ram (s : Machine w) {addr : BitVec w} {n offset : ℕ}
    (hw : w = 32 ∨ w = 64) (hin : InRam addr.toNat n) (hoffset : offset < n) :
    CArray.index s.cpu.ram
        (addr - BitVec.ofNat w ramStart + BitVec.ofNat w offset).toNat =
      some (BitVec.ofNat 8 (byteAt s.cpu (addr.toNat + offset))) := by
  obtain ⟨hlow, hhigh⟩ := hin
  have hpow := two_pow_xlen_ge hw
  have hfits : ramStart + ramSize ≤ 2 ^ w :=
    le_trans (by norm_num [ramStart, ramSize]) hpow
  have hindex : addr.toNat - ramStart + offset < ramSize := by omega
  rw [toNat_paddr hfits hlow (by omega), CArray.index_eq_some _ hindex]
  have hbyte := byteAt_ram s.cpu hindex
  rw [show ramStart + (addr.toNat - ramStart + offset) = addr.toNat + offset by
    omega] at hbyte
  rw [hbyte, BitVec.ofNat_toNat, BitVec.setWidth_eq]

theorem index_rom (s : Machine w) {addr : BitVec w} {n offset : ℕ}
    (hw : w = 32 ∨ w = 64) (hin : InRom addr.toNat n) (hoffset : offset < n) :
    CArray.index s.cpu.rom
        (addr - BitVec.ofNat w romStart + BitVec.ofNat w offset).toNat =
      some (BitVec.ofNat 8 (byteAt s.cpu (addr.toNat + offset))) := by
  obtain ⟨hlow, hhigh⟩ := hin
  have hpow := two_pow_xlen_ge hw
  have hfits : romStart + romSize ≤ 2 ^ w :=
    le_trans (by norm_num [romStart, romSize]) hpow
  have hindex : addr.toNat + offset < romSize := by
    simp only [romStart] at hhigh
    omega
  rw [toNat_paddr hfits hlow (by omega), romStart, Nat.sub_zero,
    CArray.index_eq_some _ hindex, byteAt_rom s.cpu hindex, BitVec.ofNat_toNat,
    BitVec.setWidth_eq]

/-- A code that no load defines leaves everything alone. -/
theorem memRead_undefined {op : Byte} (byte : ℕ → Option Byte) (s : Machine w)
    (addr val : BitVec w) (hsize : loadSize w op = none) :
    memRead byte s addr op val = some (s, val) := by
  unfold loadSize at hsize
  split_ifs at hsize with h1 h2 h3 h4 h5
  rw [not_or] at h1 h2
  simp only [memRead, h1, h2, h3, h4, h5, if_false]

/-- `bus_read` never indexes out of bounds, and its outcome is that of the memory map. -/
theorem busRead_eq (hw : w = 32 ∨ w = 64) (s : Machine w) (addr : BitVec w)
    (op : Byte) (val : BitVec w) :
    busRead s addr op val = some (readOutcome s addr op val) := by
  have hrange := busRange_le w op
  simp only [busRead, ramGuard_iff hw addr hrange, romGuard_iff hw addr hrange]
  by_cases hram : InRam addr.toNat (busRange w op + 1)
  · rw [if_pos hram, readOutcome, if_pos (show Readable _ _ from .inr hram),
      ramRead]
    cases hsize : loadSize w op with
    | none => exact memRead_undefined _ s addr val hsize
    | some n =>
        rw [busRange_of_loadSize hsize] at hram
        exact memRead_eq s val hw (byteAt_lt s.cpu) hsize
          fun offset hoffset => index_ram s hw hram hoffset
  · rw [if_neg hram]
    by_cases hrom : InRom addr.toNat (busRange w op + 1)
    · rw [if_pos hrom, readOutcome, if_pos (show Readable _ _ from .inl hrom),
        romRead]
      cases hsize : loadSize w op with
      | none => exact memRead_undefined _ s addr val hsize
      | some n =>
          rw [busRange_of_loadSize hsize] at hrom
          exact memRead_eq s val hw (byteAt_lt s.cpu) hsize
            fun offset hoffset => index_rom s hw hrom hoffset
    · rw [if_neg hrom, readOutcome,
        if_neg (show ¬Readable _ _ from not_or.mpr ⟨hrom, hram⟩)]

/-! ## Writes -/

/-- What `bus_write` does. -/
def writeOutcome (s : Machine w) (addr : BitVec w) (op : Byte) (val : BitVec w) :
    Machine w :=
  if InRam addr.toNat (busRange w op + 1) then
    match storeSize w op with
    | some n =>
        { mcycleIncrIf (addr.toNat % n ≠ 0) s with
          cpu := { s.cpu with
            ram := storedRam s.cpu.ram addr.toNat n val.toNat } }
    | none => s
  else if InRom addr.toNat (busRange w op + 1) then
    print s (.romWrite addr.toNat)
  else print s (.unmappedWrite addr.toNat)

/-- A code that no store defines leaves everything alone. -/
theorem ramWrite_undefined {op : Byte} (s : Machine w) (addr val : BitVec w)
    (hsize : storeSize w op = none) : ramWrite s addr op val = some s := by
  unfold storeSize at hsize
  split_ifs at hsize with h1 h2 h3 h4
  simp only [ramWrite, h1, h2, h3, h4, if_false]

/-- `bus_write` never indexes out of bounds, and its outcome is that of the
memory map. -/
theorem busWrite_eq (hw : w = 32 ∨ w = 64) (s : Machine w) (addr : BitVec w)
    (op : Byte) (val : BitVec w) :
    busWrite s addr op val = some (writeOutcome s addr op val) := by
  have hrange := busRange_le w op
  simp only [busWrite, writeOutcome, ramGuard_iff hw addr hrange,
    romGuard_iff hw addr hrange]
  by_cases hram : InRam addr.toNat (busRange w op + 1)
  · rw [if_pos hram, if_pos hram]
    cases hsize : storeSize w op with
    | none => exact ramWrite_undefined s addr val hsize
    | some n =>
        rw [busRange_of_loadSize (loadSize_of_storeSize hsize)] at hram
        exact ramWrite_eq s val hw hsize hram.1 hram.2
  · rw [if_neg hram, if_neg hram]
    split <;> rfl

/-- The map after RAM bytes are stored. -/
theorem byteAt_storedRam (cpu : Cpu w) {address n : ℕ} (value : ℕ)
    (hin : InRam address n) :
    byteAt { cpu with ram := storedRam cpu.ram address n value } =
      store (byteAt cpu) address n value := by
  obtain ⟨hlow, hhigh⟩ := hin
  funext a
  by_cases hrom : a < romSize
  · have hout : ¬(address ≤ a ∧ a < address + n) := by
      simp only [ramStart, romSize] at hlow hrom
      omega
    rw [store_apply_of_not_mem hout, byteAt_rom _ hrom, byteAt_rom _ hrom]
  · by_cases hram : ramStart ≤ a ∧ a < ramStart + ramSize
    · obtain ⟨i, rfl⟩ := Nat.exists_eq_add_of_le hram.1
      have hi : i < ramSize := by omega
      rw [byteAt_ram _ hi]
      by_cases hmem : address ≤ ramStart + i ∧ ramStart + i < address + n
      · rw [store_apply_of_mem hmem.1 hmem.2]
        simp only [storedRam, hmem, and_self, if_true, BitVec.toNat_ofNat]
        exact Nat.mod_eq_of_lt (digit_lt _ _)
      · rw [store_apply_of_not_mem hmem, byteAt_ram _ hi]
        simp only [storedRam, hmem, if_false]
    · have hout : ¬(address ≤ a ∧ a < address + n) := by omega
      rw [store_apply_of_not_mem hout]
      simp only [byteAt, hrom, hram, dite_false]

end Rvem.FlatMap
