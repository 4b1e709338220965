import Rvem.Library.LittleEndian
import Rvem.Model.Bus

/-!
# Byte assembly of the memory arrays

`rom_read`, `ram_read` and `ram_write` unroll their byte composition by hand.  Here each
of them is identified with the little-endian `load` and `store` of a byte map that shows
the array at its bus addresses.  The indices stay in the arrays wherever the guards of
the bus have passed.
-/

namespace Rvem.Assembly

open Rvem.Arch
open Rvem.State
open Rvem.Bus
open Rvem.Library
open Rvem.Library.LittleEndian

variable {w : ℕ}

/-! ## Access widths -/

/-- Number of bytes a load with a defined code reads. -/
def loadSize (w : ℕ) (op : Byte) : Option ℕ :=
  if op = memB ∨ op = memBU then some 1
  else if op = memH ∨ op = memHU then some 2
  else if op = memW then some 4
  else if w = 64 ∧ op = memWU then some 4
  else if w = 64 ∧ op = memD then some 8
  else none

/-- Number of bytes a store with a defined code writes. -/
def storeSize (w : ℕ) (op : Byte) : Option ℕ :=
  if op = memB then some 1
  else if op = memH then some 2
  else if op = memW then some 4
  else if w = 64 ∧ op = memD then some 8
  else none

/-- The codes whose loads sign-extend. -/
def signedLoad (op : Byte) : Bool :=
  op = memB ∨ op = memH ∨ op = memW ∨ op = memD

/-- The register value for a loaded number of `size` bytes. -/
def loadValue (w : ℕ) (op : Byte) (size value : ℕ) : BitVec w :=
  if signedLoad op then (BitVec.ofNat (8 * size) value).signExtend w
  else BitVec.ofNat w value

/-- The defined loads. -/
theorem loadSize_cases {op : Byte} {n : ℕ} (hsize : loadSize w op = some n) :
    ((op = memB ∨ op = memBU) ∧ n = 1) ∨ ((op = memH ∨ op = memHU) ∧ n = 2) ∨
      (op = memW ∧ n = 4) ∨ ((w = 64 ∧ op = memWU) ∧ n = 4) ∨
      ((w = 64 ∧ op = memD) ∧ n = 8) := by
  unfold loadSize at hsize
  split_ifs at hsize with h1 h2 h3 h4 h5 <;>
    simp only [Option.some.injEq] at hsize <;> subst hsize
  · exact .inl ⟨h1, rfl⟩
  · exact .inr (.inl ⟨h2, rfl⟩)
  · exact .inr (.inr (.inl ⟨h3, rfl⟩))
  · exact .inr (.inr (.inr (.inl ⟨h4, rfl⟩)))
  · exact .inr (.inr (.inr (.inr ⟨h5, rfl⟩)))

/-- The defined stores. -/
theorem storeSize_cases {op : Byte} {n : ℕ} (hsize : storeSize w op = some n) :
    (op = memB ∧ n = 1) ∨ (op = memH ∧ n = 2) ∨ (op = memW ∧ n = 4) ∨
      ((w = 64 ∧ op = memD) ∧ n = 8) := by
  unfold storeSize at hsize
  split_ifs at hsize with h1 h2 h3 h4 <;>
    simp only [Option.some.injEq] at hsize <;> subst hsize
  · exact .inl ⟨h1, rfl⟩
  · exact .inr (.inl ⟨h2, rfl⟩)
  · exact .inr (.inr (.inl ⟨h3, rfl⟩))
  · exact .inr (.inr (.inr ⟨h4, rfl⟩))

/-- Every defined store code is the load code of the same width. -/
theorem loadSize_of_storeSize {op : Byte} {n : ℕ}
    (hsize : storeSize w op = some n) : loadSize w op = some n := by
  rcases storeSize_cases hsize with
    ⟨rfl, rfl⟩ | ⟨rfl, rfl⟩ | ⟨rfl, rfl⟩ | ⟨⟨rfl, rfl⟩, rfl⟩ <;>
    simp [loadSize]

/-- The widths of the defined loads are powers of two. -/
theorem loadSize_eq_two_pow {op : Byte} {n : ℕ}
    (hsize : loadSize w op = some n) : ∃ k ≤ 3, n = 2 ^ k := by
  rcases loadSize_cases hsize with
    ⟨-, rfl⟩ | ⟨-, rfl⟩ | ⟨-, rfl⟩ | ⟨-, rfl⟩ | ⟨-, rfl⟩
  · exact ⟨0, by norm_num⟩
  · exact ⟨1, by norm_num⟩
  · exact ⟨2, by norm_num⟩
  · exact ⟨2, by norm_num⟩
  · exact ⟨3, by norm_num⟩

/-- The local `range` is the width minus one for every defined load. -/
theorem busRange_of_loadSize {op : Byte} {n : ℕ}
    (hsize : loadSize w op = some n) : busRange w op + 1 = n := by
  rcases loadSize_cases hsize with
    ⟨rfl | rfl, rfl⟩ | ⟨rfl | rfl, rfl⟩ | ⟨rfl, rfl⟩ | ⟨⟨rfl, rfl⟩, rfl⟩ |
      ⟨⟨rfl, rfl⟩, rfl⟩ <;>
    simp [busRange]

/-! ## Composing bytes -/

theorem lor_eq_add_of_dvd {x y k : ℕ} (hx : 2 ^ k ∣ x) (hy : y < 2 ^ k) :
    x ||| y = x + y := by
  obtain ⟨quotient, rfl⟩ := hx
  exact (Nat.two_pow_add_eq_or_of_lt hy quotient).symm

/-- A byte shifted into place keeps its value. -/
theorem toNat_place {width : ℕ} (b : Byte) {k : ℕ} (hk : k + 8 ≤ width) :
    (b.setWidth width <<< k).toNat = b.toNat * 2 ^ k := by
  have hbyte : b.toNat < 2 ^ 8 := b.isLt
  have hwide : b.toNat < 2 ^ width :=
    lt_of_lt_of_le hbyte (Nat.pow_le_pow_right (by norm_num) (by omega))
  have hplaced : b.toNat * 2 ^ k < 2 ^ width := by
    calc
      b.toNat * 2 ^ k < 2 ^ 8 * 2 ^ k := by gcongr
      _ = 2 ^ (k + 8) := by rw [← pow_add, add_comm]
      _ ≤ 2 ^ width := Nat.pow_le_pow_right (by norm_num) hk
  rw [BitVec.toNat_shiftLeft, BitVec.toNat_setWidth, Nat.shiftLeft_eq,
    Nat.mod_eq_of_lt hwide, Nat.mod_eq_of_lt hplaced]

/-- Merging a byte below bytes that are already in place adds its value. -/
theorem toNat_or_place {width : ℕ} (x : BitVec width) (b : Byte) {k : ℕ}
    (hk : k + 8 ≤ width) (hx : 2 ^ (k + 8) ∣ x.toNat) :
    (x ||| b.setWidth width <<< k).toNat = x.toNat + b.toNat * 2 ^ k := by
  have hbyte : b.toNat < 2 ^ 8 := b.isLt
  rw [BitVec.toNat_or, toNat_place b hk]
  apply lor_eq_add_of_dvd hx
  calc
    b.toNat * 2 ^ k < 2 ^ 8 * 2 ^ k := by gcongr
    _ = 2 ^ (k + 8) := by rw [← pow_add, add_comm]

/-- The `int` of `MEM_H` and `MEM_HU`. -/
theorem toNat_half (b1 b0 : Byte) :
    (b1.setWidth 32 <<< 8 ||| b0.setWidth 32).toNat =
      b0.toNat + b1.toNat * 256 := by
  have h := toNat_or_place (b1.setWidth 32 <<< 8) b0 (k := 0) (by norm_num)
    (by rw [toNat_place b1 (by norm_num)]; exact Dvd.intro_left _ rfl)
  rw [toNat_place b1 (by norm_num)] at h
  simp only [BitVec.shiftLeft_zero] at h
  rw [h]
  ring

/-- The `uint32_t` of `MEM_W` and `MEM_WU`. -/
theorem toNat_word (b3 b2 b1 b0 : Byte) :
    (b3.setWidth 32 <<< 24 ||| b2.setWidth 32 <<< 16
      ||| b1.setWidth 32 <<< 8 ||| b0.setWidth 32).toNat =
      b0.toNat + b1.toNat * 256 + b2.toNat * 256 ^ 2 + b3.toNat * 256 ^ 3 := by
  have e3 := toNat_place b3 (show 24 + 8 ≤ 32 by norm_num)
  have e2 := toNat_or_place _ b2 (k := 16) (by norm_num)
    (show 2 ^ (16 + 8) ∣ (b3.setWidth 32 <<< 24).toNat by rw [e3]; omega)
  have e1 := toNat_or_place _ b1 (k := 8) (by norm_num)
    (show 2 ^ (8 + 8) ∣ (b3.setWidth 32 <<< 24 ||| b2.setWidth 32 <<< 16).toNat by
      rw [e2, e3]; omega)
  have e0 := toNat_or_place _ b0 (k := 0) (by norm_num)
    (show 2 ^ (0 + 8) ∣ (b3.setWidth 32 <<< 24 ||| b2.setWidth 32 <<< 16
      ||| b1.setWidth 32 <<< 8).toNat by rw [e1, e2, e3]; omega)
  simp only [BitVec.shiftLeft_zero] at e0
  rw [e0, e1, e2, e3]
  ring

/-- The `uint64_t` of `MEM_D`. -/
theorem toNat_dword (b7 b6 b5 b4 b3 b2 b1 b0 : Byte) :
    (b7.setWidth 64 <<< 56 ||| b6.setWidth 64 <<< 48
      ||| b5.setWidth 64 <<< 40 ||| b4.setWidth 64 <<< 32
      ||| b3.setWidth 64 <<< 24 ||| b2.setWidth 64 <<< 16
      ||| b1.setWidth 64 <<< 8 ||| b0.setWidth 64).toNat =
      b0.toNat + b1.toNat * 256 + b2.toNat * 256 ^ 2 + b3.toNat * 256 ^ 3
        + b4.toNat * 256 ^ 4 + b5.toNat * 256 ^ 5 + b6.toNat * 256 ^ 6
        + b7.toNat * 256 ^ 7 := by
  have e7 := toNat_place b7 (show 56 + 8 ≤ 64 by norm_num)
  have e6 := toNat_or_place (b7.setWidth 64 <<< 56) b6 (k := 48) (by norm_num)
    (by rw [e7]; omega)
  have e5 := toNat_or_place (b7.setWidth 64 <<< 56 ||| b6.setWidth 64 <<< 48) b5
    (k := 40) (by norm_num) (by rw [e6, e7]; omega)
  have e4 := toNat_or_place (b7.setWidth 64 <<< 56 ||| b6.setWidth 64 <<< 48
    ||| b5.setWidth 64 <<< 40) b4 (k := 32) (by norm_num)
    (by rw [e5, e6, e7]; omega)
  have e3 := toNat_or_place (b7.setWidth 64 <<< 56 ||| b6.setWidth 64 <<< 48
    ||| b5.setWidth 64 <<< 40 ||| b4.setWidth 64 <<< 32) b3 (k := 24) (by norm_num)
    (by rw [e4, e5, e6, e7]; omega)
  have e2 := toNat_or_place (b7.setWidth 64 <<< 56 ||| b6.setWidth 64 <<< 48
    ||| b5.setWidth 64 <<< 40 ||| b4.setWidth 64 <<< 32
    ||| b3.setWidth 64 <<< 24) b2 (k := 16) (by norm_num)
    (by rw [e3, e4, e5, e6, e7]; omega)
  have e1 := toNat_or_place (b7.setWidth 64 <<< 56 ||| b6.setWidth 64 <<< 48
    ||| b5.setWidth 64 <<< 40 ||| b4.setWidth 64 <<< 32
    ||| b3.setWidth 64 <<< 24 ||| b2.setWidth 64 <<< 16) b1 (k := 8) (by norm_num)
    (by rw [e2, e3, e4, e5, e6, e7]; omega)
  have e0 := toNat_or_place (b7.setWidth 64 <<< 56 ||| b6.setWidth 64 <<< 48
    ||| b5.setWidth 64 <<< 40 ||| b4.setWidth 64 <<< 32
    ||| b3.setWidth 64 <<< 24 ||| b2.setWidth 64 <<< 16
    ||| b1.setWidth 64 <<< 8) b0 (k := 0) (by norm_num)
    (by rw [e1, e2, e3, e4, e5, e6, e7]; omega)
  simp only [BitVec.shiftLeft_zero] at e0
  rw [e0, e1, e2, e3, e4, e5, e6, e7]
  ring

theorem eq_ofNat_of_toNat_eq {k v : ℕ} {x : BitVec k} (hx : x.toNat = v) :
    x = BitVec.ofNat k v := by
  rw [← hx, BitVec.ofNat_toNat, BitVec.setWidth_eq]

section Composed

variable {mem : ℕ → ℕ} (hmem : ∀ a, mem a < 256) (a : ℕ)
include hmem

theorem toNat_byte : (BitVec.ofNat 8 (mem a)).toNat = mem a := by
  rw [BitVec.toNat_ofNat]
  exact Nat.mod_eq_of_lt (hmem a)

/-- Two bytes put together by shifts are the number stored in them. -/
theorem half_eq_load :
    (BitVec.ofNat 8 (mem (a + 1))).setWidth 32 <<< 8
        ||| (BitVec.ofNat 8 (mem (a + 0))).setWidth 32 =
      BitVec.ofNat 32 (load mem a 2) := by
  apply eq_ofNat_of_toNat_eq
  rw [toNat_half, toNat_byte hmem, toNat_byte hmem]
  simp only [load]
  ring

theorem word_eq_load :
    (BitVec.ofNat 8 (mem (a + 3))).setWidth 32 <<< 24
        ||| (BitVec.ofNat 8 (mem (a + 2))).setWidth 32 <<< 16
        ||| (BitVec.ofNat 8 (mem (a + 1))).setWidth 32 <<< 8
        ||| (BitVec.ofNat 8 (mem (a + 0))).setWidth 32 =
      BitVec.ofNat 32 (load mem a 4) := by
  apply eq_ofNat_of_toNat_eq
  rw [toNat_word]
  simp only [toNat_byte hmem, load]
  ring

theorem dword_eq_load :
    (BitVec.ofNat 8 (mem (a + 7))).setWidth 64 <<< 56
        ||| (BitVec.ofNat 8 (mem (a + 6))).setWidth 64 <<< 48
        ||| (BitVec.ofNat 8 (mem (a + 5))).setWidth 64 <<< 40
        ||| (BitVec.ofNat 8 (mem (a + 4))).setWidth 64 <<< 32
        ||| (BitVec.ofNat 8 (mem (a + 3))).setWidth 64 <<< 24
        ||| (BitVec.ofNat 8 (mem (a + 2))).setWidth 64 <<< 16
        ||| (BitVec.ofNat 8 (mem (a + 1))).setWidth 64 <<< 8
        ||| (BitVec.ofNat 8 (mem (a + 0))).setWidth 64 =
      BitVec.ofNat 64 (load mem a 8) := by
  apply eq_ofNat_of_toNat_eq
  rw [toNat_dword]
  simp only [toNat_byte hmem, load]
  ring

end Composed

/-! ## Reading -/

/-- The mask of `PERF_MODEL_MEMORY` tests divisibility by the access width. -/
theorem perfModelMemory_eq (s : Machine w) (addr : BitVec w) {op : Byte} {n : ℕ}
    (hw : w = 32 ∨ w = 64) (hsize : loadSize w op = some n) :
    perfModelMemory s n addr = mcycleIncrIf (addr.toNat % n ≠ 0) s := by
  obtain ⟨k, hk, rfl⟩ := loadSize_eq_two_pow hsize
  have hsmall : 2 ^ k - 1 < 2 ^ w := by
    have := Nat.pow_le_pow_right (show 0 < 2 by norm_num) (show k ≤ w by omega)
    have := Nat.two_pow_pos k
    omega
  have hand : (addr &&& BitVec.ofNat w (2 ^ k - 1)).toNat = addr.toNat % 2 ^ k := by
    rw [BitVec.toNat_and, BitVec.toNat_ofNat, Nat.mod_eq_of_lt hsmall,
      Nat.and_two_pow_sub_one_eq_mod]
  have hcond : (addr &&& BitVec.ofNat w (2 ^ k - 1) != 0) =
      decide (addr.toNat % 2 ^ k ≠ 0) := by
    rw [← hand, bne, Bool.beq_eq_decide_eq, ← decide_not]
    simp only [BitVec.toNat_eq, ne_eq]
    rfl
  rw [perfModelMemory, hcond]

/-- Zero extension from an intermediate width that holds the number. -/
theorem setWidth_ofNat_of_lt {v width : ℕ} (hv : v < 2 ^ width) :
    (BitVec.ofNat width v).setWidth w = BitVec.ofNat w v := by
  apply BitVec.eq_of_toNat_eq
  rw [BitVec.toNat_setWidth, BitVec.toNat_ofNat, Nat.mod_eq_of_lt hv,
    BitVec.toNat_ofNat]

/-- The halfword `int` is not negative, so its conversion to `reg_t` keeps its
value. -/
theorem signExtend_half {v : ℕ} (hv : v < 256 ^ 2) :
    (BitVec.ofNat 32 v).signExtend w = BitVec.ofNat w v := by
  have hmsb : (BitVec.ofNat 32 v).msb = false := by
    rw [BitVec.msb_eq_false_iff_two_mul_lt, BitVec.toNat_ofNat]
    omega
  rw [BitVec.signExtend_eq_setWidth_of_msb_false hmsb,
    setWidth_ofNat_of_lt (by omega)]

/-- Truncating the sign extension of a word gives the word back. -/
theorem setWidth_signExtend_word (hw : w = 32 ∨ w = 64) (word : Word) :
    (word.signExtend w).setWidth 32 = word := by
  apply BitVec.eq_of_getLsbD_eq
  intro i hi
  have hiw : i < w := by omega
  rw [BitVec.getLsbD_setWidth, BitVec.getLsbD_signExtend]
  simp only [hi, hiw, decide_true, Bool.true_and, if_true]

/-- The word that `MEM_W` and `MEM_WU` assemble. -/
theorem readWord_eq {mem : ℕ → ℕ} {byte : ℕ → Option Byte} {a : ℕ}
    (hmem : ∀ a, mem a < 256)
    (hbyte : ∀ offset < 4, byte offset = some (BitVec.ofNat 8 (mem (a + offset)))) :
    memRead.readWord byte = some (BitVec.ofNat 32 (load mem a 4)) := by
  change (byte 3).bind (fun b3 => (byte 2).bind fun b2 =>
    (byte 1).bind fun b1 => (byte 0).bind fun b0 => some _) = some _
  simp only [hbyte 3 (by norm_num), hbyte 2 (by norm_num), hbyte 1 (by norm_num),
    hbyte 0 (by norm_num), Option.bind_some, word_eq_load hmem]

/-- A defined load composes the bytes it is given and charges a stall exactly
when its address is not a multiple of its size. -/
theorem memRead_eq {n : ℕ} {mem : ℕ → ℕ} {byte : ℕ → Option Byte}
    {op : Byte} {addr : BitVec w} (s : Machine w) (val : BitVec w)
    (hw : w = 32 ∨ w = 64) (hmem : ∀ a, mem a < 256)
    (hsize : loadSize w op = some n)
    (hbyte : ∀ offset < n,
      byte offset = some (BitVec.ofNat 8 (mem (addr.toNat + offset)))) :
    memRead byte s addr op val =
      some (mcycleIncrIf (addr.toNat % n ≠ 0) s,
        loadValue w op n (load mem addr.toNat n)) := by
  have hperf := perfModelMemory_eq s addr hw hsize
  have hload1 : load mem addr.toNat 1 = mem (addr.toNat + 0) := by simp [load]
  rcases loadSize_cases hsize with
    ⟨rfl | rfl, rfl⟩ | ⟨rfl | rfl, rfl⟩ | ⟨rfl, rfl⟩ | ⟨⟨rfl, rfl⟩, rfl⟩ |
      ⟨⟨rfl, rfl⟩, rfl⟩
  · simp [memRead, hbyte, loadValue, signedLoad, hload1, Nat.mod_one, mcycleIncrIf]
  · simp [memRead, hbyte, loadValue, signedLoad, hload1, Nat.mod_one, mcycleIncrIf,
      setWidth_ofNat_of_lt (show mem addr.toNat < 2 ^ 8 from hmem _)]
  · change (byte 1).bind (fun b1 => (byte 0).bind fun b0 => some (_, _)) = some (_, _)
    simp only [hbyte 1 (by norm_num), hbyte 0 (by norm_num), Option.bind_some,
      half_eq_load hmem, hperf,
      BitVec.setWidth_ofNat_of_le (show 16 ≤ 32 by norm_num)]
    rfl
  · change (byte 1).bind (fun b1 => (byte 0).bind fun b0 => some (_, _)) = some (_, _)
    simp only [hbyte 1 (by norm_num), hbyte 0 (by norm_num), Option.bind_some,
      half_eq_load hmem, hperf, signExtend_half (load_lt hmem _ 2)]
    rfl
  · change (memRead.readWord byte).bind (fun word => some (_, _)) = some (_, _)
    simp only [readWord_eq hmem hbyte, Option.bind_some, hperf]
    rfl
  · change (memRead.readWord byte).bind (fun word => some (_, _)) = some (_, _)
    simp only [readWord_eq hmem hbyte, Option.bind_some, hperf,
      setWidth_ofNat_of_lt (show _ < 2 ^ 32 from load_lt hmem addr.toNat 4)]
    rfl
  · change (byte 7).bind (fun b7 => (byte 6).bind fun b6 =>
      (byte 5).bind fun b5 => (byte 4).bind fun b4 => (byte 3).bind fun b3 =>
      (byte 2).bind fun b2 => (byte 1).bind fun b1 => (byte 0).bind fun b0 =>
        some (_, _)) = some (_, _)
    simp only [hbyte 7 (by norm_num), hbyte 6 (by norm_num), hbyte 5 (by norm_num),
      hbyte 4 (by norm_num), hbyte 3 (by norm_num), hbyte 2 (by norm_num),
      hbyte 1 (by norm_num), hbyte 0 (by norm_num), Option.bind_some,
      dword_eq_load hmem, hperf]
    rfl

/-! ## Writing -/

/-- RAM after the lowest `count` bytes of `value` are written from bus address
`address` on. -/
def storedRam (ram : Fin ramSize → Byte) (address count value : ℕ) :
    Fin ramSize → Byte :=
  fun i =>
    if address ≤ ramStart + i ∧ ramStart + i < address + count then
      BitVec.ofNat 8 (digit value (ramStart + i - address))
    else ram i

theorem byte_of_shift (val : BitVec w) (count : ℕ) :
    (val >>> (8 * count)).setWidth 8 = BitVec.ofNat 8 (digit val.toNat count) := by
  apply eq_ofNat_of_toNat_eq
  rw [BitVec.toNat_setWidth, BitVec.toNat_ushiftRight, Nat.shiftRight_eq_div_pow,
    pow_mul, digit]
  norm_num

/-- An address inside an array subtracts to its index without wrapping. -/
theorem toNat_paddr {start size offset : ℕ} {addr : BitVec w}
    (hfits : start + size ≤ 2 ^ w) (hlow : start ≤ addr.toNat)
    (hhigh : addr.toNat + offset < start + size) :
    (addr - BitVec.ofNat w start + BitVec.ofNat w offset).toNat =
      addr.toNat - start + offset := by
  have haddr := addr.isLt
  rw [BitVec.toNat_add, BitVec.toNat_sub_of_le, BitVec.toNat_ofNat,
    BitVec.toNat_ofNat, Nat.mod_eq_of_lt (by omega : start < 2 ^ w),
    Nat.mod_eq_of_lt (by omega : offset < 2 ^ w), Nat.mod_eq_of_lt (by omega)]
  rw [BitVec.le_def, BitVec.toNat_ofNat, Nat.mod_eq_of_lt (by omega)]
  exact hlow

/-- Storing the bytes of a value one by one stores the value. -/
theorem storeBytes_eq (ram : Fin ramSize → Byte) (val : BitVec w)
    {addr : BitVec w} {n : ℕ} (hfits : ramStart + ramSize ≤ 2 ^ w)
    (hlow : ramStart ≤ addr.toNat) (hhigh : addr.toNat + n ≤ ramStart + ramSize) :
    storeBytes ram (addr - BitVec.ofNat w ramStart) val n =
      some (storedRam ram addr.toNat n val.toNat) := by
  induction n with
  | zero =>
      have hnone : storedRam ram addr.toNat 0 val.toNat = ram := by
        funext i
        exact if_neg (by omega)
      rw [storeBytes, hnone]
  | succ n ih =>
      rw [storeBytes, ih (by omega)]
      change CArray.store _ _ _ = _
      rw [toNat_paddr hfits hlow (by omega), byte_of_shift,
        CArray.store_eq_some _ _ (by omega)]
      congr 1
      funext i
      by_cases hi : i = ⟨addr.toNat - ramStart + n, by omega⟩
      · subst hi
        rw [Function.update_self, storedRam, if_pos (by simp only; omega)]
        congr 2
        simp only
        omega
      · have hval : i.val ≠ addr.toNat - ramStart + n := fun h => hi (Fin.ext h)
        rw [Function.update_of_ne hi, storedRam, storedRam]
        by_cases hin : addr.toNat ≤ ramStart + i ∧ ramStart + i < addr.toNat + n
        · rw [if_pos hin, if_pos (by omega)]
        · rw [if_neg hin, if_neg (by omega)]

/-- A defined store inside RAM writes its bytes and charges a stall exactly when
its address is not a multiple of its size. -/
theorem ramWrite_eq {n : ℕ} {op : Byte} {addr : BitVec w} (s : Machine w)
    (val : BitVec w) (hw : w = 32 ∨ w = 64)
    (hsize : storeSize w op = some n) (hlow : ramStart ≤ addr.toNat)
    (hhigh : addr.toNat + n ≤ ramStart + ramSize) :
    ramWrite s addr op val =
      some { mcycleIncrIf (addr.toNat % n ≠ 0) s with
        cpu := { s.cpu with ram := storedRam s.cpu.ram addr.toNat n val.toNat } } := by
  have hfits : ramStart + ramSize ≤ 2 ^ w :=
    le_trans (by norm_num [ramStart, ramSize])
      (Nat.pow_le_pow_right (show 0 < 2 by norm_num) (show 32 ≤ w by omega))
  have hstore := storeBytes_eq s.cpu.ram val hfits hlow hhigh
  have hperf := perfModelMemory_eq s addr hw (loadSize_of_storeSize hsize)
  have hcpu (cond : Bool) : (mcycleIncrIf cond s).cpu = s.cpu := by
    cases cond <;> rfl
  rcases storeSize_cases hsize with
    ⟨rfl, rfl⟩ | ⟨rfl, rfl⟩ | ⟨rfl, rfl⟩ | ⟨⟨rfl, rfl⟩, rfl⟩
  · simp [ramWrite, hstore, Nat.mod_one, mcycleIncrIf]
  all_goals
    simp only [ramWrite, memB, memH, memW, memD, BitVec.reduceEq,
      and_true, if_false, if_true, hperf, hcpu, hstore, Option.bind_eq_bind,
      Option.bind_some, Option.pure_def]

end Rvem.Assembly
