import Mathlib

/-!
# Little-endian byte maps

A byte map is a function from addresses to numbers below 256.  `load` composes
consecutive bytes, `store` writes the base-256 digits of a number to consecutive
addresses.  The lemmas determine a load after any sequence of stores byte by
byte, whatever the widths and overlaps.
-/

namespace Rvem.Library.LittleEndian

/-- The `index`-th base-256 digit of `value`. -/
def digit (value index : ℕ) : ℕ :=
  value / 256 ^ index % 256

/-- The number spelled by the `count` bytes from `address` on. -/
def load (mem : ℕ → ℕ) (address : ℕ) : ℕ → ℕ
  | 0 => 0
  | count + 1 => load mem address count + mem (address + count) * 256 ^ count

/-- The byte map after the lowest `count` digits of `value` are written. -/
def store (mem : ℕ → ℕ) (address count value : ℕ) : ℕ → ℕ :=
  fun a =>
    if address ≤ a ∧ a < address + count then digit value (a - address)
    else mem a

theorem digit_lt (value index : ℕ) : digit value index < 256 :=
  Nat.mod_lt _ (by norm_num)

/-- A load depends on the bytes it covers only. -/
theorem load_congr {left right : ℕ → ℕ} {leftAddress rightAddress count : ℕ}
    (hbytes : ∀ i < count, left (leftAddress + i) = right (rightAddress + i)) :
    load left leftAddress count = load right rightAddress count := by
  induction count with
  | zero => rfl
  | succ count ih =>
      rw [load, load, ih fun i hi => hbytes i (by omega),
        hbytes count (by omega)]

/-- A load of `count` bytes is below the range of `count` bytes. -/
theorem load_lt {mem : ℕ → ℕ} (hmem : ∀ a, mem a < 256) (address count : ℕ) :
    load mem address count < 256 ^ count := by
  induction count with
  | zero => simp [load]
  | succ count ih =>
      have hbyte := Nat.le_of_lt_succ (hmem (address + count))
      calc
        load mem address (count + 1) <
            256 ^ count + mem (address + count) * 256 ^ count := by
          rw [load]
          omega
        _ ≤ 256 ^ count + 255 * 256 ^ count := by gcongr
        _ = 256 ^ (count + 1) := by ring

/-- Composing the digits of a number gives its residue. -/
theorem load_digits (value address count : ℕ) :
    load (fun a => digit value (a - address)) address count =
      value % 256 ^ count := by
  induction count with
  | zero => simp [load, Nat.mod_one]
  | succ count ih =>
      rw [load, ih, Nat.add_sub_cancel_left, digit, pow_succ, Nat.mod_mul]
      ring

/-- A load of bytes that spell `value`. -/
theorem load_eq_mod {mem : ℕ → ℕ} {value address count : ℕ}
    (hbytes : ∀ i < count, mem (address + i) = digit value i) :
    load mem address count = value % 256 ^ count := by
  rw [← load_digits value address count]
  apply load_congr
  intro i hi
  rw [hbytes i hi, Nat.add_sub_cancel_left]

/-- Loading a number below the bound and taking digits gives the bytes back. -/
theorem digit_load {mem : ℕ → ℕ} (hmem : ∀ a, mem a < 256)
    (address : ℕ) {count i : ℕ} (hi : i < count) :
    digit (load mem address count) i = mem (address + i) := by
  induction count with
  | zero => omega
  | succ count ih =>
      rw [load, digit]
      rcases Nat.lt_succ_iff_lt_or_eq.mp hi with hlt | rfl
      · obtain ⟨gap, rfl⟩ := Nat.exists_eq_add_of_lt hlt
        have hsplit : mem (address + (i + gap + 1)) * 256 ^ (i + gap + 1) =
            256 ^ i * (mem (address + (i + gap + 1)) * 256 ^ gap * 256) := by
          ring
        rw [hsplit, Nat.add_mul_div_left _ _ (by positivity),
          Nat.add_mul_mod_self_right]
        exact ih hlt
      · rw [Nat.add_mul_div_right _ _ (by positivity),
          Nat.div_eq_of_lt (load_lt hmem address i), zero_add,
          Nat.mod_eq_of_lt (hmem _)]

/-- A byte inside the region stored is its digit of the value. -/
theorem store_apply_of_mem {mem : ℕ → ℕ} {address count value a : ℕ}
    (hlow : address ≤ a) (hhigh : a < address + count) :
    store mem address count value a = digit value (a - address) :=
  if_pos ⟨hlow, hhigh⟩

theorem store_apply_of_not_mem {mem : ℕ → ℕ} {address count value a : ℕ}
    (houtside : ¬(address ≤ a ∧ a < address + count)) :
    store mem address count value a = mem a :=
  if_neg houtside

/-! ## Filled regions -/

/-- The byte map with `count` bytes from `address` on replaced by `source`. -/
def fill (mem : ℕ → ℕ) (address count : ℕ) (source : ℕ → ℕ) : ℕ → ℕ :=
  fun a =>
    if address ≤ a ∧ a < address + count then source (a - address)
    else mem a

theorem fill_zero (mem : ℕ → ℕ) (address : ℕ) (source : ℕ → ℕ) :
    fill mem address 0 source = mem := by
  funext a
  exact if_neg (by omega)

theorem fill_apply_of_not_mem {mem : ℕ → ℕ} {address count a : ℕ} {source : ℕ → ℕ}
    (houtside : ¬(address ≤ a ∧ a < address + count)) :
    fill mem address count source a = mem a :=
  if_neg houtside

theorem fill_apply_add (mem : ℕ → ℕ) (address : ℕ) {count i : ℕ} (source : ℕ → ℕ)
    (hi : i < count) : fill mem address count source (address + i) = source i := by
  rw [fill, if_pos (by omega), Nat.add_sub_cancel_left]

/-- A store at the end of a filled region extends it. -/
theorem store_fill {mem source : ℕ → ℕ} {address filled count value : ℕ}
    (hvalue : ∀ i < count, digit value i = source (filled + i)) :
    store (fill mem address filled source) (address + filled) count value =
      fill mem address (filled + count) source := by
  funext a
  by_cases hnew : address + filled ≤ a ∧ a < address + filled + count
  · rw [store_apply_of_mem hnew.1 hnew.2, hvalue _ (by omega), fill, if_pos (by omega)]
    congr 1
    omega
  · rw [store_apply_of_not_mem hnew]
    by_cases hold : address ≤ a ∧ a < address + filled
    · rw [fill, fill, if_pos hold, if_pos (by omega)]
    · rw [fill, fill, if_neg hold, if_neg (by omega)]

/-! ## Histories of writes -/

/-- One write of `count` bytes. -/
structure Write where
  address : ℕ
  count : ℕ
  value : ℕ

/-- The byte map after a list of writes, oldest first. -/
def applyWrites (mem : ℕ → ℕ) (writes : List Write) : ℕ → ℕ :=
  writes.foldl (fun mem write => store mem write.address write.count write.value) mem

/-- The byte last written to `a`, the newest write coming first in the list. -/
def lastByte (mem : ℕ → ℕ) (a : ℕ) : List Write → ℕ
  | [] => mem a
  | newest :: older =>
      if newest.address ≤ a ∧ a < newest.address + newest.count then
        digit newest.value (a - newest.address)
      else lastByte mem a older

/-- Whatever the overlaps, each address holds the last byte written to it. -/
theorem applyWrites_apply (mem : ℕ → ℕ) (writes : List Write) (a : ℕ) :
    applyWrites mem writes a = lastByte mem a writes.reverse := by
  induction writes using List.reverseRecOn with
  | nil => rfl
  | append_singleton older newest ih =>
      rw [applyWrites, List.foldl_append, List.reverse_append]
      change store (applyWrites mem older) _ _ _ a = _
      by_cases hcovered : newest.address ≤ a ∧ a < newest.address + newest.count
      · rw [store_apply_of_mem hcovered.1 hcovered.2]
        exact (if_pos hcovered).symm
      · rw [store_apply_of_not_mem hcovered, ih]
        exact (if_neg hcovered).symm

end Rvem.Library.LittleEndian
