import Rvem.Guest.Rules

/-!
# The boot code of the SDK

The two loops of `crt0.S`: the copy of `.data` from ROM to RAM and the clearing of
`.bss`.  Both are verified as guest code, on the step function of the emulator,
for every layout that the linker script admits.
-/

namespace Rvem.Boot

open Rvem.Arch
open Rvem.State
open Rvem.Core
open Rvem.Main
open Rvem.FlatMap
open Rvem.Fields
open Rvem.StepEffect
open Rvem.Run
open Rvem.Code
open Rvem.Rules
open Rvem.Library.LittleEndian
open Rvem.Library.Reach

/-! ## Code and layout -/

abbrev t0 : Fin 32 := 5
abbrev a0 : Fin 32 := 10
abbrev a1 : Fin 32 := 11
abbrev a2 : Fin 32 := 12

/-- `copy_data_loop`, up to `copy_data_done`. -/
def copyDataLoop : List Word :=
  [0x00C5DC63, -- bge a1, a2, copy_data_done
   0x00052283, -- lw t0, 0(a0)
   0x0055A023, -- sw t0, 0(a1)
   0x00450513, -- addi a0, a0, 4
   0x00458593, -- addi a1, a1, 4
   0xFEDFF06F] -- j copy_data_loop

/-- `zero_bss_loop`, up to `zero_bss_done`. -/
def zeroBssLoop : List Word :=
  [0x00B55863, -- bge a0, a1, zero_bss_done
   0x00052023, -- sw zero, 0(a0)
   0x00450513, -- addi a0, a0, 4
   0xFF5FF06F] -- j zero_bss_loop

/-- The symbols of `link.ld`, with what it guarantees of them. -/
structure Layout where
  sidata : ℕ
  sdata : ℕ
  edata : ℕ
  sbss : ℕ
  ebss : ℕ
  sdata_aligned : 8 ∣ sdata
  edata_aligned : 8 ∣ edata
  sbss_aligned : 8 ∣ sbss
  ebss_aligned : 8 ∣ ebss
  sidata_aligned : 4 ∣ sidata
  ram_le_sdata : ramStart ≤ sdata
  sdata_le_edata : sdata ≤ edata
  edata_le_sbss : edata ≤ sbss
  sbss_le_ebss : sbss ≤ ebss
  ebss_le_ram : ebss ≤ ramStart + ramSize
  sidata_in_rom : sidata + (edata - sdata) ≤ romSize

/-- ROM holds the two loops where the labels stand. -/
structure HoldsCrt0 (cpu : Cpu 32) (copyAt zeroAt : ℕ) : Prop where
  copy : HoldsCode cpu copyAt copyDataLoop
  copy_fits : copyAt + 4 * copyDataLoop.length ≤ romSize
  zero : HoldsCode cpu zeroAt zeroBssLoop
  zero_fits : zeroAt + 4 * zeroBssLoop.length ≤ romSize

/-- At `copy_data_loop`, with the symbols loaded. -/
structure CopyEntry (l : Layout) (copyAt : ℕ) (s : Machine 32) : Prop where
  pc : s.cpu.pc = BitVec.ofNat 32 copyAt
  source : s.cpu.regfile a0 = BitVec.ofNat 32 l.sidata
  target : s.cpu.regfile a1 = BitVec.ofNat 32 l.sdata
  limit : s.cpu.regfile a2 = BitVec.ofNat 32 l.edata

/-- From `copy_data_done` in `t` to `zero_bss_loop` in `u`: `la` has loaded
two symbols. -/
structure Reload (l : Layout) (zeroAt : ℕ) (t u : Machine 32) : Prop where
  rom : u.cpu.rom = t.cpu.rom
  ram : u.cpu.ram = t.cpu.ram
  pc : u.cpu.pc = BitVec.ofNat 32 zeroAt
  target : u.cpu.regfile a0 = BitVec.ofNat 32 l.sbss
  limit : u.cpu.regfile a1 = BitVec.ofNat 32 l.ebss
  frame : ∀ r, r ≠ a0 → r ≠ a1 → u.cpu.regfile r = t.cpu.regfile r

/-- What the boot code started in `s` has done in `v`. -/
structure Booted (l : Layout) (zeroAt : ℕ) (s v : Machine 32) : Prop where
  pc : v.cpu.pc = BitVec.ofNat 32 (zeroAt + 4 * zeroBssLoop.length)
  data : ∀ k < l.edata - l.sdata, byteAt v.cpu (l.sdata + k) = byteAt s.cpu (l.sidata + k)
  bss : ∀ a, l.sbss ≤ a → a < l.ebss → byteAt v.cpu a = 0
  rest : ∀ a, ¬(l.sdata ≤ a ∧ a < l.edata) → ¬(l.sbss ≤ a ∧ a < l.ebss) →
    byteAt v.cpu a = byteAt s.cpu a
  zero : v.cpu.regfile 0 = 0
  frame : ∀ r, r ∉ [0, t0, a0, a1, a2] → v.cpu.regfile r = s.cpu.regfile r

namespace Layout

variable (l : Layout)

/-- The words copied. -/
def dataWords : ℕ := (l.edata - l.sdata) / 4

/-- The words cleared. -/
def bssWords : ℕ := (l.ebss - l.sbss) / 4

theorem edata_eq : l.sdata + 4 * l.dataWords = l.edata := by
  have hlow := l.sdata_aligned
  have hhigh := l.edata_aligned
  have hle := l.sdata_le_edata
  rw [dataWords]
  omega

theorem ebss_eq : l.sbss + 4 * l.bssWords = l.ebss := by
  have hlow := l.sbss_aligned
  have hhigh := l.ebss_aligned
  have hle := l.sbss_le_ebss
  rw [bssWords]
  omega

/-- A word of `.data` is in RAM and its image is in ROM. -/
theorem data_word {i : ℕ} (hi : i < l.dataWords) :
    InRam (l.sdata + 4 * i) 4 ∧ l.sidata + 4 * i + 4 ≤ romSize := by
  have hend := l.edata_eq
  have hstart := l.ram_le_sdata
  have hgap := l.edata_le_sbss
  have hbss := l.sbss_le_ebss
  have hlimit := l.ebss_le_ram
  have hrom := l.sidata_in_rom
  refine ⟨⟨by omega, by omega⟩, by omega⟩

theorem bss_word {i : ℕ} (hi : i < l.bssWords) : InRam (l.sbss + 4 * i) 4 := by
  have hend := l.ebss_eq
  have hstart := l.ram_le_sdata
  have hdata := l.sdata_le_edata
  have hgap := l.edata_le_sbss
  have hlimit := l.ebss_le_ram
  exact ⟨by omega, by omega⟩

/-- RAM ends below the sign bit. -/
theorem ebss_lt : l.ebss < 2 ^ 31 :=
  l.ebss_le_ram.trans_lt (by norm_num [ramStart, ramSize])

theorem edata_lt : l.edata < 2 ^ 31 :=
  (l.edata_le_sbss.trans l.sbss_le_ebss).trans_lt l.ebss_lt

end Layout

/-- The signed comparison of `bge` agrees with the order of addresses below the
sign bit. -/
theorem branchTaken_ge {x y : ℕ} (hx : x < 2 ^ 31) (hy : y < 2 ^ 31) :
    branchTaken branchGe (BitVec.ofNat 32 x) (BitVec.ofNat 32 y) = decide (y ≤ x) := by
  have htoInt : ∀ a < 2 ^ 31, (BitVec.ofNat 32 a).toInt = a := by
    intro a ha
    have hmod : a % 2 ^ 32 = a := Nat.mod_eq_of_lt (by omega)
    rw [BitVec.toInt_eq_toNat_of_lt (by rw [BitVec.toNat_ofNat]; omega),
      BitVec.toNat_ofNat, hmod]
  change (!(BitVec.ofNat 32 x).slt (BitVec.ofNat 32 y)) = _
  rw [BitVec.slt_eq_decide, htoInt x hx, htoInt y hy, ← decide_not]
  simp only [Int.ofNat_lt, not_lt]

/-- A load or store without an offset. -/
theorem toNat_ofNat_offset {x : ℕ} {offset : BitVec 32} (hx : x < 2 ^ 32)
    (hoffset : offset = BitVec.ofNat 32 0) : (BitVec.ofNat 32 x + offset).toNat = x := by
  rw [hoffset, ← BitVec.ofNat_add, BitVec.toNat_ofNat, Nat.add_zero, Nat.mod_eq_of_lt hx]

/-- `addi` to the next word. -/
theorem ofNat_next {x i : ℕ} {offset : BitVec 32} (hoffset : offset = BitVec.ofNat 32 4) :
    BitVec.ofNat 32 (x + 4 * i) + offset = BitVec.ofNat 32 (x + 4 * (i + 1)) := by
  rw [hoffset, ← BitVec.ofNat_add]
  rfl

/-! ## The copy loop -/

/-- At `copy_data_loop` after `i` passes. -/
structure CopyHead (l : Layout) (copyAt : ℕ) (s : Machine 32) (i : ℕ) (t : Machine 32) :
    Prop where
  rom : t.cpu.rom = s.cpu.rom
  pc : t.cpu.pc = BitVec.ofNat 32 copyAt
  source : t.cpu.regfile a0 = BitVec.ofNat 32 (l.sidata + 4 * i)
  target : t.cpu.regfile a1 = BitVec.ofNat 32 (l.sdata + 4 * i)
  limit : t.cpu.regfile a2 = BitVec.ofNat 32 l.edata
  frame : ∀ r, r ∉ [0, t0, a0, a1, a2] → t.cpu.regfile r = s.cpu.regfile r
  mem : byteAt t.cpu = fill (byteAt s.cpu) l.sdata (4 * i) fun k =>
    byteAt s.cpu (l.sidata + k)

/-- The word of the ROM image that pass `i` copies. -/
def Layout.image (l : Layout) (s : Machine 32) (i : ℕ) : ℕ :=
  load (byteAt s.cpu) (l.sidata + 4 * i) 4

theorem Layout.image_lt (l : Layout) (s : Machine 32) (i : ℕ) : l.image s i < 2 ^ 32 :=
  load_lt (byteAt_lt s.cpu) _ 4

theorem Layout.digit_image (l : Layout) (s : Machine 32) (i : ℕ) {j : ℕ} (hj : j < 4) :
    digit (l.image s i) j = byteAt s.cpu (l.sidata + (4 * i + j)) := by
  rw [image, digit_load (byteAt_lt s.cpu) _ hj, Nat.add_assoc]

theorem CopyEntry.head {l : Layout} {copyAt : ℕ} {s : Machine 32}
    (hentry : CopyEntry l copyAt s) : CopyHead l copyAt s 0 s where
  rom := rfl
  pc := hentry.pc
  source := hentry.source
  target := hentry.target
  limit := hentry.limit
  frame := fun _ _ => rfl
  mem := (fill_zero _ _ _).symm

theorem CopyHead.sees {l : Layout} {copyAt i : ℕ} {s t : Machine 32}
    (hhead : CopyHead l copyAt s i t) :
    Sees s.cpu.rom (copyAt + 4 * 0) t.cpu.regfile (byteAt t.cpu) t where
  rom := hhead.rom
  pc := hhead.pc
  reg := fun _ _ => rfl
  mem := rfl

/-- The word copied by pass `i` is the image's: what the passes before have written
is in RAM. -/
theorem CopyHead.load_eq {l : Layout} {copyAt i : ℕ} {s t : Machine 32}
    (hhead : CopyHead l copyAt s i t) (hi : i < l.dataWords) :
    load (byteAt t.cpu) (l.sidata + 4 * i) 4 = l.image s i := by
  have hstart := l.ram_le_sdata
  have himage := (l.data_word hi).2
  apply load_congr
  intro j hj
  rw [hhead.mem]
  apply fill_apply_of_not_mem
  simp only [ramStart, romSize] at hstart himage
  omega

/-- One pass over the loop body: the next word is in `t0` and in RAM, both pointers
have moved on. -/
theorem CopyHead.body {l : Layout} {copyAt zeroAt i : ℕ} {s t : Machine 32}
    (m : Bool) (hcode : HoldsCrt0 s.cpu copyAt zeroAt) (hi : i < l.dataWords)
    (hhead : CopyHead l copyAt s i t) :
    Sees s.cpu.rom copyAt
      (Function.update
        (Function.update
          (Function.update t.cpu.regfile t0 (BitVec.ofNat 32 (l.image s i)))
          a0 (BitVec.ofNat 32 (l.sidata + 4 * (i + 1))))
        a1 (BitVec.ofNat 32 (l.sdata + 4 * (i + 1))))
      (store (byteAt t.cpu) (l.sdata + 4 * i) 4 (l.image s i)) ((step m)^[6] t) := by
  obtain ⟨hram, himage⟩ := l.data_word hi
  have hend := l.edata_eq
  have hlimit := l.edata_lt
  have hsize : romSize < 2 ^ 31 := by norm_num [romSize]
  have hcopy := hcode.copy
  have hfits := hcode.copy_fits
  have h₀ := hhead.sees
  have hfalls : branchTaken branchGe (t.cpu.regfile a1) (t.cpu.regfile a2) = false := by
    rw [hhead.target, hhead.limit, branchTaken_ge (by omega) hlimit,
      decide_eq_false_iff_not]
    omega
  have h₁ : Sees s.cpu.rom (copyAt + 4 * 1) t.cpu.regfile (byteAt t.cpu) (step m t) :=
    h₀.branch (h₀.fetched hcopy hfits rfl) rfl hfalls (ofNat_add_four copyAt)
      (by decide) (by decide)
  have hsource :
      (t.cpu.regfile a0 + getSimm12 32 0x00052283#32).toNat = l.sidata + 4 * i := by
    rw [hhead.source, toNat_ofNat_offset (by omega) (by decide)]
  have h₂ : Sees s.cpu.rom (copyAt + 4 * 2)
      (Function.update t.cpu.regfile t0 (BitVec.ofNat 32 (l.image s i))) (byteAt t.cpu)
      (step m (step m t)) := by
    rw [← hhead.load_eq hi]
    exact h₁.lw (h₁.fetched hcopy hfits rfl) rfl rfl hsource (by decide)
      (.inl ⟨Nat.zero_le _, himage.trans_eq (Nat.zero_add _).symm⟩)
  have htarget : (Function.update t.cpu.regfile t0 (BitVec.ofNat 32 (l.image s i)) a1
      + getStoreImm 32 0x0055A023#32).toNat = l.sdata + 4 * i := by
    rw [Function.update_of_ne (by decide), hhead.target,
      toNat_ofNat_offset (by omega) (by decide)]
  have hvalue : ((step m (step m t)).cpu.regfile t0).toNat = l.image s i := by
    rw [h₂.reg t0 (by decide), Function.update_self, BitVec.toNat_ofNat,
      Nat.mod_eq_of_lt (l.image_lt s i)]
  have h₃ := h₂.sw (m := m) (h₂.fetched hcopy hfits rfl) rfl rfl htarget hvalue
    (by decide) hram
  have hsourceNext : Function.update t.cpu.regfile t0 (BitVec.ofNat 32 (l.image s i)) a0
      + getSimm12 32 0x00450513#32 = BitVec.ofNat 32 (l.sidata + 4 * (i + 1)) := by
    rw [Function.update_of_ne (by decide), hhead.source, ofNat_next (by decide)]
  have h₄ := h₃.addi (m := m) (h₃.fetched (i := 3) hcopy hfits rfl) rfl rfl hsourceNext
    (by decide)
  have htargetNext : Function.update
      (Function.update t.cpu.regfile t0 (BitVec.ofNat 32 (l.image s i)))
      a0 (BitVec.ofNat 32 (l.sidata + 4 * (i + 1))) a1 + getSimm12 32 0x00458593#32 =
        BitVec.ofNat 32 (l.sdata + 4 * (i + 1)) := by
    rw [Function.update_of_ne (by decide), Function.update_of_ne (by decide),
      hhead.target, ofNat_next (by decide)]
  have h₅ := h₄.addi (m := m) (h₄.fetched (i := 4) hcopy hfits rfl) rfl rfl htargetNext
    (by decide)
  exact h₅.j (h₅.fetched (i := 5) hcopy hfits rfl) rfl rfl (ofNat_add_neg copyAt 20)

/-- One pass of the copy loop copies one word. -/
theorem CopyHead.pass {l : Layout} {copyAt zeroAt i : ℕ} {s t : Machine 32}
    (m : Bool) (hcode : HoldsCrt0 s.cpu copyAt zeroAt) (hi : i < l.dataWords)
    (hhead : CopyHead l copyAt s i t) :
    ∃ u, Reaches (step m) t u ∧ CopyHead l copyAt s (i + 1) u := by
  have hbody := hhead.body m hcode hi
  refine ⟨_, Reaches.iterate (step m) 6 t, hbody.rom, hbody.pc, ?_, ?_, ?_, ?_, ?_⟩
  · rw [hbody.reg a0 (by decide), Function.update_of_ne (by decide), Function.update_self]
  · rw [hbody.reg a1 (by decide), Function.update_self]
  · rw [hbody.reg a2 (by decide), Function.update_of_ne (by decide),
      Function.update_of_ne (by decide), Function.update_of_ne (by decide), hhead.limit]
  · intro r hr
    rw [← hhead.frame r hr]
    simp only [List.mem_cons, List.not_mem_nil, or_false, not_or] at hr
    obtain ⟨hzero, ht0, ha0, ha1, -⟩ := hr
    rw [hbody.reg r hzero, Function.update_of_ne ha1, Function.update_of_ne ha0,
      Function.update_of_ne ht0]
  · rw [hbody.mem, hhead.mem]
    exact store_fill fun j hj => l.digit_image s i hj

/-- At `copy_data_done`. -/
structure CopyDone (l : Layout) (copyAt : ℕ) (s t : Machine 32) : Prop where
  rom : t.cpu.rom = s.cpu.rom
  pc : t.cpu.pc = BitVec.ofNat 32 (copyAt + 4 * copyDataLoop.length)
  frame : ∀ r, r ∉ [0, t0, a0, a1, a2] → t.cpu.regfile r = s.cpu.regfile r
  mem : byteAt t.cpu = fill (byteAt s.cpu) l.sdata (l.edata - l.sdata)
    fun k => byteAt s.cpu (l.sidata + k)

/-- With all words copied the loop is left. -/
theorem CopyHead.exit {l : Layout} {copyAt zeroAt : ℕ} {s t : Machine 32}
    (m : Bool) (hcode : HoldsCrt0 s.cpu copyAt zeroAt)
    (hhead : CopyHead l copyAt s l.dataWords t) : CopyDone l copyAt s (step m t) := by
  have hend := l.edata_eq
  have hlimit := l.edata_lt
  have hcopy := hcode.copy
  have hfits := hcode.copy_fits
  have h₀ := hhead.sees
  have hjumps : branchTaken branchGe (t.cpu.regfile a1) (t.cpu.regfile a2) = true := by
    rw [hhead.target, hhead.limit, branchTaken_ge (by omega) hlimit, decide_eq_true_iff]
    omega
  have hpc : BitVec.ofNat 32 (copyAt + 4 * 0) + getBranchImm 32 0x00C5DC63#32 =
      BitVec.ofNat 32 (copyAt + 4 * 6) := (BitVec.ofNat_add copyAt 24).symm
  have h₁ := h₀.branch (m := m) (h₀.fetched hcopy hfits rfl) rfl hjumps hpc
    (by decide) (by decide)
  refine ⟨h₁.rom, h₁.pc, ?_, ?_⟩
  · intro r hr
    rw [h₁.reg r (List.ne_of_not_mem_cons hr), hhead.frame r hr]
  · rw [h₁.mem, hhead.mem]
    congr 1
    omega

/-- The copy loop from its label to the label after it. -/
theorem copy_data (m : Bool) {l : Layout} {copyAt zeroAt : ℕ} {s : Machine 32}
    (hcode : HoldsCrt0 s.cpu copyAt zeroAt) (hentry : CopyEntry l copyAt s) :
    ∃ t, Reaches (step m) s t ∧ CopyDone l copyAt s t := by
  obtain ⟨t, hst, hhead⟩ := Reaches.loop
    (fun i hi t (ht : CopyHead l copyAt s i t) => ht.pass m hcode hi) hentry.head
  exact ⟨_, hst.trans (Reaches.single t), hhead.exit m hcode⟩

/-! ## The clearing loop -/

/-- At `zero_bss_loop` after `i` passes. -/
structure ZeroHead (l : Layout) (zeroAt : ℕ) (u : Machine 32) (i : ℕ) (v : Machine 32) :
    Prop where
  rom : v.cpu.rom = u.cpu.rom
  pc : v.cpu.pc = BitVec.ofNat 32 zeroAt
  target : v.cpu.regfile a0 = BitVec.ofNat 32 (l.sbss + 4 * i)
  limit : v.cpu.regfile a1 = BitVec.ofNat 32 l.ebss
  frame : ∀ r, r ∉ [0, a0] → v.cpu.regfile r = u.cpu.regfile r
  mem : byteAt v.cpu = fill (byteAt u.cpu) l.sbss (4 * i) fun _ => 0

theorem Reload.head {l : Layout} {zeroAt : ℕ} {t u : Machine 32}
    (hreload : Reload l zeroAt t u) : ZeroHead l zeroAt u 0 u where
  rom := rfl
  pc := hreload.pc
  target := hreload.target
  limit := hreload.limit
  frame := fun _ _ => rfl
  mem := (fill_zero _ _ _).symm

theorem ZeroHead.sees {l : Layout} {zeroAt i : ℕ} {u v : Machine 32}
    (hhead : ZeroHead l zeroAt u i v) :
    Sees u.cpu.rom (zeroAt + 4 * 0) v.cpu.regfile (byteAt v.cpu) v where
  rom := hhead.rom
  pc := hhead.pc
  reg := fun _ _ => rfl
  mem := rfl

/-- One pass over the loop body.  The branch has made `x0` zero before the store
reads it. -/
theorem ZeroHead.body {l : Layout} {copyAt zeroAt i : ℕ} {u v : Machine 32}
    (m : Bool) (hcode : HoldsCrt0 u.cpu copyAt zeroAt) (hi : i < l.bssWords)
    (hhead : ZeroHead l zeroAt u i v) :
    Sees u.cpu.rom zeroAt
      (Function.update v.cpu.regfile a0 (BitVec.ofNat 32 (l.sbss + 4 * (i + 1))))
      (store (byteAt v.cpu) (l.sbss + 4 * i) 4 0) ((step m)^[4] v) := by
  have hram := l.bss_word hi
  have hend := l.ebss_eq
  have hlimit := l.ebss_lt
  have hzero := hcode.zero
  have hfits := hcode.zero_fits
  have h₀ := hhead.sees
  have hfalls : branchTaken branchGe (v.cpu.regfile a0) (v.cpu.regfile a1) = false := by
    rw [hhead.target, hhead.limit, branchTaken_ge (by omega) hlimit,
      decide_eq_false_iff_not]
    omega
  have h₁ : Sees u.cpu.rom (zeroAt + 4 * 1) v.cpu.regfile (byteAt v.cpu) (step m v) :=
    h₀.branch (h₀.fetched hzero hfits rfl) rfl hfalls (ofNat_add_four zeroAt)
      (by decide) (by decide)
  have htarget :
      (v.cpu.regfile a0 + getStoreImm 32 0x00052023#32).toNat = l.sbss + 4 * i := by
    rw [hhead.target, toNat_ofNat_offset (by omega) (by decide)]
  have hvalue : ((step m v).cpu.regfile 0).toNat = 0 :=
    congrArg BitVec.toNat (step_zero m v)
  have h₂ := h₁.sw (m := m) (h₁.fetched hzero hfits rfl) rfl rfl htarget hvalue
    (by decide) hram
  have htargetNext : v.cpu.regfile a0 + getSimm12 32 0x00450513#32 =
      BitVec.ofNat 32 (l.sbss + 4 * (i + 1)) := by
    rw [hhead.target, ofNat_next (by decide)]
  have h₃ := h₂.addi (m := m) (h₂.fetched (i := 2) hzero hfits rfl) rfl rfl htargetNext
    (by decide)
  exact h₃.j (h₃.fetched (i := 3) hzero hfits rfl) rfl rfl (ofNat_add_neg zeroAt 12)

/-- One pass of the clearing loop clears one word. -/
theorem ZeroHead.pass {l : Layout} {copyAt zeroAt i : ℕ} {u v : Machine 32}
    (m : Bool) (hcode : HoldsCrt0 u.cpu copyAt zeroAt) (hi : i < l.bssWords)
    (hhead : ZeroHead l zeroAt u i v) :
    ∃ x, Reaches (step m) v x ∧ ZeroHead l zeroAt u (i + 1) x := by
  have hbody := hhead.body m hcode hi
  refine ⟨_, Reaches.iterate (step m) 4 v, hbody.rom, hbody.pc, ?_, ?_, ?_, ?_⟩
  · rw [hbody.reg a0 (by decide), Function.update_self]
  · rw [hbody.reg a1 (by decide), Function.update_of_ne (by decide), hhead.limit]
  · intro r hr
    rw [← hhead.frame r hr]
    simp only [List.mem_cons, List.not_mem_nil, or_false, not_or] at hr
    rw [hbody.reg r hr.1, Function.update_of_ne hr.2]
  · rw [hbody.mem, hhead.mem]
    exact store_fill fun j _ => by simp [digit]

/-- At `zero_bss_done`. -/
structure ZeroDone (l : Layout) (zeroAt : ℕ) (u v : Machine 32) : Prop where
  pc : v.cpu.pc = BitVec.ofNat 32 (zeroAt + 4 * zeroBssLoop.length)
  zero : v.cpu.regfile 0 = 0
  frame : ∀ r, r ∉ [0, a0] → v.cpu.regfile r = u.cpu.regfile r
  mem : byteAt v.cpu = fill (byteAt u.cpu) l.sbss (l.ebss - l.sbss) fun _ => 0

theorem ZeroHead.exit {l : Layout} {copyAt zeroAt : ℕ} {u v : Machine 32}
    (m : Bool) (hcode : HoldsCrt0 u.cpu copyAt zeroAt)
    (hhead : ZeroHead l zeroAt u l.bssWords v) : ZeroDone l zeroAt u (step m v) := by
  have hend := l.ebss_eq
  have hlimit := l.ebss_lt
  have h₀ := hhead.sees
  have hjumps : branchTaken branchGe (v.cpu.regfile a0) (v.cpu.regfile a1) = true := by
    rw [hhead.target, hhead.limit, branchTaken_ge (by omega) hlimit, decide_eq_true_iff]
    omega
  have hpc : BitVec.ofNat 32 (zeroAt + 4 * 0) + getBranchImm 32 0x00B55863#32 =
      BitVec.ofNat 32 (zeroAt + 4 * 4) := (BitVec.ofNat_add zeroAt 16).symm
  have h₁ := h₀.branch (m := m) (h₀.fetched hcode.zero hcode.zero_fits rfl) rfl hjumps hpc
    (by decide) (by decide)
  refine ⟨h₁.pc, step_zero m v, ?_, ?_⟩
  · intro r hr
    rw [h₁.reg r (List.ne_of_not_mem_cons hr), hhead.frame r hr]
  · rw [h₁.mem, hhead.mem]
    congr 1
    omega

/-- The clearing loop from its label to the label after it. -/
theorem zero_bss (m : Bool) {l : Layout} {copyAt zeroAt : ℕ} {t u : Machine 32}
    (hcode : HoldsCrt0 u.cpu copyAt zeroAt) (hreload : Reload l zeroAt t u) :
    ∃ v, Reaches (step m) u v ∧ ZeroDone l zeroAt u v := by
  obtain ⟨v, huv, hhead⟩ := Reaches.loop
    (fun i hi v (hv : ZeroHead l zeroAt u i v) => hv.pass m hcode hi) hreload.head
  exact ⟨_, huv.trans (Reaches.single v), hhead.exit m hcode⟩

/-! ## Both loops -/

/-- ROM does not change, so the code is still held. -/
theorem HoldsCrt0.of_rom {left right : Cpu 32} {copyAt zeroAt : ℕ}
    (hcode : HoldsCrt0 left copyAt zeroAt) (hrom : left.rom = right.rom) :
    HoldsCrt0 right copyAt zeroAt where
  copy := hcode.copy.of_rom hcode.copy_fits hrom
  copy_fits := hcode.copy_fits
  zero := hcode.zero.of_rom hcode.zero_fits hrom
  zero_fits := hcode.zero_fits

/-- The two loops and the instructions between them, put together: data copied, bss
cleared, everything else as before. -/
theorem booted {l : Layout} {copyAt zeroAt : ℕ} {s t u v : Machine 32}
    (hcopy : CopyDone l copyAt s t) (hreload : Reload l zeroAt t u)
    (hzero : ZeroDone l zeroAt u v) : Booted l zeroAt s v := by
  have hdata := l.sdata_le_edata
  have hgap := l.edata_le_sbss
  have hbss := l.sbss_le_ebss
  have hmem : byteAt v.cpu = fill (fill (byteAt s.cpu) l.sdata (l.edata - l.sdata)
      fun k => byteAt s.cpu (l.sidata + k)) l.sbss (l.ebss - l.sbss) fun _ => 0 := by
    rw [hzero.mem, byteAt_congr hreload.rom hreload.ram, hcopy.mem]
  refine ⟨hzero.pc, ?_, ?_, ?_, hzero.zero, ?_⟩
  · intro k hk
    rw [hmem, fill_apply_of_not_mem (by omega), fill_apply_add _ _ _ hk]
  · intro a hlow hhigh
    obtain ⟨k, rfl⟩ := Nat.exists_eq_add_of_le hlow
    rw [hmem, fill_apply_add _ _ _ (by omega)]
  · intro a hnotData hnotBss
    rw [hmem, fill_apply_of_not_mem (by omega), fill_apply_of_not_mem (by omega)]
  · intro r hr
    rw [← hcopy.frame r hr]
    simp only [List.mem_cons, List.not_mem_nil, or_false, not_or] at hr
    obtain ⟨hr0, -, hr10, hr11, -⟩ := hr
    rw [hzero.frame r (by simp [hr0, hr10]), hreload.frame r hr10 hr11]

/-- For every layout, every place of the two loops in ROM and every content of RAM and
the registers, `copy_data_loop` reaches `copy_data_done`, and from there, once the
symbols of `.bss` are loaded, `zero_bss_loop` reaches `zero_bss_done` with RAM
initialised and nothing else changed. -/
theorem boot_initialises (m : Bool) (l : Layout) {copyAt zeroAt : ℕ} {s : Machine 32}
    (hcode : HoldsCrt0 s.cpu copyAt zeroAt) (hentry : CopyEntry l copyAt s) :
    ∃ n₁ t, runSteps m n₁ s = some t ∧
      t.cpu.pc = BitVec.ofNat 32 (copyAt + 4 * copyDataLoop.length) ∧
      ∀ u, Reload l zeroAt t u →
        ∃ n₂ v, runSteps m n₂ u = some v ∧ Booted l zeroAt s v := by
  simp only [runSteps_eq (.inl rfl), Option.some.injEq]
  obtain ⟨t, ⟨n₁, hn₁⟩, hdone⟩ := copy_data m hcode hentry
  refine ⟨n₁, t, hn₁, hdone.pc, ?_⟩
  intro u hreload
  have hcodeAgain := hcode.of_rom (hreload.rom.trans hdone.rom).symm
  obtain ⟨v, ⟨n₂, hn₂⟩, hzero⟩ := zero_bss m hcodeAgain hreload
  exact ⟨n₂, v, hn₂, booted hdone hreload hzero⟩

/-- Two words of `.data` and two of `.bss`, at the end of RAM. -/
def smallLayout : Layout where
  sidata := 40
  sdata := 0x2000FFF0
  edata := 0x2000FFF8
  sbss := 0x2000FFF8
  ebss := 0x20010000
  sdata_aligned := by decide
  edata_aligned := by decide
  sbss_aligned := by decide
  ebss_aligned := by decide
  sidata_aligned := by decide
  ram_le_sdata := by decide
  sdata_le_edata := by decide
  edata_le_sbss := by decide
  sbss_le_ebss := by decide
  ebss_le_ram := by decide
  sidata_in_rom := by decide

def smallImage : List Word :=
  copyDataLoop ++ zeroBssLoop ++ [0xCAFE0001, 0xCAFE0002]

/-- At `copy_data_loop`, with the other registers and RAM full of garbage. -/
def bootMachine : Machine 32 :=
  { initMachine 32 (romOfWords smallImage) with
    cpu := {
      rom := romOfWords smallImage
      ram := fun _ => 0xA5
      pc := 0
      regfile := Function.update (Function.update (Function.update (fun _ => 0xDEADBEEF)
        a0 40) a1 0x2000FFF0) a2 0x2000FFF8 } }

theorem holdsCrt0_bootMachine : HoldsCrt0 bootMachine.cpu 0 24 := by
  have hcode : HoldsCode bootMachine.cpu 0 smallImage :=
    holdsCode_romOfWords rfl (by decide)
  have hloops := hcode.append.1
  exact ⟨hloops.append.1, by decide, hloops.append.2, by decide⟩

theorem boot_initialises_small : ∃ n₁ t, runSteps true n₁ bootMachine = some t ∧
    t.cpu.pc = 24 ∧
    ∀ u, Reload smallLayout 24 t u →
      ∃ n₂ v, runSteps true n₂ u = some v ∧ Booted smallLayout 24 bootMachine v :=
  boot_initialises true smallLayout holdsCrt0_bootMachine ⟨rfl, rfl, rfl, rfl⟩

end Rvem.Boot
