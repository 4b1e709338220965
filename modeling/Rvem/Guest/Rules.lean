import Rvem.Guest.Code
import Rvem.Library.Reach

/-!
# Rules for guest code

A description of what a guest program sees: the ROM image, the pc, the registers
other than `x0` and the memory map.  Each instruction of the boot code has a rule
that takes a description to the one after it.
-/

namespace Rvem.Rules

open Rvem.Arch
open Rvem.State
open Rvem.Core
open Rvem.Fields
open Rvem.FlatMap
open Rvem.StepEffect
open Rvem.Run
open Rvem.Code
open Rvem.Library.LittleEndian

/-- The machine runs on `rom`, stands at `pc`, holds the register file `reg` except for
`x0`, and has `mem` in its memory map. -/
structure Sees (rom : Fin romSize → Byte) (pc : ℕ) (reg : Fin 32 → BitVec 32)
    (mem : ℕ → ℕ) (s : Machine 32) : Prop where
  rom : s.cpu.rom = rom
  pc : s.cpu.pc = BitVec.ofNat 32 pc
  reg : ∀ r, r ≠ 0 → s.cpu.regfile r = reg r
  mem : byteAt s.cpu = mem

/-- Every instruction leaves `x0` zero. -/
theorem step_zero (m : Bool) (s : Machine 32) : (step m s).cpu.regfile 0 = 0 := rfl

theorem ofNat_add_four (pc : ℕ) : BitVec.ofNat 32 pc + 4 = BitVec.ofNat 32 (pc + 4) :=
  (BitVec.ofNat_add pc 4).symm

/-- Going back `distance` bytes. -/
theorem ofNat_add_neg (pc distance : ℕ) :
    BitVec.ofNat 32 (pc + distance) + -BitVec.ofNat 32 distance = BitVec.ofNat 32 pc := by
  rw [BitVec.ofNat_add, BitVec.add_assoc, ← BitVec.sub_eq_add_neg, BitVec.sub_self]
  exact BitVec.add_zero _

/-- Code in ROM is fetched wherever the run is. -/
theorem fetchedWord_rom {cpu cpu' : Cpu 32} {base : ℕ} {words : List Word} {word : Word}
    (hcode : HoldsCode cpu base words) (hfits : base + 4 * words.length ≤ romSize)
    (hrom : cpu'.rom = cpu.rom) (i : ℕ) (hpc : cpu'.pc = BitVec.ofNat 32 (base + 4 * i))
    (hword : words[i]? = some word) : fetchedWord cpu' = word := by
  obtain ⟨hi, -⟩ := List.getElem?_eq_some_iff.mp hword
  have hsize : romSize < 2 ^ 32 := by norm_num [romSize]
  apply fetchedWord_of_holds
  rw [hpc, BitVec.toNat_ofNat, Nat.mod_eq_of_lt (by omega)]
  exact (hcode i word hword).of_rom (by omega) hrom.symm

theorem Sees.fetched {cpu : Cpu 32} {base i : ℕ} {words : List Word} {word : Word}
    {reg : Fin 32 → BitVec 32} {mem : ℕ → ℕ} {s : Machine 32}
    (hsees : Sees cpu.rom (base + 4 * i) reg mem s) (hcode : HoldsCode cpu base words)
    (hfits : base + 4 * words.length ≤ romSize) (hword : words[i]? = some word) :
    fetchedWord s.cpu = word :=
  fetchedWord_rom hcode hfits hsees.rom i hsees.pc hword

section Instructions

variable {m : Bool} {rom : Fin romSize → Byte} {pc : ℕ} {reg : Fin 32 → BitVec 32}
  {mem : ℕ → ℕ} {s : Machine 32} {word : Word}

/-- The description after an instruction with a value for `dest` and the pc at
`target`. -/
theorem Sees.nextCpu (hsees : Sees rom pc reg mem s) {s' : Machine 32} {dest : Fin 32}
    {value target : BitVec 32} {pc' : ℕ}
    (hcpu : s'.cpu = Code.nextCpu s.cpu dest (some value) target)
    (htarget : target = BitVec.ofNat 32 pc') :
    Sees rom pc' (Function.update reg dest value) mem s' where
  rom := by rw [hcpu, nextCpu_rom, hsees.rom]
  pc := by rw [hcpu, nextCpu_pc, htarget]
  reg := by
    intro r hr
    rw [hcpu]
    by_cases hdest : r = dest
    · subst hdest
      rw [nextCpu_self _ _ _ hr, Function.update_self]
    · rw [nextCpu_of_ne _ _ _ _ hr hdest, Function.update_of_ne hdest, hsees.reg r hr]
  mem := by
    rw [← hsees.mem, hcpu]
    exact byteAt_congr rfl rfl

/-- The rule of `addi`: the sum is in its register and nothing else has changed. -/
theorem Sees.addi (hsees : Sees rom pc reg mem s) (hword : fetchedWord s.cpu = word)
    (hclass : opClass 32 (getOpcode word) = .imm) (hfunct3 : getFunct3 word = aluAdd)
    {value : BitVec 32} (hvalue : reg (rs1 word) + getSimm12 32 word = value)
    (hrs1 : rs1 word ≠ 0) :
    Sees rom (pc + 4) (Function.update reg (rd word) value) mem (step m s) := by
  have hcpu := (step_addi (m := m) hword hclass hfunct3).1
  rw [hsees.reg _ hrs1, hvalue, hsees.pc] at hcpu
  exact hsees.nextCpu hcpu (ofNat_add_four pc)

/-- The rule of `lw`: the four bytes at a readable address are in its register. -/
theorem Sees.lw (hsees : Sees rom pc reg mem s) (hword : fetchedWord s.cpu = word)
    (hclass : opClass 32 (getOpcode word) = .load) (hfunct3 : getFunct3 word = memW)
    {address : ℕ} (haddress : (reg (rs1 word) + getSimm12 32 word).toNat = address)
    (hrs1 : rs1 word ≠ 0) (hregion : Readable address 4) :
    Sees rom (pc + 4)
      (Function.update reg (rd word) (BitVec.ofNat 32 (load mem address 4))) mem
      (step m s) := by
  have hload : (loadAddr s.cpu word).toNat = address := by
    rw [loadAddr, hsees.reg _ hrs1, haddress]
  have hcpu := step_lw (m := m) hword hclass hfunct3 (by rwa [hload])
  rw [hload, hsees.mem, hsees.pc] at hcpu
  exact hsees.nextCpu hcpu (ofNat_add_four pc)

/-- The rule of `sw`: the word is at an address of RAM and no register has changed. -/
theorem Sees.sw (hsees : Sees rom pc reg mem s) (hword : fetchedWord s.cpu = word)
    (hclass : opClass 32 (getOpcode word) = .store) (hfunct3 : getFunct3 word = memW)
    {address value : ℕ}
    (haddress : (reg (rs1 word) + getStoreImm 32 word).toNat = address)
    (hvalue : (s.cpu.regfile (rs2 word)).toNat = value)
    (hrs1 : rs1 word ≠ 0) (hregion : InRam address 4) :
    Sees rom (pc + 4) reg (store mem address 4 value) (step m s) := by
  have hstore : (storeAddr s.cpu word).toNat = address := by
    rw [storeAddr, hsees.reg _ hrs1, haddress]
  obtain ⟨hrom, hpc, hreg, -, hmem⟩ :=
    step_sw (m := m) hword hclass hfunct3 (by rwa [hstore])
  refine ⟨hrom.trans hsees.rom, ?_, ?_, ?_⟩
  · rw [hpc, hsees.pc, ofNat_add_four]
  · intro r hr
    rw [hreg r hr, hsees.reg r hr]
  · rw [hmem, hstore, hvalue, hsees.mem]

/-- The rule of a branch: only the pc changes, to the target if the condition holds and
to the next instruction if not. -/
theorem Sees.branch (hsees : Sees rom pc reg mem s) (hword : fetchedWord s.cpu = word)
    (hclass : opClass 32 (getOpcode word) = .branch) {jumps : Bool} {target : ℕ}
    (hjumps : branchTaken (getFunct3 word) (reg (rs1 word)) (reg (rs2 word)) = jumps)
    (htarget : (if jumps then BitVec.ofNat 32 pc + getBranchImm 32 word
      else BitVec.ofNat 32 pc + 4) = BitVec.ofNat 32 target)
    (hrs1 : rs1 word ≠ 0) (hrs2 : rs2 word ≠ 0) :
    Sees rom target reg mem (step m s) := by
  have hcpu := (step_branch (m := m) hword hclass).1
  rw [taken, hsees.reg _ hrs1, hsees.reg _ hrs2, hjumps, hsees.pc, htarget] at hcpu
  refine ⟨?_, ?_, ?_, ?_⟩
  · rw [hcpu, nextCpu_rom, hsees.rom]
  · rw [hcpu, nextCpu_pc]
  · intro r hr
    rw [hcpu, nextCpu_none _ _ _ hr, hsees.reg r hr]
  · rw [← hsees.mem, hcpu]
    exact byteAt_congr rfl rfl

/-- `j`, which is `jal x0`. -/
theorem Sees.j (hsees : Sees rom pc reg mem s) (hword : fetchedWord s.cpu = word)
    (hclass : opClass 32 (getOpcode word) = .jal) (hrd : rd word = 0) {target : ℕ}
    (htarget : BitVec.ofNat 32 pc + getJalImm 32 word = BitVec.ofNat 32 target) :
    Sees rom target reg mem (step m s) := by
  have hcpu := step_jal (m := m) hword hclass
  rw [hsees.pc, htarget] at hcpu
  refine ⟨?_, ?_, ?_, ?_⟩
  · rw [hcpu, nextCpu_rom, hsees.rom]
  · rw [hcpu, nextCpu_pc]
  · intro r hr
    rw [hcpu, nextCpu_of_ne _ _ _ _ hr (hrd ▸ hr), hsees.reg r hr]
  · rw [← hsees.mem, hcpu]
    exact byteAt_congr rfl rfl

end Instructions

end Rvem.Rules
