import Rvem.Memory.Bounds

/-!
# Guest code in memory

A word is held at an address when the four bytes there spell it.  The fetch brings
exactly the held word, and code in ROM stays held along every run.  Sequences of words
are held in the same way, and each instruction of a sequence is fetched at its own
address.  The cpu after an instruction that writes one register, and the steps of the
instructions that the later modules execute, are stated once here.
-/

namespace Rvem.Code

open Rvem.Arch
open Rvem.State
open Rvem.Assembly
open Rvem.Core
open Rvem.FlatMap
open Rvem.Fields
open Rvem.StepEffect
open Rvem.Bounds
open Rvem.Run
open Rvem.Library.LittleEndian

variable {w : ℕ}

/-- The RV32 build with the M extension. -/
abbrev rv32im : Build := ⟨32, .inl rfl, true⟩

/-- ROM holding `words` from address zero on. -/
def romOfWords (words : List Word) : Fin romSize → Byte :=
  fun i =>
    match words[i.val / 4]? with
    | some word => (word >>> (8 * (i.val % 4))).setWidth 8
    | none => 0

/-- The four bytes at `address` are mapped and spell `word`. -/
def HoldsWord (cpu : Cpu w) (address : ℕ) (word : Word) : Prop :=
  Readable address 4 ∧ load (byteAt cpu) address 4 = word.toNat

theorem fetchedWord_of_holds {cpu : Cpu w} {word : Word}
    (hword : HoldsWord cpu cpu.pc.toNat word) : fetchedWord cpu = word := by
  rw [fetchedWord, if_pos hword.1, hword.2, BitVec.ofNat_toNat, BitVec.setWidth_eq]

/-- What is held depends on the two arrays only. -/
theorem HoldsWord.congr {left right : Cpu w} {address : ℕ} {word : Word}
    (hword : HoldsWord left address word) (hrom : left.rom = right.rom)
    (hram : left.ram = right.ram) : HoldsWord right address word := by
  rw [HoldsWord, ← byteAt_congr hrom hram]
  exact hword

/-- A word in ROM stays held whatever happens to RAM. -/
theorem HoldsWord.of_rom {left right : Cpu w} {address : ℕ} {word : Word}
    (hword : HoldsWord left address word) (haddress : address + 4 ≤ romSize)
    (hrom : left.rom = right.rom) : HoldsWord right address word := by
  refine ⟨hword.1, ?_⟩
  rw [← hword.2]
  apply load_congr
  intro i hi
  have hin : address + i < romSize := by omega
  rw [byteAt_rom right hin, byteAt_rom left hin, hrom]

theorem holdsWord_romOfWords {cpu : Cpu w} {words : List Word} {word : Word} {i : ℕ}
    (hrom : cpu.rom = romOfWords words) (hword : words[i]? = some word)
    (hi : 4 * i + 4 ≤ romSize) : HoldsWord cpu (4 * i) word := by
  refine ⟨.inl ⟨Nat.zero_le _, hi.trans_eq (Nat.zero_add _).symm⟩, ?_⟩
  have hbytes : ∀ j < 4, byteAt cpu (4 * i + j) = digit word.toNat j := by
    intro j hj
    have hquotient : (4 * i + j) / 4 = i := by omega
    have hremainder : (4 * i + j) % 4 = j := by omega
    rw [byteAt_rom cpu (by omega : 4 * i + j < romSize), hrom]
    simp only [romOfWords, hquotient, hremainder, hword]
    rw [BitVec.toNat_setWidth, BitVec.toNat_ushiftRight, Nat.shiftRight_eq_div_pow, digit,
      pow_mul]
    norm_num
  rw [load_eq_mod hbytes]
  exact Nat.mod_eq_of_lt word.isLt

/-- Consecutive words are held from `base` on. -/
def HoldsCode (cpu : Cpu w) (base : ℕ) (words : List Word) : Prop :=
  ∀ i word, words[i]? = some word → HoldsWord cpu (base + 4 * i) word

/-- A cpu whose pc is at instruction `i` of code that it holds fetches
this instruction. -/
theorem HoldsCode.fetchedWord {cpu : Cpu w} {base : ℕ} {words : List Word} {word : Word}
    (hcode : HoldsCode cpu base words) (i : ℕ) (hpc : cpu.pc.toNat = base + 4 * i)
    (hword : words[i]? = some word) : fetchedWord cpu = word := by
  apply fetchedWord_of_holds
  rw [hpc]
  exact hcode i word hword

theorem HoldsCode.congr {left right : Cpu w} {base : ℕ} {words : List Word}
    (hcode : HoldsCode left base words) (hrom : left.rom = right.rom)
    (hram : left.ram = right.ram) : HoldsCode right base words :=
  fun i word hword => (hcode i word hword).congr hrom hram

/-- Code in ROM stays held whatever happens to RAM. -/
theorem HoldsCode.of_rom {left right : Cpu w} {base : ℕ} {words : List Word}
    (hcode : HoldsCode left base words) (hfits : base + 4 * words.length ≤ romSize)
    (hrom : left.rom = right.rom) : HoldsCode right base words := by
  intro i word hword
  obtain ⟨hi, -⟩ := List.getElem?_eq_some_iff.mp hword
  exact (hcode i word hword).of_rom (by omega) hrom

/-- Code held one piece after the other. -/
theorem HoldsCode.append {cpu : Cpu w} {base : ℕ} {first second : List Word}
    (hcode : HoldsCode cpu base (first ++ second)) :
    HoldsCode cpu base first ∧ HoldsCode cpu (base + 4 * first.length) second := by
  constructor
  · intro i word hword
    obtain ⟨hi, -⟩ := List.getElem?_eq_some_iff.mp hword
    exact hcode i word (by rwa [List.getElem?_append_left hi])
  · intro i word hword
    rw [Nat.add_assoc, ← Nat.mul_add]
    exact hcode _ word (by rwa [List.getElem?_append_right (Nat.le_add_right _ _),
      Nat.add_sub_cancel_left])

theorem holdsCode_romOfWords {cpu : Cpu w} {words : List Word}
    (hrom : cpu.rom = romOfWords words) (hlength : 4 * words.length ≤ romSize) :
    HoldsCode cpu 0 words := by
  intro i word hword
  obtain ⟨hi, -⟩ := List.getElem?_eq_some_iff.mp hword
  rw [Nat.zero_add]
  exact holdsWord_romOfWords hrom hword (by omega)

/-- Held code is mapped, so it ends well below the largest address. -/
theorem HoldsCode.bound {cpu : Cpu w} {base : ℕ} {words : List Word} {word : Word}
    (hcode : HoldsCode cpu base words) (i : ℕ) (hword : words[i]? = some word) :
    base + 4 * i + 4 < 2 ^ 30 := by
  have hmapped := (hcode i word hword).1
  simp only [Readable, InRom, InRam, romStart, romSize, ramStart, ramSize] at hmapped
  omega

/-! ## Stepping through known code -/

/-- The cpu after an instruction that leaves RAM alone: `dest` has `value`, if there
is one, and the next word is at `pc`. -/
def nextCpu (cpu : Cpu w) (dest : Fin 32) (value : Option (BitVec w)) (pc : BitVec w) :
    Cpu w :=
  { cpu with regfile := regfileAfter cpu.regfile dest value, pc }

section NextCpu

variable (cpu : Cpu w) (dest : Fin 32) (value : Option (BitVec w)) (pc : BitVec w)

@[simp]
theorem nextCpu_rom : (nextCpu cpu dest value pc).rom = cpu.rom := rfl

@[simp]
theorem nextCpu_ram : (nextCpu cpu dest value pc).ram = cpu.ram := rfl

@[simp]
theorem nextCpu_pc : (nextCpu cpu dest value pc).pc = pc := rfl

/-- The register written holds the value written, unless it is `x0`. -/
theorem nextCpu_self (hdest : dest ≠ 0) (v : BitVec w) :
    (nextCpu cpu dest (some v) pc).regfile dest = v := by
  change regfileAfter cpu.regfile dest (some v) dest = v
  rw [regfileAfter, if_neg hdest, if_pos rfl, Option.getD_some]

theorem nextCpu_of_ne {r : Fin 32} (hr : r ≠ 0) (hne : r ≠ dest) :
    (nextCpu cpu dest value pc).regfile r = cpu.regfile r := by
  change regfileAfter cpu.regfile dest value r = cpu.regfile r
  rw [regfileAfter, if_neg hr, if_neg hne]

theorem nextCpu_none {r : Fin 32} (hr : r ≠ 0) :
    (nextCpu cpu dest none pc).regfile r = cpu.regfile r := by
  change regfileAfter cpu.regfile dest none r = cpu.regfile r
  rw [regfileAfter, if_neg hr, Option.getD_none, ite_self]

end NextCpu

theorem effect_instr (m : Bool) (s : Machine w) (raw : Word) :
    (effect m s raw).instr = decoded w raw := by
  cases hclass : opClass w (getOpcode raw) <;> simp only [effect, hclass, skip]

section Step

variable {m : Bool} {s : Machine w} {word : Word}

/-- One step of a machine that fetches `word` is the effect of this word. -/
theorem step_of_word (hword : fetchedWord s.cpu = word) :
    step m s = (effect m (afterFetch s) word).apply (afterFetch s) word := by
  rw [step, stepEffect, hword]

theorem step_perfModel (hword : fetchedWord s.cpu = word) :
    (step m s).perfModel = PerfModel.after s.perfModel (decoded w word) := by
  rw [step_of_word hword, Effect.apply, effect_instr, afterFetch_perfModel]

theorem step_cpu_of_word (hword : fetchedWord s.cpu = word) :
    (step m s).cpu = ((effect m (afterFetch s) word).apply (afterFetch s) word).cpu := by
  rw [step_of_word hword]

theorem stepContinues_of_word (hword : fetchedWord s.cpu = word) :
    stepContinues m s = (effect m (afterFetch s) word).execContinue := by
  rw [stepContinues, stepEffect, hword]

/-- `addi` -/
theorem step_addi (hword : fetchedWord s.cpu = word)
    (hclass : opClass w (getOpcode word) = .imm) (hfunct3 : getFunct3 word = aluAdd) :
    (step m s).cpu = nextCpu s.cpu (rd word)
        (some (s.cpu.regfile (rs1 word) + getSimm12 w word)) (s.cpu.pc + 4) ∧
      stepContinues m s = true := by
  rw [step_cpu_of_word hword, stepContinues_of_word hword]
  simp only [effect, hclass, Effect.apply, skip, immValue, hfunct3, if_true,
    afterFetch_cpu, nextCpu, and_self]

/-- A conditional branch. -/
theorem step_branch (hword : fetchedWord s.cpu = word)
    (hclass : opClass w (getOpcode word) = .branch) :
    (step m s).cpu = nextCpu s.cpu (rd word) none
        (if taken s.cpu word then s.cpu.pc + getBranchImm w word
          else s.cpu.pc + 4) ∧
      stepContinues m s = true := by
  rw [step_cpu_of_word hword, stepContinues_of_word hword]
  simp only [effect, hclass, Effect.apply, skip]
  exact ⟨rfl, trivial⟩

/-- `jal` -/
theorem step_jal (hword : fetchedWord s.cpu = word)
    (hclass : opClass w (getOpcode word) = .jal) :
    (step m s).cpu = nextCpu s.cpu (rd word) (some (s.cpu.pc + 4))
      (s.cpu.pc + getJalImm w word) := by
  rw [step_cpu_of_word hword]
  simp only [effect, hclass, Effect.apply, skip, afterFetch_cpu, nextCpu]

/-- `lw` from mapped memory. -/
theorem step_lw {s : Machine 32} (hword : fetchedWord s.cpu = word)
    (hclass : opClass 32 (getOpcode word) = .load) (hfunct3 : getFunct3 word = memW)
    (hregion : Readable (loadAddr s.cpu word).toNat 4) :
    (step m s).cpu = nextCpu s.cpu (rd word)
      (some (BitVec.ofNat 32 (load (byteAt s.cpu) (loadAddr s.cpu word).toNat 4)))
      (s.cpu.pc + 4) := by
  have hread := (readValue_permitted s.cpu loadSize_memW hregion).1
  have hvalue : ∀ v, loadValue 32 memW 4 v = BitVec.ofNat 32 v :=
    fun v => BitVec.signExtend_eq _
  rw [hvalue] at hread
  rw [step_cpu_of_word hword]
  simp only [effect, hclass, Effect.apply, skip, hfunct3, afterFetch_cpu, hread, nextCpu]

/-- `sw` to RAM: the registers, ROM and the pc as after any instruction without a
value, the memory map with the word stored. -/
theorem step_sw {s : Machine 32} (hword : fetchedWord s.cpu = word)
    (hclass : opClass 32 (getOpcode word) = .store) (hfunct3 : getFunct3 word = memW)
    (hregion : InRam (storeAddr s.cpu word).toNat 4) :
    (step m s).cpu.rom = s.cpu.rom ∧
      (step m s).cpu.pc = s.cpu.pc + 4 ∧
      (∀ r, r ≠ 0 → (step m s).cpu.regfile r = s.cpu.regfile r) ∧
      (step m s).cpu.regfile 0 = 0 ∧
      byteAt (step m s).cpu = store (byteAt s.cpu) (storeAddr s.cpu word).toNat 4
        (s.cpu.regfile (rs2 word)).toNat := by
  have hsize : storeSize 32 memW = some 4 := rfl
  have hwritten := (writtenRam_permitted s.cpu (s.cpu.regfile (rs2 word)) hsize hregion).1
  rw [step_cpu_of_word hword]
  simp only [effect, hclass, Effect.apply, skip, hfunct3, afterFetch_cpu, hwritten]
  refine ⟨trivial, trivial, ?_, rfl, byteAt_storedRam s.cpu _ hregion⟩
  intro r hr
  rw [regfileAfter, if_neg hr, Option.getD_none, ite_self]

end Step

end Rvem.Code
