import Rvem.Isa.ManualEffects
import Rvem.Sdk.Boot

/-!
# The life of a guest program

All of `crt0.S`: from reset through `la` and the two loops to the first instruction of
`main`, and from the return of `main` to the exit.  `la` and `call` are the instructions
that assembler and linker make of them, relaxed or not.
-/

namespace Rvem.Startup

open Rvem.Arch (Word getOpcode getFunct3 getSimm12 getSimm20 getJalImm aluAdd opClass
  romSize ramStart ramSize maxCycles)
open Rvem.State
open Rvem.Main
open Rvem.FlatMap
open Rvem.Fields
open Rvem.StepEffect
open Rvem.Run
open Rvem.Code
open Rvem.Rules
open Rvem.Boot
open Rvem.Library.Reach

/-! ## Instructions -/

abbrev ra : Fin 32 := 1
abbrev sp : Fin 32 := 2
abbrev gp : Fin 32 := 3

/-- `addi dest, source, offset` -/
structure IsAddi (word : Word) (dest source : Fin 32) (offset : BitVec 32) : Prop where
  opcode : getOpcode word = 0x13
  funct3 : getFunct3 word = aluAdd
  dest : rd word = dest
  source : rs1 word = source
  offset : getSimm12 32 word = offset

/-- `auipc dest, offset` -/
structure IsAuipc (word : Word) (dest : Fin 32) (offset : BitVec 32) : Prop where
  opcode : getOpcode word = 0x17
  dest : rd word = dest
  offset : getSimm20 32 word = offset

/-- `jal dest, offset` -/
structure IsJal (word : Word) (dest : Fin 32) (offset : BitVec 32) : Prop where
  opcode : getOpcode word = 0x6F
  dest : rd word = dest
  offset : getJalImm 32 word = offset

/-- `jalr dest, offset(source)` -/
structure IsJalr (word : Word) (dest source : Fin 32) (offset : BitVec 32) : Prop where
  opcode : getOpcode word = 0x67
  dest : rd word = dest
  source : rs1 word = source
  offset : getSimm12 32 word = offset

/-- `la dest, symbol` at `pc`, with `.option norelax`. -/
inductive LoadsFromPc (pc : ℕ) (dest : Fin 32) (symbol : ℕ) : List Word → Prop
  | pcrel {high low : Word} {upper lower : BitVec 32} (hhigh : IsAuipc high dest upper)
      (hlow : IsAddi low dest dest lower)
      (hsum : BitVec.ofNat 32 pc + upper + lower = BitVec.ofNat 32 symbol) :
      LoadsFromPc pc dest symbol [high, low]

/-- `la dest, symbol` at `pc`, with the relaxations to `gp` and to `x0`. -/
inductive Loads (global pc : ℕ) (dest : Fin 32) (symbol : ℕ) : List Word → Prop
  | pcrel {words : List Word} (hloads : LoadsFromPc pc dest symbol words) :
      Loads global pc dest symbol words
  | gprel {word : Word} {offset : BitVec 32} (haddi : IsAddi word dest gp offset)
      (hsum : BitVec.ofNat 32 global + offset = BitVec.ofNat 32 symbol) :
      Loads global pc dest symbol [word]
  | zero {word : Word} (haddi : IsAddi word dest 0 (BitVec.ofNat 32 symbol)) :
      Loads global pc dest symbol [word]

/-- Several `la`, one after the other. -/
inductive LoadsAll (global : ℕ) : ℕ → List (Fin 32 × ℕ) → List Word → Prop
  | nil {pc : ℕ} : LoadsAll global pc [] []
  | cons {pc : ℕ} {dest : Fin 32} {symbol : ℕ} {symbols : List (Fin 32 × ℕ)}
      {first rest : List Word} (hfirst : Loads global pc dest symbol first)
      (hrest : LoadsAll global (pc + 4 * first.length) symbols rest) :
      LoadsAll global pc ((dest, symbol) :: symbols) (first ++ rest)

/-- `call target` at `pc`, with and without relaxation. -/
inductive Calls (pc target : ℕ) : List Word → Prop
  | far {high low : Word} {upper lower : BitVec 32} (hhigh : IsAuipc high ra upper)
      (hlow : IsJalr low ra ra lower)
      (hsum : BitVec.ofNat 32 pc + upper + lower = BitVec.ofNat 32 target) :
      Calls pc target [high, low]
  | near {word : Word} {offset : BitVec 32} (hjal : IsJal word ra offset)
      (hsum : BitVec.ofNat 32 pc + offset = BitVec.ofNat 32 target) :
          Calls pc target [word]

/-! ## One instruction -/

/-- The run that started in `s` has arrived at `pc` in `t`, without a store. -/
structure Arrives (s : Machine 32) (pc : ℕ) (reg : Fin 32 → BitVec 32) (t : Machine 32) :
    Prop where
  rom : t.cpu.rom = s.cpu.rom
  ram : t.cpu.ram = s.cpu.ram
  pc : t.cpu.pc = BitVec.ofNat 32 pc
  zero : t.cpu.regfile 0 = 0
  reg : ∀ r, r ≠ 0 → t.cpu.regfile r = reg r

section Rules

variable {m : Bool} {s t : Machine 32} {pc : ℕ} {reg : Fin 32 → BitVec 32} {word : Word}
  {dest source : Fin 32} {offset : BitVec 32}

/-- An instruction that writes one register and goes on at `pc'`. -/
theorem Arrives.next (hat : Arrives s pc reg t) {value target : BitVec 32} {pc' : ℕ}
    (hcpu : (step m t).cpu = nextCpu t.cpu dest (some value) target)
    (htarget : target = BitVec.ofNat 32 pc') :
    Arrives s pc' (Function.update reg dest value) (step m t) where
  rom := by rw [hcpu, nextCpu_rom, hat.rom]
  ram := by rw [hcpu, nextCpu_ram, hat.ram]
  pc := by rw [hcpu, nextCpu_pc, htarget]
  zero := step_zero m t
  reg := by
    intro r hr
    rw [hcpu]
    by_cases hdest : r = dest
    · subst hdest
      rw [nextCpu_self _ _ _ hr, Function.update_self]
    · rw [nextCpu_of_ne _ _ _ _ hr hdest, Function.update_of_ne hdest, hat.reg r hr]

/-- A source register, `x0` among them. -/
theorem Arrives.read (hat : Arrives s pc reg t) (r : Fin 32) :
    t.cpu.regfile r = if r = 0 then 0 else reg r := by
  split
  · next hr => rw [hr, hat.zero]
  · next hr => exact hat.reg r hr

theorem Arrives.addi (hat : Arrives s pc reg t) (hword : fetchedWord t.cpu = word)
    (haddi : IsAddi word dest source offset) :
    Arrives s (pc + 4) (Function.update reg dest
      ((if source = 0 then 0 else reg source) + offset)) (step m t) := by
  have hclass : opClass 32 (getOpcode word) = .imm := by
    rw [haddi.opcode]
    rfl
  have hcpu := (step_addi (m := m) hword hclass haddi.funct3).1
  rw [haddi.dest, haddi.source, haddi.offset, hat.read, hat.pc] at hcpu
  exact hat.next hcpu (ofNat_add_four pc)

/-- The rule of `auipc`: its destination holds the pc plus the offset. -/
theorem Arrives.auipc (hat : Arrives s pc reg t) (hword : fetchedWord t.cpu = word)
    (hauipc : IsAuipc word dest offset) :
    Arrives s (pc + 4) (Function.update reg dest (BitVec.ofNat 32 pc + offset))
      (step m t) := by
  have hclass : opClass 32 (getOpcode word) = .auipc := by
    rw [hauipc.opcode]
    rfl
  have hcpu : (step m t).cpu = nextCpu t.cpu (rd word)
      (some (t.cpu.pc + getSimm20 32 word)) (t.cpu.pc + 4) := by
    rw [step_cpu_of_word hword]
    simp only [effect, hclass, Effect.apply, skip, afterFetch_cpu, nextCpu]
  rw [hauipc.dest, hauipc.offset, hat.pc] at hcpu
  exact hat.next hcpu (ofNat_add_four pc)

/-- The rule of `jal`: its destination holds the return address. -/
theorem Arrives.jal (hat : Arrives s pc reg t) (hword : fetchedWord t.cpu = word)
    (hjal : IsJal word dest offset) {target : ℕ}
    (htarget : BitVec.ofNat 32 pc + offset = BitVec.ofNat 32 target) :
    Arrives s target (Function.update reg dest (BitVec.ofNat 32 (pc + 4)))
      (step m t) := by
  have hclass : opClass 32 (getOpcode word) = .jal := by
    rw [hjal.opcode]
    rfl
  have hcpu := step_jal (m := m) hword hclass
  rw [hjal.dest, hjal.offset, hat.pc, ofNat_add_four] at hcpu
  exact hat.next hcpu htarget

theorem Arrives.jalr (hat : Arrives s pc reg t) (hword : fetchedWord t.cpu = word)
    (hjalr : IsJalr word dest source offset) (hsource : source ≠ 0) {target : ℕ}
    (htarget : reg source + offset = BitVec.ofNat 32 target) (heven : 2 ∣ target) :
    Arrives s target (Function.update reg dest (BitVec.ofNat 32 (pc + 4)))
      (step m t) := by
  have hclass : opClass 32 (getOpcode word) = .jalr := by
    rw [hjalr.opcode]
    rfl
  have hcpu : (step m t).cpu = nextCpu t.cpu (rd word) (some (t.cpu.pc + 4))
      ((t.cpu.regfile (rs1 word) + getSimm12 32 word) &&& ~~~1#32) := by
    rw [step_cpu_of_word hword]
    simp only [effect, hclass, Effect.apply, skip, afterFetch_cpu, nextCpu]
  have hcleared : BitVec.ofNat 32 target &&& ~~~1#32 = BitVec.ofNat 32 target := by
    apply BitVec.eq_of_toNat_eq
    rw [ManualEffects.toNat_clearBit0 (.inl rfl), BitVec.toNat_ofNat]
    omega
  rw [hjalr.dest, hjalr.source, hjalr.offset, hat.reg _ hsource, hat.pc, htarget,
    hcleared, ofNat_add_four] at hcpu
  exact hat.next hcpu rfl

end Rules

/-! ## Pseudo-instructions -/

section Pseudo

variable {m : Bool} {cpu : Cpu 32} {s t : Machine 32} {global pc : ℕ}
  {reg : Fin 32 → BitVec 32} {words : List Word}

/-- The word at the pc, of code that starts there. -/
theorem Arrives.fetched (hat : Arrives s pc reg t) (hcode : HoldsCode s.cpu pc words)
    (hfits : pc + 4 * words.length ≤ romSize) {word : Word}
    (hword : words[0]? = some word) :
    fetchedWord t.cpu = word :=
  fetchedWord_rom hcode hfits hat.rom 0 hat.pc hword

/-- The second word of two. -/
theorem Arrives.fetchedNext {first second : Word} (hat : Arrives s (pc + 4) reg t)
    (hcode : HoldsCode s.cpu pc [first, second]) (hfits : pc + 4 * 2 ≤ romSize) :
    fetchedWord t.cpu = second :=
  fetchedWord_rom hcode hfits hat.rom 1 hat.pc rfl

theorem LoadsFromPc.run {dest : Fin 32} {symbol : ℕ}
    (hloads : LoadsFromPc pc dest symbol words) (hdest : dest ≠ 0)
    (hcode : HoldsCode s.cpu pc words) (hfits : pc + 4 * words.length ≤ romSize)
    (hat : Arrives s pc reg t) :
    ∃ u, Reaches (step m) t u ∧ Arrives s (pc + 4 * words.length)
      (Function.update reg dest (BitVec.ofNat 32 symbol)) u := by
  cases hloads with
  | @pcrel high low upper lower hhigh hlow hsum =>
      have hfirst := hat.auipc (m := m) (hat.fetched hcode hfits rfl) hhigh
      have hsecond := hfirst.addi (m := m) (hfirst.fetchedNext hcode hfits) hlow
      rw [if_neg hdest, Function.update_self, hsum, Function.update_idem] at hsecond
      exact ⟨_, (Reaches.single t).trans (Reaches.single _), hsecond⟩

/-- However the linker has encoded `la`, the register holds the address of the symbol
afterwards. -/
theorem Loads.run {dest : Fin 32} {symbol : ℕ}
    (hloads : Loads global pc dest symbol words)
    (hdest : dest ≠ 0) (hcode : HoldsCode s.cpu pc words)
    (hfits : pc + 4 * words.length ≤ romSize) (hat : Arrives s pc reg t)
    (hglobal : reg gp = BitVec.ofNat 32 global) :
    ∃ u, Reaches (step m) t u ∧ Arrives s (pc + 4 * words.length)
      (Function.update reg dest (BitVec.ofNat 32 symbol)) u := by
  cases hloads with
  | pcrel hloads => exact hloads.run hdest hcode hfits hat
  | @gprel word offset haddi hsum =>
      have hnext := hat.addi (m := m) (hat.fetched hcode hfits rfl) haddi
      rw [if_neg (by decide), hglobal, hsum] at hnext
      exact ⟨_, Reaches.single t, hnext⟩
  | @zero word haddi =>
      have hnext := hat.addi (m := m) (hat.fetched hcode hfits rfl) haddi
      rw [if_pos rfl, zero_add] at hnext
      exact ⟨_, Reaches.single t, hnext⟩

/-- The registers behind several `la`. -/
def loaded (reg : Fin 32 → BitVec 32) (symbols : List (Fin 32 × ℕ)) :
    Fin 32 → BitVec 32 :=
  symbols.foldl (fun reg entry => Function.update reg entry.1 (BitVec.ofNat 32 entry.2))
    reg

/-- Several `la` in a row load all their symbols. -/
theorem LoadsAll.run {symbols : List (Fin 32 × ℕ)}
    (hloads : LoadsAll global pc symbols words)
    (hdest : ∀ dest ∈ symbols.map Prod.fst, dest ≠ 0 ∧ dest ≠ gp)
    (hcode : HoldsCode s.cpu pc words) (hfits : pc + 4 * words.length ≤ romSize)
    (hat : Arrives s pc reg t) (hglobal : reg gp = BitVec.ofNat 32 global) :
    ∃ u, Reaches (step m) t u ∧
      Arrives s (pc + 4 * words.length) (loaded reg symbols) u := by
  induction hloads generalizing reg t with
  | nil => exact ⟨t, Reaches.refl t, hat⟩
  | @cons pc dest symbol symbols first rest hfirst hrest ih =>
      obtain ⟨⟨hzero, hgp⟩, hothers⟩ := List.forall_mem_cons.mp hdest
      obtain ⟨hcodeFirst, hcodeRest⟩ := hcode.append
      rw [List.length_append] at hfits
      obtain ⟨u, htu, hu⟩ := hfirst.run (m := m) hzero hcodeFirst (by omega) hat hglobal
      obtain ⟨v, huv, hv⟩ := ih hothers hcodeRest (by omega) hu
        (by rw [Function.update_of_ne (Ne.symm hgp), hglobal])
      refine ⟨v, htu.trans huv, ?_⟩
      rw [List.length_append, Nat.mul_add, ← Nat.add_assoc]
      exact hv

/-- However the linker has encoded `call`, it arrives at its target with the return
address in `ra`. -/
theorem Calls.run {target : ℕ} (hcalls : Calls pc target words) (heven : 2 ∣ target)
    (hcode : HoldsCode s.cpu pc words) (hfits : pc + 4 * words.length ≤ romSize)
    (hat : Arrives s pc reg t) :
    ∃ u, Reaches (step m) t u ∧ Arrives s target
      (Function.update reg ra (BitVec.ofNat 32 (pc + 4 * words.length))) u := by
  cases hcalls with
  | @far high low upper lower hhigh hlow hsum =>
      have hfirst := hat.auipc (m := m) (hat.fetched hcode hfits rfl) hhigh
      have hsecond := hfirst.jalr (m := m) (hfirst.fetchedNext hcode hfits) hlow
        (by decide) (by rw [Function.update_self, hsum]) heven
      rw [Function.update_idem] at hsecond
      exact ⟨_, (Reaches.single t).trans (Reaches.single _), hsecond⟩
  | @near word offset hjal hsum =>
      exact ⟨_, Reaches.single t, hat.jal (hat.fetched hcode hfits rfl) hjal hsum⟩

end Pseudo

/-! ## The file -/

/-- `__stack_top`: the end of RAM. -/
def stackTop : ℕ := ramStart + ramSize

/-- `__global_pointer$` -/
def globalPointer (l : Layout) : ℕ := l.sdata + 0x800

/-- `li a0, 10; ecall; halt: j halt` -/
def exitCode : List Word :=
  [0x00A00513, 0x00000073, 0x0000006F]

/-- `crt0.S` as it is linked for a layout, with `main` at `target`. -/
structure Crt0 (l : Layout) (target : ℕ) where
  laGp : List Word
  laSymbols : List Word
  laBss : List Word
  callMain : List Word
  gp_loads : LoadsFromPc 0 gp (globalPointer l) laGp
  symbols_load : LoadsAll (globalPointer l) (4 * laGp.length)
    [(sp, stackTop), (a0, l.sidata), (a1, l.sdata), (a2, l.edata)] laSymbols
  bss_loads : LoadsAll (globalPointer l)
    (4 * (laGp ++ laSymbols ++ copyDataLoop).length) [(a0, l.sbss), (a1, l.ebss)] laBss
  main_called :
      Calls (4 * (laGp ++ laSymbols ++ copyDataLoop ++ laBss ++ zeroBssLoop).length)
    target callMain
  target_even : 2 ∣ target

namespace Crt0

variable {l : Layout} {target : ℕ} (crt0 : Crt0 l target)

/-- `copy_data_loop`, `zero_bss_loop` and the places behind them. -/
def copyAt : ℕ := 4 * (crt0.laGp ++ crt0.laSymbols).length
def reloadAt : ℕ := 4 * (crt0.laGp ++ crt0.laSymbols ++ copyDataLoop).length
def zeroAt : ℕ := 4 * (crt0.laGp ++ crt0.laSymbols ++ copyDataLoop ++ crt0.laBss).length
def callAt : ℕ :=
  4 * (crt0.laGp ++ crt0.laSymbols ++ copyDataLoop ++ crt0.laBss ++ zeroBssLoop).length

/-- Where `main` returns to. -/
def exitAt : ℕ := crt0.callAt + 4 * crt0.callMain.length

/-- The section `.text.init`. -/
def words : List Word :=
  crt0.laGp ++ crt0.laSymbols ++ copyDataLoop ++ crt0.laBss ++ zeroBssLoop ++
    crt0.callMain ++ exitCode

end Crt0

/-- ROM holds `crt0.S` from address zero on. -/
structure Holds {l : Layout} {target : ℕ} (crt0 : Crt0 l target)
    (cpu : Cpu 32) : Prop where
  laGp : HoldsCode cpu 0 crt0.laGp
  laSymbols : HoldsCode cpu (4 * crt0.laGp.length) crt0.laSymbols
  loops : HoldsCrt0 cpu crt0.copyAt crt0.zeroAt
  laBss : HoldsCode cpu crt0.reloadAt crt0.laBss
  callMain : HoldsCode cpu crt0.callAt crt0.callMain
  exit : HoldsCode cpu crt0.exitAt exitCode
  fits : crt0.exitAt + 4 * exitCode.length ≤ romSize

section Places

variable {l : Layout} {target : ℕ} (crt0 : Crt0 l target)

theorem reloadAt_eq : crt0.reloadAt = crt0.copyAt + 4 * copyDataLoop.length := by
  rw [Crt0.reloadAt, Crt0.copyAt, List.length_append, Nat.mul_add]

theorem zeroAt_eq : crt0.zeroAt = crt0.reloadAt + 4 * crt0.laBss.length := by
  rw [Crt0.zeroAt, Crt0.reloadAt, List.length_append, Nat.mul_add]

theorem callAt_eq : crt0.callAt = crt0.zeroAt + 4 * zeroBssLoop.length := by
  rw [Crt0.callAt, Crt0.zeroAt, List.length_append, Nat.mul_add]

theorem copyAt_eq : crt0.copyAt = 4 * crt0.laGp.length + 4 * crt0.laSymbols.length := by
  rw [Crt0.copyAt, List.length_append, Nat.mul_add]

/-- The pieces of held code. -/
theorem holds_of_code {cpu : Cpu 32} (hcode : HoldsCode cpu 0 crt0.words)
    (hfits : 4 * crt0.words.length ≤ romSize) : Holds crt0 cpu := by
  obtain ⟨hcode₆, hexit⟩ := hcode.append
  obtain ⟨hcode₅, hcall⟩ := hcode₆.append
  obtain ⟨hcode₄, hzero⟩ := hcode₅.append
  obtain ⟨hcode₃, hbss⟩ := hcode₄.append
  obtain ⟨hcode₂, hcopy⟩ := hcode₃.append
  obtain ⟨hgp, hsymbols⟩ := hcode₂.append
  rw [Nat.zero_add] at hexit hcall hzero hbss hcopy hsymbols
  have hreload := reloadAt_eq crt0
  have hzeroAt := zeroAt_eq crt0
  have hcallAt := callAt_eq crt0
  have hexitAt : crt0.exitAt = crt0.callAt + 4 * crt0.callMain.length := rfl
  have hend : crt0.exitAt + 4 * exitCode.length ≤ romSize := by
    rw [Crt0.words, List.length_append, List.length_append] at hfits
    rw [hexitAt, Crt0.callAt]
    omega
  rw [List.length_append, Nat.mul_add] at hexit
  exact ⟨hgp, hsymbols, ⟨hcopy, by omega, hzero, by omega⟩, hbss, hcall, hexit, hend⟩

end Places

/-! ## From reset to `main` -/

/-- At the first instruction of `main`, called by `crt0.S` that started in `s`. -/
structure Entered {l : Layout} {target : ℕ} (crt0 : Crt0 l target) (s v : Machine 32) :
    Prop where
  pc : v.cpu.pc = BitVec.ofNat 32 target
  rom : v.cpu.rom = s.cpu.rom
  return_address : v.cpu.regfile ra = BitVec.ofNat 32 crt0.exitAt
  stack : v.cpu.regfile sp = BitVec.ofNat 32 stackTop
  global : v.cpu.regfile gp = BitVec.ofNat 32 (globalPointer l)
  data : ∀ k < l.edata - l.sdata, byteAt v.cpu (l.sdata + k) = byteAt s.cpu (l.sidata + k)
  bss : ∀ a, l.sbss ≤ a → a < l.ebss → byteAt v.cpu a = 0
  rest : ∀ a, ¬(l.sdata ≤ a ∧ a < l.edata) → ¬(l.sbss ≤ a ∧ a < l.ebss) →
    byteAt v.cpu a = byteAt s.cpu a

/-- No instruction writes to ROM. -/
theorem reaches_rom {m : Bool} {s t : Machine 32} (hreaches : Reaches (step m) s t) :
    t.cpu.rom = s.cpu.rom := by
  obtain ⟨n, rfl⟩ := hreaches
  induction n with
  | zero => rfl
  | succ n ih =>
      rw [Function.iterate_succ_apply']
      exact ih

/-- `x0` stays zero. -/
theorem reaches_zero {m : Bool} {s t : Machine 32} (hreaches : Reaches (step m) s t)
    (hzero : s.cpu.regfile 0 = 0) : t.cpu.regfile 0 = 0 := by
  obtain ⟨n, rfl⟩ := hreaches
  cases n with
  | zero => exact hzero
  | succ n =>
      rw [Function.iterate_succ_apply']
      exact step_zero m _

section Boot

variable {l : Layout} {target : ℕ} {crt0 : Crt0 l target} {s t u v : Machine 32}

/-- The addresses are loaded. -/
theorem symbols_loaded (m : Bool) (hholds : Holds crt0 s.cpu) (hpc : s.cpu.pc = 0)
    (hzero : s.cpu.regfile 0 = 0) :
    ∃ t, Reaches (step m) s t ∧ CopyEntry l crt0.copyAt t ∧ t.cpu.ram = s.cpu.ram ∧
      t.cpu.regfile sp = BitVec.ofNat 32 stackTop ∧
      t.cpu.regfile gp = BitVec.ofNat 32 (globalPointer l) := by
  have hfits := hholds.fits
  have hreload := reloadAt_eq crt0
  have hzeroAt := zeroAt_eq crt0
  have hcallAt := callAt_eq crt0
  have hcopyAt := copyAt_eq crt0
  have hexitAt : crt0.exitAt = crt0.callAt + 4 * crt0.callMain.length := rfl
  have hstart : Arrives s 0 s.cpu.regfile s := ⟨rfl, rfl, hpc, hzero, fun _ _ => rfl⟩
  obtain ⟨t, hst, ht⟩ :=
    crt0.gp_loads.run (m := m) (by decide) hholds.laGp (by omega) hstart
  rw [Nat.zero_add] at ht
  have hdest : ∀ dest ∈ [sp, a0, a1, a2], dest ≠ 0 ∧ dest ≠ gp := by decide
  obtain ⟨u, htu, hu⟩ := crt0.symbols_load.run (m := m) hdest hholds.laSymbols
    (by omega) ht (Function.update_self _ _ _)
  refine ⟨u, hst.trans htu, ⟨?_, ?_, ?_, ?_⟩, hu.ram, ?_, ?_⟩
  · rw [hu.pc, hcopyAt]
  · rw [hu.reg a0 (by decide)]
    rfl
  · rw [hu.reg a1 (by decide)]
    rfl
  · rw [hu.reg a2 (by decide)]
    rfl
  · rw [hu.reg sp (by decide)]
    rfl
  · rw [hu.reg gp (by decide)]
    rfl

/-- Between the loops. -/
theorem bss_reloaded (m : Bool) (hholds : Holds crt0 t.cpu)
    (hpc : t.cpu.pc = BitVec.ofNat 32 crt0.reloadAt) (hzero : t.cpu.regfile 0 = 0)
    (hglobal : t.cpu.regfile gp = BitVec.ofNat 32 (globalPointer l)) :
    ∃ u, Reaches (step m) t u ∧ Reload l crt0.zeroAt t u := by
  have hfits := hholds.fits
  have hzeroAt := zeroAt_eq crt0
  have hcallAt := callAt_eq crt0
  have hexitAt : crt0.exitAt = crt0.callAt + 4 * crt0.callMain.length := rfl
  have hstart : Arrives t crt0.reloadAt t.cpu.regfile t :=
    ⟨rfl, rfl, hpc, hzero, fun _ _ => rfl⟩
  have hbss : crt0.reloadAt + 4 * crt0.laBss.length ≤ romSize := by omega
  have hdest : ∀ dest ∈ [a0, a1], dest ≠ 0 ∧ dest ≠ gp := by decide
  obtain ⟨u, htu, hu⟩ :=
    crt0.bss_loads.run (m := m) hdest hholds.laBss hbss hstart hglobal
  refine ⟨u, htu, hu.rom, hu.ram, ?_, ?_, ?_, ?_⟩
  · rw [hu.pc, hzeroAt]
    rfl
  · rw [hu.reg a0 (by decide)]
    rfl
  · rw [hu.reg a1 (by decide)]
    rfl
  · intro r ha0 ha1
    by_cases hr : r = 0
    · rw [hr, hu.zero, hzero]
    · rw [hu.reg r hr]
      change Function.update (Function.update _ _ _) _ _ r = _
      rw [Function.update_of_ne ha1, Function.update_of_ne ha0]

/-- ROM does not change, so the code is still held. -/
theorem Holds.of_rom {left right : Cpu 32} (hholds : Holds crt0 left)
    (hrom : left.rom = right.rom) : Holds crt0 right := by
  have hfits := hholds.fits
  have hreload := reloadAt_eq crt0
  have hzeroAt := zeroAt_eq crt0
  have hcallAt := callAt_eq crt0
  have hcopyAt := copyAt_eq crt0
  have hexitAt : crt0.exitAt = crt0.callAt + 4 * crt0.callMain.length := rfl
  exact {
    laGp := hholds.laGp.of_rom (by omega) hrom
    laSymbols := hholds.laSymbols.of_rom (by omega) hrom
    loops := hholds.loops.of_rom hrom
    laBss := hholds.laBss.of_rom (by omega) hrom
    callMain := hholds.callMain.of_rom (by omega) hrom
    exit := hholds.exit.of_rom (by omega) hrom
    fits := hfits }

/-- The call of `main`, with the registers set before the loops. -/
theorem main_called (m : Bool) (hholds : Holds crt0 u.cpu)
    (hpc : u.cpu.pc = BitVec.ofNat 32 crt0.callAt) (hzero : u.cpu.regfile 0 = 0) :
    ∃ v, Reaches (step m) u v ∧ Arrives u target
      (Function.update u.cpu.regfile ra (BitVec.ofNat 32 crt0.exitAt)) v := by
  have hfits := hholds.fits
  have hcall : crt0.callAt + 4 * crt0.callMain.length ≤ romSize :=
    (Nat.le_add_right _ _).trans hfits
  have hstart : Arrives u crt0.callAt u.cpu.regfile u :=
    ⟨rfl, rfl, hpc, hzero, fun _ _ => rfl⟩
  exact crt0.main_called.run (m := m) crt0.target_even hholds.callMain hcall hstart

/-- From reset to the first instruction of `main`. -/
theorem enters_main (m : Bool) (hholds : Holds crt0 s.cpu) (hpc : s.cpu.pc = 0)
    (hzero : s.cpu.regfile 0 = 0) :
    ∃ v, Reaches (step m) s v ∧ Entered crt0 s v := by
  obtain ⟨a, hsa, hentry, hram, hsp, hgp⟩ := symbols_loaded m hholds hpc hzero
  have hromA := reaches_rom hsa
  have hholdsA := hholds.of_rom hromA.symm
  obtain ⟨b, hab, hdone⟩ := copy_data m hholdsA.loops hentry
  have hholdsB := hholdsA.of_rom hdone.rom.symm
  obtain ⟨c, hbc, hreload⟩ := bss_reloaded m hholdsB (by rw [hdone.pc, reloadAt_eq])
    (reaches_zero (hsa.trans hab) hzero) (by rw [hdone.frame gp (by decide), hgp])
  have hholdsC := hholdsB.of_rom hreload.rom.symm
  obtain ⟨d, hcd, hzeroed⟩ := zero_bss m hholdsC.loops hreload
  have hbooted := booted hdone hreload hzeroed
  have hromD := reaches_rom hcd
  have hholdsD := hholdsC.of_rom hromD.symm
  obtain ⟨v, hdv, hv⟩ := main_called m hholdsD (by rw [hbooted.pc, callAt_eq])
    hbooted.zero
  have hsame : byteAt a.cpu = byteAt s.cpu := byteAt_congr hromA hram
  have hmem : byteAt v.cpu = byteAt d.cpu := byteAt_congr hv.rom hv.ram
  refine ⟨v, (((hsa.trans hab).trans hbc).trans hcd).trans hdv, ?_⟩
  exact {
    pc := hv.pc
    rom := reaches_rom ((((hsa.trans hab).trans hbc).trans hcd).trans hdv)
    return_address := by rw [hv.reg ra (by decide), Function.update_self]
    stack := by
      rw [hv.reg sp (by decide), Function.update_of_ne (by decide),
        hbooted.frame sp (by decide), hsp]
    global := by
      rw [hv.reg gp (by decide), Function.update_of_ne (by decide),
        hbooted.frame gp (by decide), hgp]
    data := by
      rw [hmem, ← hsame]
      exact hbooted.data
    bss := by
      rw [hmem]
      exact hbooted.bss
    rest := by
      rw [hmem, ← hsame]
      exact hbooted.rest }

end Boot

/-! ## From the return of `main` to the exit -/

section Exit

variable {m : Bool} {s : Machine 32} {word : Word}

/-- A fetch that finds a word prints nothing. -/
theorem stdout_step (hword : fetchedWord s.cpu = word) (hne : word ≠ 0) :
    (step m s).stdout = s.stdout ++ (effect m (afterFetch s) word).lines := by
  have hregion : Readable s.cpu.pc.toNat 4 := by
    by_contra hnot
    rw [fetchedWord, if_neg hnot] at hword
    exact hne hword.symm
  have hlines : readLines s.cpu.pc Arch.memW = [] := by
    rw [readLines, busRange_memW, if_pos hregion]
  rw [step_of_word hword, Effect.apply, afterFetch, advance, hlines, List.append_nil]

theorem loopStep_of_word (hword : fetchedWord s.cpu = word) (hne : word ≠ 0)
    (hcycles : s.mcycle.toNat < maxCycles) :
    loopStep m (.loop true s) = some (.loop (stepContinues m s) (step m s)) := by
  have hguard : loopGuard true s = true := loopGuard_of_lt hcycles
  rw [loopStep_eq (.inl rfl), loopNext_of_looping hguard, loopBody, hword, if_neg hne]

/-- `ecall` with 10 in `a0`. -/
theorem step_exit (hword : fetchedWord s.cpu = GuestCalls.ecallWord)
    (hexit : s.cpu.regfile a0 = 10) :
    stepContinues m s = false ∧ (step m s).stdout = s.stdout ++ [.exitedGracefully] ∧
      (step m s).cpu.ram = s.cpu.ram := by
  have hclass : opClass 32 (getOpcode GuestCalls.ecallWord) = .sys := by decide
  have hesys : getFunct3 GuestCalls.ecallWord = Arch.esys := by decide
  have hebreak := GuestCalls.ebreak_ecallWord (w := 32) (.inl rfl)
  have hcode : s.cpu.regfile 10 = Arch.eExit 32 := hexit
  refine ⟨?_, ?_, ?_⟩
  · rw [stepContinues_of_word hword]
    simp only [effect, hclass, sysStops, hesys, hebreak, afterFetch_cpu, hcode]
    decide
  · rw [stdout_step hword (by decide)]
    simp only [effect, hclass, sysLines, hesys, hebreak, afterFetch_cpu, hcode]
    rfl
  · rw [step_of_word hword]
    simp only [effect, hclass, Effect.apply, skip]
    rfl

end Exit

/-- `main`, called by `crt0.S` that started in `s`, has returned. -/
structure Returned {l : Layout} {target : ℕ} (crt0 : Crt0 l target) (s u : Machine 32) :
    Prop where
  rom : u.cpu.rom = s.cpu.rom
  pc : u.cpu.pc = BitVec.ofNat 32 crt0.exitAt
  zero : u.cpu.regfile 0 = 0
  cycles : u.mcycle.toNat + 12 < maxCycles

/-- The loop of the emulator has been left, two instructions after `u`. -/
structure Exited (m : Bool) (u v : Machine 32) : Prop where
  loop : runLoop m 2 (.loop true u) = some (.loop false v)
  stdout : v.stdout = u.stdout ++ [.exitedGracefully]
  ram : v.cpu.ram = u.cpu.ram
  report : report (.loop false v) = [.totalCycles v.mcycle.toNat]

/-- From the return of `main` to the exit call, which leaves the emulator's loop. -/
theorem exits_after_main (m : Bool) {l : Layout} {target : ℕ} {crt0 : Crt0 l target}
    {s u : Machine 32} (hholds : Holds crt0 s.cpu) (hreturned : Returned crt0 s u) :
    ∃ v, Exited m u v := by
  have hexit := (hholds.of_rom hreturned.rom.symm).exit
  have hfits := hholds.fits
  have hlimit := hreturned.cycles
  have hstart : Arrives u (crt0.exitAt + 4 * 0) u.cpu.regfile u :=
    ⟨rfl, rfl, hreturned.pc, hreturned.zero, fun _ _ => rfl⟩
  have hfirst := fetchedWord_rom hexit hfits rfl 0 hstart.pc rfl
  have hli : IsAddi 0x00A00513 a0 0 10 :=
    ⟨by decide, by decide, by decide, by decide, by decide⟩
  have hclass : opClass 32 (getOpcode 0x00A00513) = .imm := by decide
  have hcontinues : stepContinues m u = true := (step_addi hfirst hclass hli.funct3).2
  have hnext := hstart.addi (m := m) hfirst hli
  have hquiet : (step m u).stdout = u.stdout := by
    rw [stdout_step hfirst (by decide),
      (ManualEffects.effect_quiet (congrArg ManualEffects.quiet hclass)).1,
      List.append_nil]
  have hcode : (step m u).cpu.regfile a0 = 10 := by
    rw [hnext.reg a0 (by decide), Function.update_self, if_pos rfl]
    rfl
  have hsecond := fetchedWord_rom hexit hfits hnext.rom 1 hnext.pc rfl
  obtain ⟨hstops, hstdout, hram⟩ := step_exit (m := m) hsecond hcode
  have hcost := Counters.toNat_step_mcycle m (by omega : u.mcycle.toNat < maxCycles)
  have hmost := Counters.stepCycles_le m u
  have hcost' := Counters.toNat_step_mcycle m
    (by omega : (step m u).mcycle.toNat < maxCycles)
  have hmost' := Counters.stepCycles_le m (step m u)
  refine ⟨step m (step m u), ?_, ?_, ?_, ?_⟩
  · rw [runLoop, loopStep_of_word hfirst (by decide) (by omega), hcontinues]
    change runLoop m 1 (.loop true (step m u)) = _
    rw [runLoop, loopStep_of_word hsecond (by decide) (by omega), hstops]
    rfl
  · rw [hstdout, hquiet]
  · rw [hram, hnext.ram]
  · rw [report, if_pos (by omega)]

/-! ## The main result -/

/-- For every layout and every way the linker encodes `crt0.S`, with any content of RAM
and the registers: the code at address zero reaches the first instruction of `main` with
`.data` and `.bss` initialised, `sp` at the end of RAM and the return address behind the
call; and whenever `main` has returned there, the emulator's loop is left by the exit,
with the total cycles reported. -/
theorem crt0_runs (m : Bool) {l : Layout} {target : ℕ} (crt0 : Crt0 l target)
    {s : Machine 32} (hcode : HoldsCode s.cpu 0 crt0.words)
    (hfits : 4 * crt0.words.length ≤ romSize) (hpc : s.cpu.pc = 0)
    (hzero : s.cpu.regfile 0 = 0) :
    (∃ n v, runSteps m n s = some v ∧ Entered crt0 s v) ∧
      ∀ u, Returned crt0 s u → ∃ v, Exited m u v := by
  have hholds := holds_of_code crt0 hcode hfits
  constructor
  · obtain ⟨v, ⟨n, hn⟩, hentered⟩ := enters_main m hholds hpc hzero
    exact ⟨n, v, (runSteps_eq (.inl rfl) m n s).trans (congrArg some hn), hentered⟩
  · intro u hreturned
    exact exits_after_main m hholds hreturned

/-! ## A small image -/

/-- Two words of `.data` and two of `.bss`, behind a `main` of one instruction. -/
def imageLayout : Layout :=
  { smallLayout with
    sidata := 96
    sidata_aligned := by decide
    sidata_in_rom := by decide }

/-- Everything but `gp` and `sp` relaxed. -/
def smallCrt0 : Crt0 imageLayout 92 where
  laGp := [0x20010197, 0x7F018193] -- auipc gp, 0x20010; addi gp, gp, 0x7F0
  laSymbols := [0x20010117, 0xFF810113] ++ ([0x06000513] ++ ([0x80018593] ++
    ([0x80818613] ++ [])))
  laBss := [0x80818513] ++ ([0x81018593] ++ [])
  callMain := [0x010000EF] -- jal ra, main
  gp_loads := .pcrel ⟨by decide, by decide, rfl⟩
    ⟨by decide, by decide, by decide, by decide, rfl⟩ (by decide)
  symbols_load := by
    refine .cons (.pcrel (.pcrel ⟨by decide, by decide, rfl⟩
      ⟨by decide, by decide, by decide, by decide, rfl⟩ (by decide))) ?_
    refine .cons (.zero ⟨by decide, by decide, by decide, by decide, by decide⟩) ?_
    refine .cons (.gprel ⟨by decide, by decide, by decide, by decide, rfl⟩ (by decide)) ?_
    exact .cons (.gprel ⟨by decide, by decide, by decide, by decide, rfl⟩ (by decide))
      .nil
  bss_loads := by
    refine .cons (.gprel ⟨by decide, by decide, by decide, by decide, rfl⟩ (by decide)) ?_
    exact .cons (.gprel ⟨by decide, by decide, by decide, by decide, rfl⟩ (by decide))
      .nil
  main_called := .near ⟨by decide, by decide, rfl⟩ (by decide)
  target_even := by decide

/-- `crt0.S`, a `main` that returns, and the two words of `.data`. -/
def returnRom : Fin romSize → Arch.Byte :=
  romOfWords (smallCrt0.words ++ [0x00008067, 0xCAFE0001, 0xCAFE0002])

theorem crt0_runs_small :
    (∃ n v, runSteps true n (initMachine 32 returnRom) = some v ∧
      Entered smallCrt0 (initMachine 32 returnRom) v) ∧
      ∀ u, Returned smallCrt0 (initMachine 32 returnRom) u → ∃ v, Exited true u v := by
  have hcode : HoldsCode (initMachine 32 returnRom).cpu 0
      (smallCrt0.words ++ [0x00008067, 0xCAFE0001, 0xCAFE0002]) :=
    holdsCode_romOfWords rfl (by decide)
  exact crt0_runs true smallCrt0 hcode.append.1 (by decide) rfl rfl

end Rvem.Startup
