import Rvem.Host.GuestCalls
import Rvem.Isa.ManualExtension
import Rvem.Isa.WordForms
import Rvem.Timing.Counters

/-!
# One instruction against the manual, in all four builds

A call of `process_instr` with a word that the build defines does what the manual says
of the instruction: one lemma for each format, assembled along the decoder.  The events
of the two environment calls and of the breakpoint are the lines printed, and a read of
a counter is a read of the counter as the fetch has left it.
-/

namespace Rvem.ManualEffects

open Rvem.Arch
open Rvem.State
open Rvem.Core
open Rvem.Main
open Rvem.Assembly
open Rvem.Fields
open Rvem.FlatMap
open Rvem.StepEffect
open Rvem.Bounds
open Rvem.Run
open Rvem.Code
open Rvem.Decoding
open Rvem.Encodings
open Rvem.Values
open Rvem.WordForms
open Rvem.Library.LittleEndian
open Rvem.Manual
  (wrap address next execute event Event Counts findReg findImm findCounter operand shamt)
open Rvem.Reference (Hart RegOp ImmOp BranchOp)

variable {w : ℕ}

/-! ## Agreement of the two machines -/

/-- The reference machine shows the registers, the pc and the memory map of the
emulator. -/
structure Agrees (h : Hart) (cpu : Cpu w) : Prop where
  pc : h.pc = cpu.pc.toNat
  reg : ∀ r, h.reg r = (cpu.regfile r).toNat
  mem : h.mem = byteAt cpu
  zero : cpu.regfile 0 = 0

/-- The counters of the emulator. -/
def countsOf (s : Machine w) : Counts where
  cycle := s.mcycle.toNat
  instret := s.minstret.toNat

/-- What is printed for an event. -/
def line : Event → Output
  | .char c => .guestChar (BitVec.ofNat 8 c)
  | .exit => .exitedGracefully
  | .breakpoint => .ebreakReached

section Agreement

variable {h : Hart} {cpu : Cpu w}

theorem Agrees.read (hagrees : Agrees h cpu) (r : Fin 32) :
    h.read r = (cpu.regfile r).toNat := by
  rw [Hart.read]
  by_cases hr : r = 0
  · rw [if_pos hr, hr, hagrees.zero]
    exact BitVec.toNat_zero.symm
  · rw [if_neg hr]
    exact hagrees.reg r

theorem wrap_add (x : BitVec w) (imm : ℤ) :
    wrap w (x.toNat + imm) = (x + BitVec.ofInt w imm).toNat := by
  calc
    wrap w (x.toNat + imm) = (BitVec.ofInt w (x.toNat + imm)).toNat := wrap_eq _
    _ = (BitVec.ofInt w x.toNat + BitVec.ofInt w imm).toNat := by rw [BitVec.ofInt_add]
    _ = (x + BitVec.ofInt w imm).toNat := by
      rw [BitVec.ofInt_natCast, BitVec.ofNat_toNat, BitVec.setWidth_eq]

theorem Agrees.address (hagrees : Agrees h cpu) (r : Fin 32) (imm : ℤ) :
    Manual.address w h r imm = (cpu.regfile r + BitVec.ofInt w imm).toNat := by
  rw [Manual.address, hagrees.read, wrap_add]

theorem Agrees.next (hw : w = 32 ∨ w = 64) (hagrees : Agrees h cpu) :
    Manual.next w h = (cpu.pc + 4).toNat := by
  have hfour : (4 : BitVec w).toNat = 4 := by rcases hw with rfl | rfl <;> rfl
  rw [Manual.next, hagrees.pc, BitVec.toNat_add, hfour]

theorem Agrees.offset (hagrees : Agrees h cpu) (imm : ℤ) :
    wrap w (h.pc + imm) = (cpu.pc + BitVec.ofInt w imm).toNat := by
  rw [hagrees.pc, wrap_add]

/-- A jump without a result keeps the agreement; the emulator then zeroes `x0`. -/
theorem Agrees.jump (hagrees : Agrees h cpu) (dest : Fin 32) {target : ℕ}
    {pc : BitVec w} (htarget : target = pc.toNat) :
    Agrees (h.jump target)
      { cpu with regfile := regfileAfter cpu.regfile dest none, pc } where
  pc := htarget
  reg := by
    intro r
    change h.reg r = (regfileAfter cpu.regfile dest none r).toNat
    rw [regfileAfter]
    split
    · next hr =>
        rw [hr]
        exact (hagrees.reg 0).trans (congrArg BitVec.toNat hagrees.zero)
    · rw [Option.getD_none, ite_self]
      exact hagrees.reg r
  mem := hagrees.mem
  zero := rfl

/-- Writing a register and going on at `target` keeps the agreement. The emulator writes
`x0` too and zeroes it afterwards, where the reference machine drops the write. -/
theorem Agrees.write (hagrees : Agrees h cpu) (dest : Fin 32) {value target : ℕ}
    {v pc : BitVec w} (hvalue : value = v.toNat) (htarget : target = pc.toNat) :
    Agrees ((h.write dest value).jump target)
      { cpu with regfile := regfileAfter cpu.regfile dest (some v), pc } := by
  by_cases hdest : dest = 0
  · have hkept : regfileAfter cpu.regfile dest (some v) =
        regfileAfter cpu.regfile dest none := by
      funext r
      by_cases hr : r = 0
      · rw [regfileAfter, regfileAfter, if_pos hr, if_pos hr]
      · have hne : r ≠ dest := hdest ▸ hr
        rw [regfileAfter, regfileAfter, if_neg hne, if_neg hne]
    rw [Hart.write, if_pos hdest, hkept]
    exact hagrees.jump dest htarget
  · rw [Hart.write, if_neg hdest]
    refine ⟨htarget, ?_, hagrees.mem, rfl⟩
    intro r
    change Function.update h.reg dest value r =
      (regfileAfter cpu.regfile dest (some v) r).toNat
    rw [Function.update_apply, regfileAfter]
    by_cases hr : r = 0
    · have hne : r ≠ dest := fun hrd => hdest (hrd.symm.trans hr)
      rw [if_neg hne, if_pos hr, hr, hagrees.reg, hagrees.zero]
    · rw [if_neg hr]
      split
      · exact hvalue
      · exact hagrees.reg r

/-- A store inside RAM writes the same bytes of both memories. -/
theorem Agrees.store (hagrees : Agrees h cpu) (dest : Fin 32) {address target value n : ℕ}
    {pc : BitVec w} (hregion : InRam address n) (htarget : target = pc.toNat) :
    Agrees { h with mem := store h.mem address n value, pc := target }
      { cpu with
        ram := storedRam cpu.ram address n value
        regfile := regfileAfter cpu.regfile dest none
        pc } where
  pc := htarget
  reg := (hagrees.jump dest htarget).reg
  mem := by
    rw [hagrees.mem]
    exact (byteAt_storedRam cpu value hregion).symm
  zero := rfl

/-- At a readable pc the machines fetch the same word. -/
theorem Agrees.fetch (hagrees : Agrees h cpu)
    (hregion : Readable h.pc 4) : h.fetch = (fetchedWord cpu).toNat := by
  rw [Hart.fetch, hagrees.mem, hagrees.pc, fetchedWord,
    if_pos (hagrees.pc ▸ hregion), BitVec.toNat_ofNat]
  exact (Nat.mod_eq_of_lt (load_lt (byteAt_lt cpu) _ 4)).symm

end Agreement

/-! ## W forms -/

theorem toNat_wordValue (op : RegOp) (x y : BitVec 64) :
    (wordValue op x y).toNat = Manual.wordValue 64 op x.toNat y.toNat := by
  have hhalf : (opValue op (x.setWidth 32) (y.setWidth 32)).toNat =
      op.eval (x.toNat % 2 ^ 32) (y.toNat % 2 ^ 32) := by
    rw [toNat_opValue (.inl rfl), ManualExtension.regValue_eq, BitVec.toNat_setWidth,
      BitVec.toNat_setWidth]
  rw [Manual.wordValue, ← hhalf, signExtend_toNat (by norm_num), wrap_eq]
  rfl

/-- A W form reads the low 32 bits of its operand only. -/
theorem wordValue_operand (op : ImmOp) (x word : ℕ) :
    Manual.wordValue 64 op.regOp x (wrap 64 (Manual.operand word op 5)) =
      Manual.wordValue 64 op.regOp x (wrap 64 (Reference.immI word)) := by
  have hamount : wrap 64 (Reference.bits word 24 20 : ℤ) % 2 ^ 32 % 32 =
      wrap 64 (Reference.immI word) % 2 ^ 32 % 32 := by
    rw [wrap_bits _ _ _ (by norm_num)]
    simp only [wrap, Reference.immI, Reference.signExtend, Reference.bits]
    norm_num
    split_ifs <;> omega
  cases op
  case slli =>
    exact congrArg (fun amount => wrap 64 (Reference.signExtend 32
      (x % 2 ^ 32 * 2 ^ amount % 2 ^ 32))) hamount
  case srli =>
    exact congrArg
      (fun amount => wrap 64 (Reference.signExtend 32 (x % 2 ^ 32 / 2 ^ amount))) hamount
  case srai =>
    exact congrArg (fun amount : ℕ => wrap 64 (Reference.signExtend 32
      (Reference.wrap (Reference.signed (x % 2 ^ 32) / 2 ^ amount)))) hamount
  all_goals rfl

/-! ## One instruction of each format -/

/-- A call of `process_instr` with a decoded word does what the instruction does. -/
structure Follows (m : Bool) (h : Hart) (s : Machine w) (raw : Word)
    (instr : Manual.Instr) :
    Prop where
  cpu : Agrees (execute w (countsOf s) h instr) ((effect m s raw).apply s raw).cpu
  lines : (effect m s raw).lines = (event h instr).toList.map line
  execContinue : (effect m s raw).execContinue = !(event h instr).any Event.stops

/-- The cases that print nothing and go on. -/
def quiet : OpClass → Bool
  | .load | .store | .sys | .unrecognized => false
  | _ => true

section Formats

variable {m : Bool} {h : Hart} {s : Machine w} {raw : Word}

/-- A quiet case prints nothing and never ends the run. -/
theorem effect_quiet (hquiet : quiet (opClass w (getOpcode raw)) = true) :
    (effect m s raw).lines = [] ∧ (effect m s raw).execContinue = true := by
  cases hclass : opClass w (getOpcode raw)
  case load | store | sys | unrecognized =>
    rw [hclass] at hquiet
    cases hquiet
  all_goals
    simp only [effect, hclass, skip]
    exact ⟨trivial, trivial⟩

/-- An instruction without an event follows the manual once its cpu does. -/
theorem follows_quiet {instr : Manual.Instr} (hevent : event h instr = none)
    (hquiet : quiet (opClass w (getOpcode raw)) = true)
    (hcpu : Agrees (execute w (countsOf s) h instr) ((effect m s raw).apply s raw).cpu) :
    Follows m h s raw instr where
  cpu := hcpu
  lines := by
    rw [hevent]
    exact (effect_quiet hquiet).1
  execContinue := by
    rw [hevent]
    exact (effect_quiet hquiet).2

section Values

variable (hw : w = 32 ∨ w = 64) (hagrees : Agrees h s.cpu)
include hw hagrees

theorem follows_reg {op : RegOp} (hclass : opClass w (getOpcode raw) = .rtype)
    (hop : op ∈ regOps m) (hfunct7 : op.funct7 = Reference.funct7 raw.toNat)
    (hfunct3 : op.funct3 = Reference.funct3 raw.toNat) :
    Follows m h s raw (.reg op (rd raw) (rs1 raw) (rs2 raw)) := by
  have hvalue : Manual.regValue w op (h.read (rs1 raw)) (h.read (rs2 raw)) =
      (opValue op (s.cpu.regfile (rs1 raw)) (s.cpu.regfile (rs2 raw))).toNat := by
    rw [hagrees.read, hagrees.read, toNat_opValue hw]
  apply follows_quiet rfl (congrArg quiet hclass)
  simp only [effect, hclass, Effect.apply, rtypeValue_eq hop hfunct7 hfunct3]
  exact hagrees.write (rd raw) hvalue (hagrees.next hw)

theorem follows_imm {op : ImmOp} (hclass : opClass w (getOpcode raw) = .imm)
    (hfunct3 : op.funct3 = Reference.funct3 raw.toNat)
    (hcode : ∀ code ∈ op.funct7, code * 2 ^ 5 / 2 ^ shamt w =
      Reference.bits raw.toNat 31 (20 + shamt w)) :
    Follows m h s raw
      (.imm op (rd raw) (rs1 raw) (operand raw.toNat op (shamt w))) := by
  have hshamt : shamt w = 5 ∨ shamt w = 6 := by
    rcases hw with rfl | rfl
    · exact .inl rfl
    · exact .inr rfl
  have hvalue : Manual.regValue w op.regOp (h.read (rs1 raw))
      (wrap w (operand raw.toNat op (shamt w))) =
      (opValue op.regOp (s.cpu.regfile (rs1 raw)) (getSimm12 w raw)).toNat := by
    rw [hagrees.read, toNat_opValue hw, getSimm12_eq, ← wrap_eq]
    exact regValue_operand hw op _ _
  apply follows_quiet rfl (congrArg quiet hclass)
  simp only [effect, hclass, Effect.apply, immValue_eq hshamt hfunct3 hcode]
  exact hagrees.write (rd raw) hvalue (hagrees.next hw)

/-- A load inside the memory map; the two machines extend the same bytes. -/
theorem follows_load {op : Manual.LoadOp} (hclass : opClass w (getOpcode raw) = .load)
    (hop : op ∈ Manual.loadOps w) (hfunct3 : op.funct3 = Reference.funct3 raw.toNat)
    (hregion : Readable (address w h (rs1 raw) (Reference.immI raw.toNat)) op.size) :
    Follows m h s raw (.load op (rd raw) (rs1 raw) (Reference.immI raw.toNat)) := by
  have haddress : address w h (rs1 raw) (Reference.immI raw.toNat) =
      (loadAddr s.cpu raw).toNat := by
    rw [hagrees.address, loadAddr, getSimm12_eq]
  have hsize := loadSize_loadOp hw hop
  have hregion' := haddress ▸ hregion
  have hread := (readValue_permitted s.cpu hsize hregion').1
  have hlines : readLines (loadAddr s.cpu raw) (BitVec.ofNat 8 op.funct3) = [] := by
    rw [readLines, busRange_of_loadSize hsize, if_pos hregion']
  have hvalue : op.extend w (load h.mem (address w h (rs1 raw) (Reference.immI raw.toNat))
      op.size) = (loadValue w (BitVec.ofNat 8 op.funct3) op.size
        (load (byteAt s.cpu) (loadAddr s.cpu raw).toNat op.size)).toNat := by
    rw [toNat_loadValue hw hop (load_lt (byteAt_lt s.cpu) _ _), haddress,
      hagrees.mem]
  refine ⟨?_, ?_, ?_⟩
  · simp only [effect, hclass, Effect.apply, getFunct3_of_eq hfunct3, hread]
    exact hagrees.write (rd raw) hvalue (hagrees.next hw)
  · simp only [effect, hclass, getFunct3_of_eq hfunct3, hlines]
    rfl
  · simp only [effect, hclass, skip]
    rfl

/-- A store inside RAM. -/
theorem follows_store {op : Manual.StoreOp} (hclass : opClass w (getOpcode raw) = .store)
    (hop : op ∈ Manual.storeOps w) (hfunct3 : op.funct3 = Reference.funct3 raw.toNat)
    (hregion : InRam (address w h (rs1 raw) (Reference.immS raw.toNat)) op.size) :
    Follows m h s raw (.store op (rs1 raw) (rs2 raw) (Reference.immS raw.toNat)) := by
  have haddress : address w h (rs1 raw) (Reference.immS raw.toNat) =
      (storeAddr s.cpu raw).toNat := by
    rw [hagrees.address, storeAddr, getStoreImm_eq]
  have hsize := storeSize_storeOp hw hop
  have hregion' := haddress ▸ hregion
  have hwritten := (writtenRam_permitted s.cpu (s.cpu.regfile (rs2 raw)) hsize hregion').1
  have hlines : writeLines (storeAddr s.cpu raw) (BitVec.ofNat 8 op.funct3) = [] := by
    rw [writeLines, busRange_of_loadSize (loadSize_of_storeSize hsize), if_pos hregion']
  refine ⟨?_, ?_, ?_⟩
  · simp only [effect, hclass, Effect.apply, skip, getFunct3_of_eq hfunct3, hwritten,
      ← haddress, ← hagrees.read]
    exact hagrees.store (rd raw) hregion (hagrees.next hw)
  · simp only [effect, hclass, getFunct3_of_eq hfunct3, hlines]
    rfl
  · simp only [effect, hclass, skip]
    rfl

theorem follows_branch {op : BranchOp} (hclass : opClass w (getOpcode raw) = .branch)
    (hfunct3 : op.funct3 = Reference.funct3 raw.toNat) :
    Follows m h s raw (.branch op (rs1 raw) (rs2 raw) (Reference.immB raw.toNat)) := by
  have htaken : Manual.branches w op (h.read (rs1 raw)) (h.read (rs2 raw)) =
      taken s.cpu raw := by
    rw [hagrees.read, hagrees.read, taken, getFunct3_of_eq hfunct3,
      branchTaken_eq hw]
  apply follows_quiet rfl (congrArg quiet hclass)
  simp only [effect, hclass, Effect.apply, skip]
  apply hagrees.jump
  rw [htaken, hagrees.offset, hagrees.next hw, ← getBranchImm_eq]
  split <;> rfl

theorem follows_lui (hclass : opClass w (getOpcode raw) = .lui) :
    Follows m h s raw
      (.lui (rd raw) (Reference.signExtend 32 (Reference.immU raw.toNat))) := by
  apply follows_quiet rfl (congrArg quiet hclass)
  simp only [effect, hclass, Effect.apply, skip, getSimm20_eq]
  exact hagrees.write (rd raw) (wrap_eq _) (hagrees.next hw)

theorem follows_auipc (hclass : opClass w (getOpcode raw) = .auipc) :
    Follows m h s raw
      (.auipc (rd raw) (Reference.signExtend 32 (Reference.immU raw.toNat))) := by
  apply follows_quiet rfl (congrArg quiet hclass)
  simp only [effect, hclass, Effect.apply, skip, getSimm20_eq]
  exact hagrees.write (rd raw) (hagrees.offset _) (hagrees.next hw)

theorem follows_jal (hclass : opClass w (getOpcode raw) = .jal) :
    Follows m h s raw (.jal (rd raw) (Reference.immJ raw.toNat)) := by
  apply follows_quiet rfl (congrArg quiet hclass)
  simp only [effect, hclass, Effect.apply, skip, getJalImm_eq]
  exact hagrees.write (rd raw) (hagrees.next hw) (hagrees.offset _)

omit hagrees in
/-- The mask of `OP_JALR` clears bit 0. -/
theorem toNat_clearBit0 (target : BitVec w) :
    (target &&& ~~~1#w).toNat = target.toNat - target.toNat % 2 := by
  have hdouble : target &&& ~~~1#w = (target >>> 1) <<< 1 := by
    apply BitVec.eq_of_getLsbD_eq
    intro i hi
    rw [BitVec.getLsbD_and, BitVec.getLsbD_not, BitVec.getLsbD_shiftLeft,
      BitVec.getLsbD_ushiftRight, BitVec.getLsbD_one]
    cases i with
    | zero => simp [xlen_pos hw]
    | succ i => simp [hi, Nat.add_comm 1 i]
  have htarget := target.isLt
  rw [hdouble, BitVec.toNat_shiftLeft, BitVec.toNat_ushiftRight,
    Nat.shiftRight_eq_div_pow, Nat.shiftLeft_eq, Nat.mod_eq_of_lt (by omega)]
  omega

theorem follows_jalr (hclass : opClass w (getOpcode raw) = .jalr) :
    Follows m h s raw (.jalr (rd raw) (rs1 raw) (Reference.immI raw.toNat)) := by
  have htarget : address w h (rs1 raw) (Reference.immI raw.toNat)
      - address w h (rs1 raw) (Reference.immI raw.toNat) % 2 =
      ((s.cpu.regfile (rs1 raw) + getSimm12 w raw) &&& ~~~1#w).toNat := by
    rw [hagrees.address, toNat_clearBit0 hw, getSimm12_eq]
  apply follows_quiet rfl (congrArg quiet hclass)
  simp only [effect, hclass, Effect.apply, skip]
  exact hagrees.write (rd raw) (hagrees.next hw) htarget

theorem follows_fence (hclass : opClass w (getOpcode raw) = .fence) :
    Follows m h s raw .fence := by
  apply follows_quiet rfl (congrArg quiet hclass)
  simp only [effect, hclass, Effect.apply, skip]
  exact hagrees.jump (rd raw) (hagrees.next hw)

theorem follows_regw {op : RegOp} (hclass : opClass w (getOpcode raw) = .rtypew)
    (hxlen : w = 64) (hop : op ∈ wordRegOps m)
    (hfunct7 : op.funct7 = Reference.funct7 raw.toNat)
    (hfunct3 : op.funct3 = Reference.funct3 raw.toNat) :
    Follows m h s raw (.regw op (rd raw) (rs1 raw) (rs2 raw)) := by
  subst hxlen
  have hvalue : Manual.wordValue 64 op (h.read (rs1 raw)) (h.read (rs2 raw)) =
      (wordValue op (s.cpu.regfile (rs1 raw)) (s.cpu.regfile (rs2 raw))).toNat := by
    rw [hagrees.read, hagrees.read, toNat_wordValue]
  apply follows_quiet rfl (congrArg quiet hclass)
  simp only [effect, hclass, Effect.apply,
    rtypewValue_eq hop hfunct7 hfunct3]
  exact hagrees.write (rd raw) hvalue (hagrees.next hw)

theorem follows_immw {op : ImmOp} (hclass : opClass w (getOpcode raw) = .immw)
    (hxlen : w = 64) (hop : op ∈ wordImmOps)
    (hfunct3 : op.funct3 = Reference.funct3 raw.toNat)
    (hcode : ∀ code ∈ op.funct7, code * 2 ^ 5 / 2 ^ 5 =
      Reference.bits raw.toNat 31 (20 + 5)) :
    Follows m h s raw (.immw op (rd raw) (rs1 raw) (operand raw.toNat op 5)) := by
  subst hxlen
  have hvalue : Manual.wordValue 64 op.regOp (h.read (rs1 raw))
      (wrap 64 (operand raw.toNat op 5)) =
      (wordValue op.regOp (s.cpu.regfile (rs1 raw)) (getSimm12 64 raw)).toNat := by
    rw [hagrees.read, toNat_wordValue, getSimm12_eq, ← wrap_eq]
    exact wordValue_operand op _ _
  apply follows_quiet rfl (congrArg quiet hclass)
  simp only [effect, hclass, Effect.apply,
    immwValue_eq hop hcode hfunct3]
  exact hagrees.write (rd raw) hvalue (hagrees.next hw)

end Values

/-! ## Environment calls -/

section Calls

variable (hw : w = 32 ∨ w = 64) (hagrees : Agrees h s.cpu)
include hw

/-- A small number in a register. -/
theorem toNat_eq_iff (x : BitVec w) {k : ℕ} (hk : k < 2 ^ 32) :
    x.toNat = k ↔ x = BitVec.ofNat w k := by
  have hfits : k < 2 ^ w := hk.trans_le (two_pow_xlen_ge hw)
  rw [BitVec.toNat_eq, BitVec.toNat_ofNat, Nat.mod_eq_of_lt hfits]

include hagrees

/-- A SYSTEM word without a value goes on with the next word. -/
theorem agrees_sys (hclass : opClass w (getOpcode raw) = .sys)
    (hesys : getFunct3 raw = esys) :
    Agrees (h.jump (next w h)) ((effect m s raw).apply s raw).cpu := by
  have hvalue : sysValue s raw = none := by
    simp only [sysValue, hesys]
    rfl
  simp only [effect, hclass, Effect.apply, skip, hvalue]
  exact hagrees.jump (rd raw) (hagrees.next hw)

/-- The environment call in terms of the emulator's registers. -/
theorem event_ecall : event h .ecall =
    if s.cpu.regfile 10 = eExit w then some .exit
    else if s.cpu.regfile 10 = eChar w then
      some (.char ((s.cpu.regfile 11).toNat % 256))
    else none := by
  have hexit : h.read 10 = 10 ↔ s.cpu.regfile 10 = eExit w := by
    rw [hagrees.read]
    exact toNat_eq_iff hw _ (by norm_num)
  have hchar : h.read 10 = 11 ↔ s.cpu.regfile 10 = eChar w := by
    rw [hagrees.read]
    exact toNat_eq_iff hw _ (by norm_num)
  rw [event]
  simp only [hexit, hchar, hagrees.read 11]

theorem follows_ecall (hraw : raw = GuestCalls.ecallWord) : Follows m h s raw .ecall := by
  subst hraw
  have hclass : opClass w (getOpcode GuestCalls.ecallWord) = .sys :=
    (GuestCalls.opClass_sys_iff _).mpr (by decide)
  have hesys : getFunct3 GuestCalls.ecallWord = esys := by decide
  have hebreak := GuestCalls.ebreak_ecallWord hw
  have hchar : ∀ x : BitVec w, BitVec.ofNat 8 (x.toNat % 256) = x.setWidth 8 := by
    intro x
    apply BitVec.eq_of_toNat_eq
    rw [BitVec.toNat_ofNat, BitVec.toNat_setWidth]
    omega
  refine ⟨agrees_sys hw hagrees hclass hesys, ?_, ?_⟩
  · rw [event_ecall hw hagrees]
    simp only [effect, hclass, sysLines, hesys, hebreak]
    by_cases hexit : s.cpu.regfile 10 = eExit w
    · simp [hexit, line]
    · by_cases hprint : s.cpu.regfile 10 = eChar w
      · simp [hprint, (GuestCalls.eChar_ne_eExit hw), line, hchar]
      · simp [hexit, hprint]
  · rw [event_ecall hw hagrees]
    simp only [effect, hclass, sysStops, hesys, hebreak]
    by_cases hexit : s.cpu.regfile 10 = eExit w
    · simp [hexit, Event.stops]
    · by_cases hprint : s.cpu.regfile 10 = eChar w
      · simp [hprint, (GuestCalls.eChar_ne_eExit hw), Event.stops]
      · simp [hexit, hprint]

theorem follows_ebreak (hraw : raw = GuestCalls.ebreakWord) :
    Follows m h s raw .ebreak := by
  subst hraw
  have hclass : opClass w (getOpcode GuestCalls.ebreakWord) = .sys :=
    (GuestCalls.opClass_sys_iff _).mpr (by decide)
  have hesys : getFunct3 GuestCalls.ebreakWord = esys := by decide
  have hebreak := GuestCalls.ebreak_ebreakWord hw
  refine ⟨agrees_sys hw hagrees hclass hesys, ?_, ?_⟩
  · simp only [effect, hclass, sysLines, hesys, hebreak]
    rfl
  · simp only [effect, hclass, sysStops, hesys, hebreak]
    rfl

end Calls

/-! ## Reads of the counters -/

/-- A found entry is in the table and satisfies the condition searched for. -/
theorem find?_spec {A : Type*} {p : A → Prop} [DecidablePred p] {table : List A}
    {a : A} (hfind : (table.find? fun a => decide (p a)) = some a) : a ∈ table ∧ p a :=
  ⟨List.mem_of_find?_eq_some hfind, of_find?_some hfind⟩

section Counters

variable (hw : w = 32 ∨ w = 64)
include hw

theorem toNat_readCsr {entry : ℕ × Manual.Counter} (hentry : entry ∈ Manual.counters w) :
    (readCsr s (BitVec.ofNat 32 entry.1)).toNat = entry.2.value w (countsOf s) := by
  rcases hw with rfl | rfl
  · simp only [Manual.counters, if_true, List.cons_append, List.nil_append, List.mem_cons,
      List.not_mem_nil, or_false] at hentry
    rcases hentry with rfl | rfl | rfl | rfl | rfl | rfl | rfl | rfl
    all_goals
      simp [readCsr, csrMcycle, csrCycle, csrMinstret, csrInstret, csrMcycleh, csrCycleh,
        csrMinstreth, csrInstreth, Manual.Counter.value, countsOf,
        Nat.shiftRight_eq_div_pow]
  · simp only [Manual.counters, if_neg (by decide : ¬64 = 32), List.append_nil,
      List.mem_cons, List.not_mem_nil, or_false] at hentry
    rcases hentry with rfl | rfl | rfl | rfl
    all_goals
      simp [readCsr, csrMcycle, csrCycle, csrMinstret, csrInstret, Manual.Counter.value,
        countsOf]
      omega

theorem csrRead_eq (hclass : opClass w (getOpcode raw) = .sys) (hrs1 : rs1 raw = 0)
    {number : ℕ} (hnumber : number = Reference.bits raw.toNat 31 20) :
    csrRead s raw = readCsr s (BitVec.ofNat 32 number) := by
  have hraw := raw.isLt
  have hcsr : (getImm12 w raw).setWidth 32 = BitVec.ofNat 32 number := by
    apply BitVec.eq_of_toNat_eq
    rw [Counters.csrNumber_eq hw, BitVec.toNat_ushiftRight, Nat.shiftRight_eq_div_pow,
      BitVec.toNat_ofNat, hnumber, Reference.bits]
    omega
  have hsource : getRs1 raw = 0 := by
    apply BitVec.eq_of_toNat_eq
    rw [toNat_getRs1]
    exact congrArg Fin.val hrs1
  rw [csrRead, sysStalls_of_x0 s hclass hsource, advance_zero, hcsr]

theorem follows_csrr (hagrees : Agrees h s.cpu) {counter : Manual.Counter}
    (hfind : findCounter raw.toNat w = some counter) :
    Follows m h s raw (.csrr (rd raw) counter) := by
  rw [findCounter, Option.ite_none_right_eq_some] at hfind
  obtain ⟨⟨hopcode, hfunct3, hrs1⟩, hfind⟩ := hfind
  obtain ⟨entry, hfound, rfl⟩ := Option.map_eq_some_iff.mp hfind
  obtain ⟨hentry, hnumber⟩ := find?_spec hfound
  have hclass : opClass w (getOpcode raw) = .sys := by
    rw [getOpcode_of_eq hopcode]
    simp [opClass]
  have hop : getFunct3 raw = BitVec.ofNat 8 (Reference.funct3 raw.toNat) :=
    getFunct3_of_eq rfl
  have hesys : getFunct3 raw ≠ esys := by
    rw [hop]
    intro hzero
    simp only [List.mem_cons, List.not_mem_nil, or_false] at hfunct3
    rcases hfunct3 with hcode | hcode | hcode | hcode <;> rw [hcode] at hzero <;>
      exact absurd hzero (by decide)
  have hvalue : sysValue s raw = some (readCsr s (BitVec.ofNat 32 entry.1)) := by
    rw [sysValue, csrRead_eq hw hclass hrs1 hnumber, hop]
    simp only [List.mem_cons, List.not_mem_nil, or_false] at hfunct3
    rcases hfunct3 with hcode | hcode | hcode | hcode <;> rw [hcode] <;> rfl
  refine ⟨?_, ?_, ?_⟩
  · simp only [effect, hclass, Effect.apply, skip, hvalue]
    exact hagrees.write (rd raw) (toNat_readCsr hw hentry).symm (hagrees.next hw)
  · simp only [effect, hclass, sysLines, if_pos hesys]
    rfl
  · simp only [effect, hclass, sysStops, hesys, false_and, decide_false]
    rfl

end Counters

/-! ## Every decoded word -/

end Formats

/-- The call of `process_instr` with a word that the build decodes follows the manual:
the cpu agrees, the events are printed, and the loop goes on unless the instruction ends
the run. -/
theorem follows_of_decode (b : Build) {h : Hart} {s : Machine b.xlen} {raw : Word}
    {instr : Manual.Instr} (hagrees : Agrees h s.cpu)
    (hdecode : Manual.decode raw.toNat b = some instr)
    (hloads : ∀ access ∈ Manual.loads b.xlen h instr, Readable access.1 access.2)
    (hstores : ∀ access ∈ Manual.stores b.xlen h instr, InRam access.1 access.2) :
    Follows b.mExt h s raw instr := by
  have hw := b.xlen_eq
  rw [Manual.decode] at hdecode
  rcases ite_eq_iff.mp hdecode with ⟨hreg, hdecode⟩ | ⟨-, hdecode⟩
  · obtain ⟨op, hfind, rfl⟩ := Option.map_eq_some_iff.mp hdecode
    obtain ⟨hop, hfunct7, hfunct3⟩ := find?_spec hfind
    exact follows_reg hw hagrees (opClass_of_opcode hreg rfl) hop hfunct7 hfunct3
  rcases ite_eq_iff.mp hdecode with ⟨himm, hdecode⟩ | ⟨-, hdecode⟩
  · obtain ⟨op, hfind, rfl⟩ := Option.map_eq_some_iff.mp hdecode
    obtain ⟨-, hfunct3, hcode⟩ := find?_spec hfind
    exact follows_imm hw hagrees (opClass_of_opcode himm rfl) hfunct3 hcode
  rcases ite_eq_iff.mp hdecode with ⟨⟨hxlen, hregw⟩, hdecode⟩ | ⟨-, hdecode⟩
  · obtain ⟨op, hfind, rfl⟩ := Option.map_eq_some_iff.mp hdecode
    obtain ⟨hop, hfunct7, hfunct3⟩ := find?_spec hfind
    exact follows_regw hw hagrees (opClass_of_opcode hregw (by simp [opClass, hxlen]))
      hxlen
      hop hfunct7 hfunct3
  rcases ite_eq_iff.mp hdecode with ⟨⟨hxlen, himmw⟩, hdecode⟩ | ⟨-, hdecode⟩
  · obtain ⟨op, hfind, rfl⟩ := Option.map_eq_some_iff.mp hdecode
    obtain ⟨hop, hfunct3, hcode⟩ := find?_spec hfind
    exact follows_immw hw hagrees (opClass_of_opcode himmw (by simp [opClass, hxlen]))
      hxlen
      hop hfunct3 hcode
  rcases ite_eq_iff.mp hdecode with ⟨hload, hdecode⟩ | ⟨-, hdecode⟩
  · obtain ⟨op, hfind, rfl⟩ := Option.map_eq_some_iff.mp hdecode
    obtain ⟨hop, hfunct3⟩ := find?_spec hfind
    exact follows_load hw hagrees (opClass_of_opcode hload (by simp [opClass])) hop
      hfunct3
      (hloads _ rfl)
  rcases ite_eq_iff.mp hdecode with ⟨hstore, hdecode⟩ | ⟨-, hdecode⟩
  · obtain ⟨op, hfind, rfl⟩ := Option.map_eq_some_iff.mp hdecode
    obtain ⟨hop, hfunct3⟩ := find?_spec hfind
    exact follows_store hw hagrees (opClass_of_opcode hstore (by simp [opClass])) hop
      hfunct3
      (hstores _ rfl)
  rcases ite_eq_iff.mp hdecode with ⟨hbranch, hdecode⟩ | ⟨-, hdecode⟩
  · obtain ⟨op, hfind, rfl⟩ := Option.map_eq_some_iff.mp hdecode
    obtain ⟨-, hfunct3⟩ := find?_spec hfind
    exact follows_branch hw hagrees (opClass_of_opcode hbranch (by simp [opClass]))
      hfunct3
  rcases ite_eq_iff.mp hdecode with ⟨hlui, hdecode⟩ | ⟨-, hdecode⟩
  · obtain rfl := Option.some.inj hdecode
    exact follows_lui hw hagrees (opClass_of_opcode hlui (by simp [opClass]))
  rcases ite_eq_iff.mp hdecode with ⟨hauipc, hdecode⟩ | ⟨-, hdecode⟩
  · obtain rfl := Option.some.inj hdecode
    exact follows_auipc hw hagrees (opClass_of_opcode hauipc (by simp [opClass]))
  rcases ite_eq_iff.mp hdecode with ⟨hjal, hdecode⟩ | ⟨-, hdecode⟩
  · obtain rfl := Option.some.inj hdecode
    exact follows_jal hw hagrees (opClass_of_opcode hjal (by simp [opClass]))
  rcases ite_eq_iff.mp hdecode with ⟨hjalr, hdecode⟩ | ⟨-, hdecode⟩
  · obtain rfl := Option.some.inj hdecode
    exact follows_jalr hw hagrees (opClass_of_opcode hjalr.1 (by simp [opClass]))
  rcases ite_eq_iff.mp hdecode with ⟨hfence, hdecode⟩ | ⟨-, hdecode⟩
  · obtain rfl := Option.some.inj hdecode
    exact follows_fence hw hagrees (opClass_of_opcode hfence.1 (by simp [opClass]))
  rcases ite_eq_iff.mp hdecode with ⟨hecall, hdecode⟩ | ⟨-, hdecode⟩
  · obtain rfl := Option.some.inj hdecode
    exact follows_ecall hw hagrees (BitVec.eq_of_toNat_eq hecall)
  rcases ite_eq_iff.mp hdecode with ⟨hebreak, hdecode⟩ | ⟨-, hdecode⟩
  · obtain rfl := Option.some.inj hdecode
    exact follows_ebreak hw hagrees (BitVec.eq_of_toNat_eq hebreak)
  obtain ⟨counter, hfind, rfl⟩ := Option.map_eq_some_iff.mp hdecode
  exact follows_csrr hw hagrees hfind

end Rvem.ManualEffects
