import Rvem.Isa.Values
import Rvem.Memory.Assembly
import Rvem.Semantics.Fields

/-!
# Fields and immediates of the decoder

The masks and shifts of the decode macros select the bit ranges of the manual's
instruction formats, and the packed immediates shifted back arithmetically are
the manual's sign-extended immediates, in either width.  From a word that the manual
decodes the switches of `process_instr` select the case of its operation.
-/

namespace Rvem.Decoding

open Rvem.Arch
open Rvem.Core
open Rvem.Assembly
open Rvem.Fields
open Rvem.Values
open Rvem.Encodings (regOps)
open Rvem.Manual (wrap signed regValue)
open Rvem.Reference (signExtend bits RegOp ImmOp LoadOp StoreOp BranchOp)

variable {w : ℕ}

/-! ## Register fields and function codes -/

theorem opcode_eq (raw : Word) : Reference.opcode raw.toNat = (getOpcode raw).toNat := by
  rw [toNat_getOpcode, Reference.opcode, bits, pow_zero, Nat.div_one]
  norm_num

theorem funct3_eq (raw : Word) : Reference.funct3 raw.toNat = (getFunct3 raw).toNat :=
  (toNat_getFunct3 raw).symm

/-- A function code as the emulator compares it. -/
theorem getFunct3_of_eq {raw : Word} {code : ℕ}
    (hcode : code = Reference.funct3 raw.toNat) :
    getFunct3 raw = BitVec.ofNat 8 code := by
  rw [hcode, funct3_eq, BitVec.ofNat_toNat, BitVec.setWidth_eq]

theorem getOpcode_of_eq {raw : Word} {code : ℕ}
    (hcode : Reference.opcode raw.toNat = code) :
    getOpcode raw = BitVec.ofNat 8 code :=
  eq_ofNat_of_toNat_eq ((opcode_eq raw).symm.trans hcode)

/-- A word whose opcode field is `code` falls into the case of `code`. -/
theorem opClass_of_opcode {raw : Word} {code : ℕ} {cls : OpClass}
    (hopcode : Reference.opcode raw.toNat = code)
    (hcls : opClass w (BitVec.ofNat 8 code) = cls) :
    opClass w (getOpcode raw) = cls := by
  rw [getOpcode_of_eq hopcode, hcls]

/-! ## Masked words -/

/-- The bits a mask keeps, in place. -/
theorem toNat_mask (instr mask : Word) (k len : ℕ)
    (hmask : mask.toNat = (2 ^ len - 1) <<< k) :
    (instr &&& mask).toNat = instr.toNat / 2 ^ k % 2 ^ len * 2 ^ k := by
  rw [BitVec.toNat_and, hmask, ← Nat.shiftRight_eq_div_pow,
    ← Nat.and_two_pow_sub_one_eq_mod, ← Nat.shiftLeft_eq, Nat.shiftLeft_and_distrib]
  apply Nat.eq_of_testBit_eq
  intro i
  rw [Nat.testBit_and, Nat.testBit_and, Nat.testBit_shiftLeft, Nat.testBit_shiftLeft,
    Nat.testBit_shiftRight]
  by_cases hi : k ≤ i
  · simp [hi]
  · simp [hi]

theorem toNat_mask_shiftLeft (instr mask : Word) (k len up : ℕ)
    (hmask : mask.toNat = (2 ^ len - 1) <<< k) (hfits : k + len + up ≤ 32) :
    ((instr &&& mask) <<< up).toNat = instr.toNat / 2 ^ k % 2 ^ len * 2 ^ (k + up) := by
  have hfield : instr.toNat / 2 ^ k % 2 ^ len < 2 ^ len := Nat.mod_lt _ (by positivity)
  rw [BitVec.toNat_shiftLeft, toNat_mask instr mask k len hmask, Nat.shiftLeft_eq,
    mul_assoc, ← pow_add]
  apply Nat.mod_eq_of_lt
  calc
    instr.toNat / 2 ^ k % 2 ^ len * 2 ^ (k + up) < 2 ^ len * 2 ^ (k + up) := by gcongr
    _ = 2 ^ (k + len + up) := by rw [← pow_add]; congr 1; omega
    _ ≤ 2 ^ 32 := Nat.pow_le_pow_right (by norm_num) hfits

theorem toNat_mask_shiftRight (instr mask : Word) (k len down : ℕ)
    (hmask : mask.toNat = (2 ^ len - 1) <<< k) (hdown : down ≤ k) :
    ((instr &&& mask) >>> down).toNat =
      instr.toNat / 2 ^ k % 2 ^ len * 2 ^ (k - down) := by
  obtain ⟨rest, rfl⟩ := Nat.exists_eq_add_of_le hdown
  calc
    ((instr &&& mask) >>> down).toNat =
        instr.toNat / 2 ^ (down + rest) % 2 ^ len * 2 ^ (down + rest) / 2 ^ down := by
      rw [BitVec.toNat_ushiftRight, toNat_mask instr mask _ len hmask,
        Nat.shiftRight_eq_div_pow]
    _ = instr.toNat / 2 ^ (down + rest) % 2 ^ len * 2 ^ rest * 2 ^ down / 2 ^ down := by
      rw [mul_assoc, ← pow_add, add_comm rest down]
    _ = instr.toNat / 2 ^ (down + rest) % 2 ^ len * 2 ^ rest :=
      Nat.mul_div_cancel _ (by positivity)
    _ = instr.toNat / 2 ^ (down + rest) % 2 ^ len * 2 ^ (down + rest - down) := by
      rw [Nat.add_sub_cancel_left]

/-- Merging bits below `2 ^ k` into a number whose bits lie above. -/
theorem toNat_or_of_dvd {x y : Word} (k : ℕ) (hx : 2 ^ k ∣ x.toNat)
    (hy : y.toNat < 2 ^ k) : (x ||| y).toNat = x.toNat + y.toNat := by
  rw [BitVec.toNat_or, lor_eq_add_of_dvd hx hy]

/-! ## Immediates -/

/-- An `m`-bit number packed into the upper bits of a word and shifted back. -/
theorem sraw_packed {packed : Word} {v m k : ℕ} (hm : 0 < m) (hk : 0 < k)
    (hmk : m + k = 32) (hpacked : packed.toNat = v * 2 ^ k) :
    (sraw packed k).signExtend w = BitVec.ofInt w (signExtend m v) := by
  have hsra : sraw packed k = sra packed k := rfl
  have hsign : packed.toInt = signExtend m v * 2 ^ k := by
    have hhalf : (2 : ℕ) ^ (32 - 1) = 2 ^ (m - 1) * 2 ^ k := by
      rw [← pow_add]
      congr 1
      omega
    have hfull : (2 : ℤ) ^ 32 = 2 ^ m * 2 ^ k := by
      rw [← pow_add, hmk]
    rw [← signExtend_toNat (by norm_num), hpacked, signExtend, signExtend, hhalf, hfull]
    by_cases hsmall : v < 2 ^ (m - 1)
    · rw [if_pos hsmall, if_pos (Nat.mul_lt_mul_of_pos_right hsmall (by positivity))]
      push_cast
      ring
    · have hlarge : ¬v * 2 ^ k < 2 ^ (m - 1) * 2 ^ k :=
        not_lt.mpr (Nat.mul_le_mul_right _ (not_lt.mp hsmall))
      rw [if_neg hsmall, if_neg hlarge]
      push_cast
      ring
  have hquotient : (sra packed k).toInt = signExtend m v := by
    rw [(roundsDown_sra (.inl rfl)).toInt_eq packed (by omega), hsign,
      Int.mul_ediv_cancel _ (by positivity)]
  rw [hsra, ← hquotient]
  rfl

/-- `GET_SIMM12` is the immediate of the I format, sign extended to the
register width. -/
theorem getSimm12_eq (raw : Word) :
    getSimm12 w raw = BitVec.ofInt w (Reference.immI raw.toNat) := by
  apply sraw_packed (by norm_num) (by norm_num) (by norm_num)
  exact toNat_mask raw _ 20 12 rfl

/-- `GET_STORE_IMM` is the immediate of the S format. -/
theorem getStoreImm_eq (raw : Word) :
    getStoreImm w raw = BitVec.ofInt w (Reference.immS raw.toNat) := by
  have hhigh := toNat_mask raw 0xFE000000#32 25 7 rfl
  have hlow := toNat_mask_shiftLeft raw 0xF80#32 7 5 13 rfl (by norm_num)
  apply sraw_packed (by norm_num) (by norm_num) (by norm_num)
  rw [toNat_or_of_dvd 25 (by omega) (by omega), hhigh, hlow]
  simp only [bits]
  ring

/-- `GET_BRANCH_IMM` puts the four pieces of the B format in the order of the manual. -/
theorem getBranchImm_eq (raw : Word) :
    getBranchImm w raw = BitVec.ofInt w (Reference.immB raw.toNat) := by
  have h12 := toNat_mask raw 0x80000000#32 31 1 rfl
  have h11 := toNat_mask_shiftLeft raw 0x80#32 7 1 23 rfl (by norm_num)
  have h5 := toNat_mask_shiftRight raw 0x7E000000#32 25 6 1 rfl (by norm_num)
  have h1 := toNat_mask_shiftLeft raw 0xF00#32 8 4 12 rfl (by norm_num)
  have e11 := toNat_or_of_dvd 31 (x := raw &&& 0x80000000#32)
    (y := (raw &&& 0x80#32) <<< 23) (by omega) (by omega)
  have e5 := toNat_or_of_dvd 30 (x := raw &&& 0x80000000#32 ||| (raw &&& 0x80#32) <<< 23)
    (y := (raw &&& 0x7E000000#32) >>> 1) (by omega) (by omega)
  apply sraw_packed (by norm_num) (by norm_num) (by norm_num)
  rw [toNat_or_of_dvd 24 (by omega) (by omega), e5, e11, h12, h11, h5, h1]
  simp only [bits]
  ring

/-- `GET_JAL_IMM` puts the four pieces of the J format in the order of the manual. -/
theorem getJalImm_eq (raw : Word) :
    getJalImm w raw = BitVec.ofInt w (Reference.immJ raw.toNat) := by
  have h20 := toNat_mask raw 0x80000000#32 31 1 rfl
  have h12 := toNat_mask_shiftLeft raw 0xFF000#32 12 8 11 rfl (by norm_num)
  have h11 := toNat_mask_shiftLeft raw 0x100000#32 20 1 2 rfl (by norm_num)
  have h1 := toNat_mask_shiftRight raw 0x7FE00000#32 21 10 9 rfl (by norm_num)
  have e12 := toNat_or_of_dvd 31 (x := raw &&& 0x80000000#32)
    (y := (raw &&& 0xFF000#32) <<< 11) (by omega) (by omega)
  have e11 := toNat_or_of_dvd 23
    (x := raw &&& 0x80000000#32 ||| (raw &&& 0xFF000#32) <<< 11)
    (y := (raw &&& 0x100000#32) <<< 2) (by omega) (by omega)
  apply sraw_packed (by norm_num) (by norm_num) (by norm_num)
  rw [toNat_or_of_dvd 22 (by omega) (by omega), e11, e12, h20, h12, h11, h1]
  simp only [bits]
  ring

/-- `GET_SIMM20` is the immediate of the U format, sign extended in the 64-bit builds. -/
theorem getSimm20_eq (raw : Word) :
    getSimm20 w raw = BitVec.ofInt w (signExtend 32 (Reference.immU raw.toNat)) := by
  have hword : (raw &&& 0xFFFFF000#32).toNat = Reference.immU raw.toNat :=
    toNat_mask raw _ 12 20 rfl
  rw [← hword, signExtend_toNat (by norm_num)]
  rfl

/-! ## The switches on function codes -/

theorem checkFunct7Bit0_eq (raw : Word) :
    checkFunct7Bit0 raw = decide (Reference.funct7 raw.toNat % 2 = 1) := by
  have hbit := toNat_mask raw 0x2000000#32 25 1 rfl
  rw [checkFunct7Bit0, bne, Bool.beq_eq_decide_eq, ← decide_not]
  apply decide_eq_decide.mpr
  rw [BitVec.toNat_eq, hbit]
  simp only [Reference.funct7, bits, BitVec.ofNat_eq_ofNat, BitVec.toNat_ofNat]
  omega

theorem checkFunct7Bit5_eq (raw : Word) :
    checkFunct7Bit5 raw = decide (Reference.funct7 raw.toNat / 32 % 2 = 1) := by
  have hbit := toNat_mask raw 0x40000000#32 30 1 rfl
  rw [checkFunct7Bit5, bne, Bool.beq_eq_decide_eq, ← decide_not]
  apply decide_eq_decide.mpr
  rw [BitVec.toNat_eq, hbit]
  simp only [Reference.funct7, bits, BitVec.ofNat_eq_ofNat, BitVec.toNat_ofNat]
  omega

/-- The combined code of the inner switch of `OP_RTYPE`. -/
theorem aluop_eq (raw : Word) :
    aluFunct7Bit5 raw ||| getFunct3 raw = BitVec.ofNat 8
      (Reference.funct7 raw.toNat / 32 % 2 * 8 + Reference.funct3 raw.toNat) := by
  have hbit := toNat_mask_shiftRight raw 0x40000000#32 30 1 27 rfl (by norm_num)
  have hsmall : Reference.funct3 raw.toNat < 8 := Nat.mod_lt _ (by norm_num)
  have hfunct7 : (aluFunct7Bit5 raw).toNat = Reference.funct7 raw.toNat / 32 % 2 * 8 := by
    rw [aluFunct7Bit5, BitVec.toNat_setWidth, hbit]
    simp only [Reference.funct7, bits]
    omega
  apply eq_ofNat_of_toNat_eq
  rw [BitVec.toNat_or, hfunct7, ← funct3_eq]
  exact lor_eq_add_of_dvd (k := 3) (Dvd.intro_left _ rfl) hsmall

/-- A word with the codes of an operation selects its case in `OP_RTYPE`. -/
theorem rtypeValue_eq {m : Bool} {raw : Word} {op : RegOp} (hop : op ∈ regOps m)
    (hfunct7 : op.funct7 = Reference.funct7 raw.toNat)
    (hfunct3 : op.funct3 = Reference.funct3 raw.toNat) (x y : BitVec w) :
    rtypeValue m raw x y = some (opValue op x y) := by
  have hcode := getFunct3_of_eq hfunct3
  have haluop := aluop_eq raw
  rw [← hfunct7, ← hfunct3] at haluop
  rw [rtypeValue, checkFunct7Bit0_eq, ← hfunct7, hcode, ← hcode, haluop, hcode]
  cases m <;> cases op <;> first | rfl | exact absurd hop (by decide)

/-- The bit that tells the two right shifts apart. -/
theorem funct7_bit5 {op : ImmOp} {word shamt : ℕ} (hshamt : shamt = 5 ∨ shamt = 6)
    (hcode : ∀ code ∈ op.funct7, code * 2 ^ 5 / 2 ^ shamt = bits word 31 (20 + shamt))
    {code : ℕ} (hmem : code ∈ op.funct7) :
    Reference.funct7 word / 32 % 2 = code / 32 % 2 := by
  have hbits := hcode code hmem
  rcases hshamt with rfl | rfl
  · simp only [bits, Reference.funct7] at hbits ⊢
    omega
  · simp only [bits, Reference.funct7] at hbits ⊢
    omega

/-- A word with the codes of an operation selects its case in `OP_IMM`. -/
theorem immValue_eq {raw : Word} {op : ImmOp} {shamt : ℕ} (hshamt : shamt = 5 ∨ shamt = 6)
    (hfunct3 : op.funct3 = Reference.funct3 raw.toNat)
    (hcode : ∀ code ∈ op.funct7,
      code * 2 ^ 5 / 2 ^ shamt = bits raw.toNat 31 (20 + shamt)) (x imm : BitVec w) :
    immValue raw x imm = some (opValue op.regOp x imm) := by
  have hfunct3' := getFunct3_of_eq hfunct3
  rw [immValue, hfunct3', checkFunct7Bit5_eq]
  cases op
  case srli =>
    rw [funct7_bit5 hshamt hcode rfl]
    rfl
  case srai =>
    rw [funct7_bit5 hshamt hcode rfl]
    rfl
  all_goals rfl

/-! ## Shift amounts -/

/-- The low bits of the immediate are the shift amount. -/
theorem immI_mod (hw : w = 32 ∨ w = 64) (word : ℕ) :
    wrap w (Reference.immI word) % w = bits word (19 + Manual.shamt w) 20 := by
  rcases hw with rfl | rfl
  · simp only [wrap, Reference.immI, signExtend, bits, Manual.shamt]
    norm_num
    split_ifs <;> omega
  · simp only [wrap, Reference.immI, signExtend, bits, Manual.shamt]
    norm_num
    split_ifs <;> omega

/-- Bits are their own pattern. -/
theorem wrap_bits (word high low : ℕ) (hfits : high + 1 - low ≤ w) :
    wrap w (bits word high low : ℤ) = bits word high low :=
  wrap_natCast ((Nat.mod_lt _ (by positivity)).trans_le
    (Nat.pow_le_pow_right (by norm_num) hfits))

/-- A shift reads the low bits of its operand only. -/
theorem regValue_operand (hw : w = 32 ∨ w = 64) (op : ImmOp) (x word : ℕ) :
    regValue w op.regOp x (wrap w (Manual.operand word op (Manual.shamt w))) =
      regValue w op.regOp x (wrap w (Reference.immI word)) := by
  have hfield : bits word (19 + Manual.shamt w) 20 < w := by
    rw [← immI_mod hw]
    exact Nat.mod_lt _ (xlen_pos hw)
  have hamount : wrap w (bits word (19 + Manual.shamt w) 20 : ℤ) % w =
      wrap w (Reference.immI word) % w := by
    rw [wrap_bits _ _ _ (by rcases hw with rfl | rfl <;> decide), immI_mod hw,
      Nat.mod_eq_of_lt hfield]
  cases op
  case slli => exact congrArg (fun amount => x * 2 ^ amount % 2 ^ w) hamount
  case srli => exact congrArg (fun amount => x / 2 ^ amount) hamount
  case srai => exact congrArg (fun amount : ℕ => wrap w (signed w x / 2 ^ amount)) hamount
  all_goals rfl

/-! ## The words of RV32IM -/

/-- An entry found in a table satisfies the condition searched for. -/
theorem of_find?_some {A : Type*} {p : A → Prop} [DecidablePred p] {table : List A}
    {a : A} (hfind : (table.find? fun a => decide (p a)) = some a) : p a :=
  of_decide_eq_true (List.find?_some (p := fun a => decide (p a)) hfind)

/-- What a decoded word says of the fields that the emulator reads. -/
inductive Decodes (raw : Word) : Reference.Instr → Prop
  | reg {op : RegOp} (hclass : opClass 32 (getOpcode raw) = .rtype)
      (hfunct7 : op.funct7 = Reference.funct7 raw.toNat)
      (hfunct3 : op.funct3 = Reference.funct3 raw.toNat) :
      Decodes raw (.reg op (rd raw) (rs1 raw) (rs2 raw))
  | imm {op : ImmOp} (hclass : opClass 32 (getOpcode raw) = .imm)
      (hfunct7 : ∀ code ∈ op.funct7, code = Reference.funct7 raw.toNat)
      (hfunct3 : op.funct3 = Reference.funct3 raw.toNat) :
      Decodes raw (.imm op (rd raw) (rs1 raw)
        (if op.funct7.isSome then bits raw.toNat 24 20 else Reference.immI raw.toNat))
  | load {op : LoadOp} (hclass : opClass 32 (getOpcode raw) = .load)
      (hfunct3 : op.funct3 = Reference.funct3 raw.toNat) :
      Decodes raw (.load op (rd raw) (rs1 raw) (Reference.immI raw.toNat))
  | store {op : StoreOp} (hclass : opClass 32 (getOpcode raw) = .store)
      (hfunct3 : op.funct3 = Reference.funct3 raw.toNat) :
      Decodes raw (.store op (rs1 raw) (rs2 raw) (Reference.immS raw.toNat))
  | branch {op : BranchOp} (hclass : opClass 32 (getOpcode raw) = .branch)
      (hfunct3 : op.funct3 = Reference.funct3 raw.toNat) :
      Decodes raw (.branch op (rs1 raw) (rs2 raw) (Reference.immB raw.toNat))
  | lui (hclass : opClass 32 (getOpcode raw) = .lui) :
      Decodes raw (.lui (rd raw) (Reference.immU raw.toNat))
  | auipc (hclass : opClass 32 (getOpcode raw) = .auipc) :
      Decodes raw (.auipc (rd raw) (Reference.immU raw.toNat))
  | jal (hclass : opClass 32 (getOpcode raw) = .jal) :
      Decodes raw (.jal (rd raw) (Reference.immJ raw.toNat))
  | jalr (hclass : opClass 32 (getOpcode raw) = .jalr) :
      Decodes raw (.jalr (rd raw) (rs1 raw) (Reference.immI raw.toNat))
  | fence (hclass : opClass 32 (getOpcode raw) = .fence) : Decodes raw .fence

/-- The tables of the reference machine and the switches of the emulator read the same
fields, so a decoded word falls into the case of its format. -/
theorem decodes_of_decode {raw : Word} {instr : Reference.Instr}
    (hdecode : Reference.decode raw.toNat = some instr) : Decodes raw instr := by
  rw [Reference.decode] at hdecode
  rcases ite_eq_iff.mp hdecode with ⟨hreg, hdecode⟩ | ⟨-, hdecode⟩
  · obtain ⟨op, hfind, rfl⟩ := Option.map_eq_some_iff.mp hdecode
    obtain ⟨hfunct7, hfunct3⟩ := of_find?_some hfind
    exact .reg (opClass_of_opcode hreg rfl) hfunct7 hfunct3
  rcases ite_eq_iff.mp hdecode with ⟨himm, hdecode⟩ | ⟨-, hdecode⟩
  · obtain ⟨op, hfind, rfl⟩ := Option.map_eq_some_iff.mp hdecode
    obtain ⟨hfunct3, hfunct7⟩ := of_find?_some hfind
    exact .imm (opClass_of_opcode himm rfl) hfunct7 hfunct3
  rcases ite_eq_iff.mp hdecode with ⟨hload, hdecode⟩ | ⟨-, hdecode⟩
  · obtain ⟨op, hfind, rfl⟩ := Option.map_eq_some_iff.mp hdecode
    have hfunct3 := of_find?_some hfind
    exact .load (opClass_of_opcode hload rfl) hfunct3
  rcases ite_eq_iff.mp hdecode with ⟨hstore, hdecode⟩ | ⟨-, hdecode⟩
  · obtain ⟨op, hfind, rfl⟩ := Option.map_eq_some_iff.mp hdecode
    have hfunct3 := of_find?_some hfind
    exact .store (opClass_of_opcode hstore rfl) hfunct3
  rcases ite_eq_iff.mp hdecode with ⟨hbranch, hdecode⟩ | ⟨-, hdecode⟩
  · obtain ⟨op, hfind, rfl⟩ := Option.map_eq_some_iff.mp hdecode
    have hfunct3 := of_find?_some hfind
    exact .branch (opClass_of_opcode hbranch rfl) hfunct3
  rcases ite_eq_iff.mp hdecode with ⟨hlui, hdecode⟩ | ⟨-, hdecode⟩
  · obtain rfl := Option.some.inj hdecode
    exact .lui (opClass_of_opcode hlui rfl)
  rcases ite_eq_iff.mp hdecode with ⟨hauipc, hdecode⟩ | ⟨-, hdecode⟩
  · obtain rfl := Option.some.inj hdecode
    exact .auipc (opClass_of_opcode hauipc rfl)
  rcases ite_eq_iff.mp hdecode with ⟨hjal, hdecode⟩ | ⟨-, hdecode⟩
  · obtain rfl := Option.some.inj hdecode
    exact .jal (opClass_of_opcode hjal rfl)
  rcases ite_eq_iff.mp hdecode with ⟨hjalr, hdecode⟩ | ⟨-, hdecode⟩
  · obtain rfl := Option.some.inj hdecode
    exact .jalr (opClass_of_opcode hjalr.1 rfl)
  rcases ite_eq_iff.mp hdecode with ⟨hfence, hdecode⟩ | ⟨-, hdecode⟩
  · obtain rfl := Option.some.inj hdecode
    exact .fence (opClass_of_opcode hfence.1 rfl)
  cases hdecode

end Rvem.Decoding
