import Rvem.Isa.Decoding
import Rvem.Model.Main
import Rvem.Semantics.StepEffect

/-!
# Words a build does not define

The decoder tests single bits of the function codes, so a reserved word is ignored only
when those bits select no case of the inner switches, or when the operation they select
cannot change its destination.  Some of them are executed as another operation instead.
-/

namespace Rvem.Reserved

open Rvem.Arch
open Rvem.State
open Rvem.Core
open Rvem.Main
open Rvem.Assembly
open Rvem.Fields
open Rvem.StepEffect
open Rvem.Values
open Rvem.Decoding
open Rvem.Encodings
open Rvem.Reference (ImmOp)

variable {w : ℕ}

/-! ## What ignoring a word means -/

/-- The call leaves `x1` to `x31`, RAM and ROM alone and goes on with the next word. -/
def Ignores (m : Bool) (s : Machine w) (raw : Word) : Prop :=
  ∃ s', processInstr m s raw = some (s', true) ∧
    (∀ r, r ≠ 0 → s'.cpu.regfile r = s.cpu.regfile r) ∧
    s'.cpu.ram = s.cpu.ram ∧ s'.cpu.rom = s.cpu.rom ∧ s'.cpu.pc = s.cpu.pc + 4

/-- A value for `rd` that the register has already, or that is dropped. -/
def KeepsRegister (s : Machine w) (raw : Word) (value : Option (BitVec w)) : Prop :=
  rd raw = 0 ∨ ∀ v ∈ value, v = s.cpu.regfile (rd raw)

theorem keepsRegister_none (s : Machine w) (raw : Word) : KeepsRegister s raw none := by
  right
  intro v hv
  cases hv

theorem regfileAfter_eq_iff (s : Machine w) (raw : Word) (value : Option (BitVec w)) :
    (∀ r, r ≠ 0 → regfileAfter s.cpu.regfile (rd raw) value r = s.cpu.regfile r) ↔
      KeepsRegister s raw value := by
  constructor
  · intro hkept
    by_cases hrd : rd raw = 0
    · exact .inl hrd
    · right
      intro v hv
      have hdest := hkept (rd raw) hrd
      rwa [regfileAfter, if_neg hrd, if_pos rfl, Option.mem_def.mp hv,
        Option.getD_some] at hdest
  · intro hkept r hr
    rw [regfileAfter, if_neg hr]
    split
    · next hdest =>
      subst hdest
      cases value with
      | none => rfl
      | some v => exact (hkept.resolve_left hr) v rfl
    · rfl

/-- A call ignores its word if it asks to continue, changes neither its register nor RAM,
and goes on with the next word. -/
theorem ignores_iff (hw : w = 32 ∨ w = 64) (m : Bool) (s : Machine w) (raw : Word) :
    Ignores m s raw ↔
      (effect m s raw).execContinue = true ∧ KeepsRegister s raw (effect m s raw).value ∧
      (effect m s raw).ram = s.cpu.ram ∧ (effect m s raw).nextPc = s.cpu.pc + 4 := by
  rw [Ignores, processInstr_eq hw, ← regfileAfter_eq_iff]
  constructor
  · rintro ⟨s', hcall, hregs, hram, -, hpc⟩
    obtain ⟨rfl, hcontinue⟩ := Prod.mk.inj (Option.some.inj hcall)
    exact ⟨hcontinue, hregs, hram, hpc⟩
  · rintro ⟨hcontinue, hregs, hram, hpc⟩
    exact ⟨(effect m s raw).apply s raw, by rw [hcontinue], hregs, hram, rfl, hpc⟩

/-- A word that writes nothing and goes on behind itself is ignored. -/
theorem ignores_of_inert (hw : w = 32 ∨ w = 64) {m : Bool} {s : Machine w} {raw : Word}
    (hcontinue : (effect m s raw).execContinue = true)
    (hvalue : (effect m s raw).value = none)
    (hram : (effect m s raw).ram = s.cpu.ram)
    (hpc : (effect m s raw).nextPc = s.cpu.pc + 4) :
    Ignores m s raw := by
  rw [ignores_iff hw, hvalue]
  exact ⟨hcontinue, keepsRegister_none s raw, hram, hpc⟩

/-! ## The inner switches -/

/-- The combined code of the inner switches on register operands. -/
def aluop (raw : Word) : Byte := aluFunct7Bit5 raw ||| getFunct3 raw

/-- The decoder takes the word for an M instruction. -/
def TakesMul (m : Bool) (raw : Word) : Prop := (m && checkFunct7Bit0 raw) = true

instance (m : Bool) (raw : Word) : Decidable (TakesMul m raw) :=
  inferInstanceAs (Decidable (_ = true))

/-- The cases of the inner switch of `OP_RTYPE`. -/
def aluCodes : List Byte :=
  [aluAdd, aluSub, aluSll, aluSrl, aluSra, aluSlt, aluSltu, aluAnd, aluOr, aluXor]

/-- The cases of the inner switches of `OP_RTYPEW`. -/
def aluwCodes : List Byte := [aluAdd, aluSub, aluSll, aluSrl, aluSra]

/-- The function codes with a case in the inner switch of `OP_RTYPEW` for the M
extension. -/
def mulwCodes : List Byte := [mMul, mDiv, mDivu, mRem, mRemu]

/-- A case of `OP_RTYPE` is selected. -/
def SelectsRegister (m : Bool) (raw : Word) : Prop :=
  TakesMul m raw ∨ aluop raw ∈ aluCodes

/-- A case of `OP_RTYPEW` is selected. -/
def SelectsRegisterW (m : Bool) (raw : Word) : Prop :=
  if TakesMul m raw then getFunct3 raw ∈ mulwCodes else aluop raw ∈ aluwCodes

/-- The word is taken for an AND or an OR of a register with itself. -/
def KeepsOperand (m : Bool) (raw : Word) : Prop :=
  ¬TakesMul m raw ∧ aluop raw ∈ [aluAnd, aluOr] ∧ rs1 raw = rd raw ∧ rs2 raw = rd raw

/-- The word is taken for a shift of a register by zero. -/
def ShiftsByZero (w : ℕ) (raw : Word) : Prop :=
  rs1 raw = rd raw ∧ getSimm12 w raw &&& shiftMax w = 0

/-- The words the decoder does not execute as something else. -/
def Harmless (w : ℕ) (m : Bool) (raw : Word) : Prop :=
  match opClass w (getOpcode raw) with
  | .rtype => rd raw = 0 ∨ ¬SelectsRegister m raw ∨ KeepsOperand m raw
  | .imm => rd raw = 0 ∨ ShiftsByZero w raw
  | .rtypew => rd raw = 0 ∨ ¬SelectsRegisterW m raw
  | .immw => rd raw = 0 ∨ getFunct3 raw ∉ [aluSll, aluSrl]
  | .jalr => False
  | _ => True

/-! ## Values that no register notices -/

/-- The value leaves `rd` alone whatever the registers hold. -/
def Keeps (value : BitVec w → BitVec w → Option (BitVec w)) (raw : Word) : Prop :=
  ∀ regfile : Fin 32 → BitVec w,
    ∀ v ∈ value (regfile (rs1 raw)) (regfile (rs2 raw)), v = regfile (rd raw)

/-- For all register files, a computed value changes nothing only if it is dropped or
always the value that the register has. -/
theorem keepsRegister_iff (value : BitVec w → BitVec w → Option (BitVec w)) (raw : Word) :
    (∀ s : Machine w,
      KeepsRegister s raw (value (s.cpu.regfile (rs1 raw)) (s.cpu.regfile (rs2 raw)))) ↔
      rd raw = 0 ∨ Keeps value raw := by
  constructor
  · intro hkept
    by_cases hrd : rd raw = 0
    · exact .inl hrd
    · right
      intro regfile
      let s := initMachine w fun _ => 0
      exact (hkept { s with cpu := { s.cpu with regfile } }).resolve_left hrd
  · rintro (hrd | hkept) s
    · exact .inl hrd
    · exact .inr (hkept s.cpu.regfile)

section Keeps

variable {value : BitVec w → BitVec w → Option (BitVec w)} {raw : Word}

/-- With one number in every register. -/
theorem Keeps.const (hkept : Keeps value raw) (c : BitVec w) :
    value c c ∈ [none, some c] := by
  have hvalue := hkept fun _ => c
  cases hcase : value c c with
  | none => exact List.mem_cons_self
  | some v =>
    rw [hvalue v hcase]
    exact List.mem_cons_of_mem _ List.mem_cons_self

/-- With a number in `rd` that no other register holds. -/
theorem Keeps.mark (hkept : Keeps value raw) (c d : BitVec w) :
    ∀ v ∈ value (if rs1 raw = rd raw then d else c) (if rs2 raw = rd raw then d else c),
      v = d := by
  have hvalue := hkept (Function.update (fun _ => c) (rd raw) d)
  simpa only [Function.update_apply, if_true] using hvalue

end Keeps

/-! ## `OP_RTYPE` -/

def functCodes : List Byte := [0, 1, 2, 3, 4, 5, 6, 7]

theorem getFunct3_mem (raw : Word) : getFunct3 raw ∈ functCodes := by
  have hcode := toNat_getFunct3 raw
  have hsmall : (getFunct3 raw).toNat < 8 := by omega
  generalize getFunct3 raw = code at *
  interval_cases hvalue : code.toNat <;> rw [eq_ofNat_of_toNat_eq hvalue] <;> decide

theorem mulValue_two (hw : w = 32 ∨ w = 64) :
    ∀ code ∈ functCodes, mulValue code (2 : BitVec w) 2 ∉ [none, some 2] := by
  rcases hw with rfl | rfl <;> decide

theorem aluValue_two (hw : w = 32 ∨ w = 64) :
    ∀ code ∈ aluCodes, code ∈ [aluAnd, aluOr] ∨
      aluValue code (2 : BitVec w) 2 ∉ [none, some 2] := by
  rcases hw with rfl | rfl <;> decide

theorem aluValue_of_not_mem {code : Byte} (hcode : code ∉ aluCodes) (x y : BitVec w) :
    aluValue code x y = none := by
  simp only [aluCodes, List.mem_cons, List.not_mem_nil, or_false, not_or] at hcode
  simp only [aluValue, hcode, if_false]

section Register

variable {m : Bool} {raw : Word}

theorem rtypeValue_of_mul (hmul : TakesMul m raw) (x y : BitVec w) :
    rtypeValue m raw x y = mulValue (getFunct3 raw) x y :=
  if_pos hmul

theorem rtypeValue_of_alu (halu : ¬TakesMul m raw) (x y : BitVec w) :
    rtypeValue m raw x y = aluValue (aluop raw) x y :=
  if_neg halu

/-- An AND keeps `rd` only if both operands are `rd`. -/
theorem operands_of_and (hmark : ∀ v ∈ some ((if rs1 raw = rd raw then 1 else 0) &&&
      (if rs2 raw = rd raw then 1 else 0 : BitVec w)), v = 1) (hw : w = 32 ∨ w = 64) :
    rs1 raw = rd raw ∧ rs2 raw = rd raw := by
  have hone : (1 : BitVec w) ≠ 0 := by rcases hw with rfl | rfl <;> decide
  have hand := hmark _ rfl
  constructor
  · by_contra hrs1
    rw [if_neg hrs1] at hand
    exact hone (hand.symm.trans BitVec.zero_and)
  · by_contra hrs2
    rw [if_neg hrs2] at hand
    exact hone (hand.symm.trans BitVec.and_zero)

theorem operands_of_or (hmark : ∀ v ∈ some ((if rs1 raw = rd raw then 0 else 1) |||
      (if rs2 raw = rd raw then 0 else 1 : BitVec w)), v = 0) (hw : w = 32 ∨ w = 64) :
    rs1 raw = rd raw ∧ rs2 raw = rd raw := by
  have hone : (1 : BitVec w) ≠ 0 := by rcases hw with rfl | rfl <;> decide
  have hor := BitVec.or_eq_zero_iff.mp (hmark _ rfl)
  constructor
  · by_contra hrs1
    rw [if_neg hrs1] at hor
    exact hone hor.1
  · by_contra hrs2
    rw [if_neg hrs2] at hor
    exact hone hor.2

/-- A selected operation that keeps its destination for all register files is an AND or
an OR of the destination with itself. -/
theorem Keeps.operands (hw : w = 32 ∨ w = 64)
    (hkept : Keeps (w := w) (rtypeValue m raw) raw) (hselected : SelectsRegister m raw) :
    KeepsOperand m raw := by
  have htwo := hkept.const 2
  by_cases hmul : TakesMul m raw
  · rw [rtypeValue_of_mul hmul] at htwo
    exact absurd htwo (mulValue_two hw _ (getFunct3_mem raw))
  · rw [rtypeValue_of_alu hmul] at htwo
    have hcode : aluop raw ∈ [aluAnd, aluOr] :=
      (aluValue_two hw _ (hselected.resolve_left hmul)).resolve_right (not_not.mpr htwo)
    refine ⟨hmul, hcode, ?_⟩
    rcases List.mem_pair.mp hcode with hand | hor
    · have hmark := hkept.mark 0 1
      rw [rtypeValue_of_alu hmul, hand] at hmark
      exact operands_of_and hmark hw
    · have hmark := hkept.mark 1 0
      rw [rtypeValue_of_alu hmul, hor] at hmark
      exact operands_of_or hmark hw

theorem keeps_of_operands (hkept : KeepsOperand m raw) :
    Keeps (w := w) (rtypeValue m raw) raw := by
  obtain ⟨hmul, hcode, hrs1, hrs2⟩ := hkept
  intro regfile v hv
  rw [rtypeValue_of_alu hmul, hrs1, hrs2] at hv
  rcases List.mem_pair.mp hcode with hand | hor
  · rw [hand] at hv
    exact (Option.some.inj hv).symm.trans BitVec.and_self
  · rw [hor] at hv
    exact (Option.some.inj hv).symm.trans BitVec.or_self

/-- A register word is ignored if its function codes select no case, or an AND or OR that
keeps its own destination. -/
theorem keeps_rtypeValue_iff (hw : w = 32 ∨ w = 64) :
    Keeps (w := w) (rtypeValue m raw) raw ↔
      ¬SelectsRegister m raw ∨ KeepsOperand m raw := by
  constructor
  · intro hkept
    exact Classical.or_iff_not_imp_left.mpr fun hselected =>
      hkept.operands hw (not_not.mp hselected)
  · rintro (hnone | hoperand)
    · intro regfile v hv
      obtain ⟨hmul, hcode⟩ := not_or.mp hnone
      rw [rtypeValue_of_alu hmul, aluValue_of_not_mem hcode] at hv
      cases hv
    · exact keeps_of_operands hoperand

end Register

/-! ## `OP_IMM` -/

/-- The operand shapes that tell a shift from other operations. -/
structure IsShift (shift : BitVec w → ℕ → BitVec w) : Prop where
  by_zero : ∀ x, shift x 0 = x
  of_zero : ∀ sh, shift 0 sh = 0
  of_one : ∀ sh, sh < w → shift 1 sh = 1 → sh = 0

theorem toNat_one (hw : w = 32 ∨ w = 64) : (1 : BitVec w).toNat = 1 := by
  rcases hw with rfl | rfl <;> rfl

theorem isShift_shl (hw : w = 32 ∨ w = 64) :
    IsShift fun (x : BitVec w) sh => x <<< sh := by
  refine ⟨fun x => BitVec.shiftLeft_zero x, fun sh => BitVec.zero_shiftLeft sh, ?_⟩
  intro sh hsh hone
  have hpower : 2 ^ sh = 1 := by
    have htoNat := congrArg BitVec.toNat hone
    rwa [BitVec.toNat_shiftLeft, toNat_one hw, Nat.one_shiftLeft,
      Nat.mod_eq_of_lt (Nat.pow_lt_pow_right (by norm_num) hsh)] at htoNat
  exact (Nat.pow_eq_one.mp hpower).resolve_left (by norm_num)

theorem isShift_shr (hw : w = 32 ∨ w = 64) :
    IsShift fun (x : BitVec w) sh => x >>> sh := by
  refine ⟨fun x => BitVec.ushiftRight_zero x, fun sh => BitVec.zero_ushiftRight, ?_⟩
  intro sh hsh hone
  have hquotient : 1 / 2 ^ sh = 1 := by
    have htoNat := congrArg BitVec.toNat hone
    rwa [BitVec.toNat_ushiftRight, toNat_one hw, Nat.shiftRight_eq_div_pow] at htoNat
  by_contra hne
  rw [Nat.div_eq_of_lt (Nat.one_lt_two_pow hne)] at hquotient
  cases hquotient

theorem isShift_sra (hw : w = 32 ∨ w = 64) : IsShift (sra (w := w)) := by
  have hzero : (0 : BitVec w) &&& signBit w = 0 := BitVec.zero_and
  have hsign : (1 : BitVec w) &&& signBit w = 0 := by rcases hw with rfl | rfl <;> decide
  refine ⟨fun x => if_pos rfl, ?_, ?_⟩
  · intro sh
    rw [sra]
    split
    · rfl
    · rw [if_neg (not_not.mpr hzero)]
      exact BitVec.or_zero.trans BitVec.zero_ushiftRight
  · intro sh hsh hone
    rw [sra] at hone
    by_contra hne
    rw [if_neg hne, if_neg (not_not.mpr hsign)] at hone
    exact hne ((isShift_shr hw).of_one sh hsh (BitVec.or_zero.symm.trans hone))

/-- The values of the two shift cases. -/
theorem immValue_shift (hw : w = 32 ∨ w = 64) {raw : Word}
    (hcode : getFunct3 raw ∈ [aluSll, aluSrl]) :
    ∃ shift : BitVec w → ℕ → BitVec w, IsShift shift ∧
      ∀ x imm, immValue raw x imm = some (shift x (imm &&& shiftMax w).toNat) := by
  rcases List.mem_pair.mp hcode with hsll | hsrl
  · refine ⟨_, isShift_shl hw, fun x imm => ?_⟩
    rw [immValue, hsll]
    rfl
  · cases hbit : checkFunct7Bit5 raw with
    | true =>
      refine ⟨_, isShift_sra hw, fun x imm => ?_⟩
      rw [immValue, hsrl, hbit]
      rfl
    | false =>
      refine ⟨_, isShift_shr hw, fun x imm => ?_⟩
      rw [immValue, hsrl, hbit]
      rfl

/-- A shift word is ignored only if it shifts its own destination by zero. -/
theorem keeps_immValue_iff (hw : w = 32 ∨ w = 64) {raw : Word}
    (hcode : getFunct3 raw ∈ [aluSll, aluSrl]) :
    Keeps (fun x _ => immValue raw x (getSimm12 w raw)) raw ↔ ShiftsByZero w raw := by
  obtain ⟨shift, hshift, hvalue⟩ := immValue_shift hw hcode
  have hone : (1 : BitVec w) ≠ 0 := by rcases hw with rfl | rfl <;> decide
  constructor
  · intro hkept
    constructor
    · by_contra hrs1
      have hmark := hkept.mark 0 1
      rw [if_neg hrs1] at hmark
      exact hone (((hmark _ (hvalue 0 _)).symm).trans (hshift.of_zero _))
    · have hconst : shift 1 (getSimm12 w raw &&& shiftMax w).toNat = 1 := by
        exact hkept (fun _ => 1) _ (hvalue 1 _)
      have hamount := hshift.of_one _ (shiftAmount_lt hw _) hconst
      exact BitVec.eq_of_toNat_eq hamount
  · rintro ⟨hrs1, hamount⟩ regfile v hv
    change v ∈ immValue raw _ _ at hv
    rw [hvalue, hamount, hrs1] at hv
    exact (Option.some.inj hv).symm.trans (hshift.by_zero _)

/-! ## The W forms -/

/-- A number that is not the sign extension of a word. -/
def unextended : BitVec 64 := 0x100000000

theorem mulwValue_unextended :
    ∀ code ∈ mulwCodes, mulwValue code unextended unextended ∉
      [none, some unextended] := by
  decide

theorem aluwValue_unextended :
    ∀ code ∈ aluwCodes, aluwValue code unextended unextended ∉
      [none, some unextended] := by
  decide

theorem mulwValue_of_not_mem {code : Byte} (hcode : code ∉ mulwCodes) (x y : BitVec w) :
    mulwValue code x y = none := by
  simp only [mulwCodes, List.mem_cons, List.not_mem_nil, or_false, not_or] at hcode
  simp only [mulwValue, hcode, if_false]

theorem aluwValue_of_not_mem {code : Byte} (hcode : code ∉ aluwCodes) (x y : BitVec w) :
    aluwValue code x y = none := by
  simp only [aluwCodes, List.mem_cons, List.not_mem_nil, or_false, not_or] at hcode
  simp only [aluwValue, hcode, if_false]

theorem keeps_rtypewValue_iff {m : Bool} {raw : Word} :
    Keeps (w := 64) (rtypewValue m raw) raw ↔ ¬SelectsRegisterW m raw := by
  by_cases hmul : TakesMul m raw
  · have hvalue : ∀ x y : BitVec 64,
        rtypewValue m raw x y = mulwValue (getFunct3 raw) x y := fun _ _ => if_pos hmul
    rw [SelectsRegisterW, if_pos hmul]
    constructor
    · intro hkept hcode
      have hconst := hkept.const unextended
      rw [hvalue] at hconst
      exact mulwValue_unextended _ hcode hconst
    · intro hcode regfile v hv
      rw [hvalue, mulwValue_of_not_mem hcode] at hv
      cases hv
  · have hvalue : ∀ x y : BitVec 64,
        rtypewValue m raw x y = aluwValue (aluop raw) x y := fun _ _ => if_neg hmul
    rw [SelectsRegisterW, if_neg hmul]
    constructor
    · intro hkept hcode
      have hconst := hkept.const unextended
      rw [hvalue] at hconst
      exact aluwValue_unextended _ hcode hconst
    · intro hcode regfile v hv
      rw [hvalue, aluwValue_of_not_mem hcode] at hv
      cases hv

theorem immwValue_shift {raw : Word} (hcode : getFunct3 raw ∈ [aluSll, aluSrl])
    (imm : BitVec 64) : immwValue raw unextended imm = some 0 := by
  have hlow : unextended.setWidth 32 = 0#32 := by decide
  generalize hsh : (imm &&& shiftMaxWord.setWidth 64).toNat = sh
  rcases List.mem_pair.mp hcode with hsll | hsrl
  · have hvalue : immwValue raw unextended imm = some ((0#32 <<< sh).signExtend 64) := by
      rw [immwValue, hsll, hsh, hlow]
      rfl
    rw [hvalue, BitVec.zero_shiftLeft]
    rfl
  · have hvalue : immwValue raw unextended imm = some (if checkFunct7Bit5 raw then
        (sraw 0#32 sh).signExtend 64 else (0#32 >>> sh).signExtend 64) := by
      rw [immwValue, hsrl, hsh, hlow]
      rfl
    have hsraw : sraw 0#32 sh = 0#32 := (isShift_sra (.inl rfl)).of_zero sh
    rw [hvalue, hsraw, BitVec.zero_ushiftRight, ite_self]
    rfl

theorem keeps_immwValue_iff {raw : Word} (hcode : getFunct3 raw ≠ aluAdd)
    (imm : BitVec 64) :
    Keeps (fun x _ => immwValue raw x imm) raw ↔ getFunct3 raw ∉ [aluSll, aluSrl] := by
  constructor
  · intro hkept hshift
    have hconst := hkept (fun _ => unextended) _ (immwValue_shift hshift imm)
    exact absurd hconst (by decide)
  · intro hnone regfile v hv
    simp only [List.mem_cons, List.not_mem_nil, or_false, not_or] at hnone
    simp only [immwValue, hcode, hnone, if_false] at hv
    cases hv

/-! ## Undefined function codes -/

section Undefined

variable {raw : Word}

/-- The bus knows no width for a load code that the build does not define. -/
theorem loadSize_undefined (hw : w = 32 ∨ w = 64) :
    ∀ code ∈ functCodes, code.toNat ∉ loadCodes w → loadSize w code = none := by
  rcases hw with rfl | rfl <;> decide

theorem storeSize_undefined (hw : w = 32 ∨ w = 64) :
    ∀ code ∈ functCodes, code.toNat ∉ storeCodes w → storeSize w code = none := by
  rcases hw with rfl | rfl <;> decide

theorem branch_undefined :
    ∀ code ∈ functCodes, code.toNat ∉ branchCodes → code ∈ [2, 3] := by
  decide

/-- The immediate operations without a function code cover every other code. -/
theorem immOp_of_code : ∀ code ∈ functCodes, code ∈ [aluSll, aluSrl] ∨
    ∃ op ∈ ImmOp.all, op.funct3 = code.toNat ∧ op.funct7 = none := by
  decide

/-- All function codes of `OP_IMM` but those of the shifts are defined whatever the upper
bits are. -/
theorem shift_of_not_encodes {shamt : ℕ} (hraw : ¬EncodesImm raw.toNat ImmOp.all shamt) :
    getFunct3 raw ∈ [aluSll, aluSrl] := by
  apply (immOp_of_code _ (getFunct3_mem raw)).resolve_right
  rintro ⟨op, hop, hfunct3, hfunct7⟩
  refine hraw ⟨op, hop, hfunct3.trans (funct3_eq raw).symm, ?_⟩
  intro code hcode
  rw [hfunct7] at hcode
  cases hcode

theorem not_addiw_of_not_encodes (hraw : ¬EncodesImm raw.toNat wordImmOps 5) :
    getFunct3 raw ≠ aluAdd := by
  intro hadd
  refine hraw ⟨.addi, by decide, ?_, ?_⟩
  · rw [funct3_eq, hadd]
    rfl
  · intro code hcode
    cases hcode

theorem readValue_undefined (hw : w = 32 ∨ w = 64)
    (hraw : Reference.funct3 raw.toNat ∉ loadCodes w) (cpu : Cpu w) (addr : BitVec w) :
    readValue cpu addr (getFunct3 raw) = none := by
  rw [funct3_eq] at hraw
  rw [readValue, loadSize_undefined hw _ (getFunct3_mem raw) hraw, Option.map_none,
    ite_self]

theorem writtenRam_undefined (hw : w = 32 ∨ w = 64)
    (hraw : Reference.funct3 raw.toNat ∉ storeCodes w) (cpu : Cpu w)
    (addr val : BitVec w) :
    writtenRam cpu addr (getFunct3 raw) val = cpu.ram := by
  rw [funct3_eq] at hraw
  rw [writtenRam, storeSize_undefined hw _ (getFunct3_mem raw) hraw]
  exact ite_self _

theorem taken_undefined (hraw : Reference.funct3 raw.toNat ∉ branchCodes) (cpu : Cpu w) :
    taken cpu raw = false := by
  rw [funct3_eq] at hraw
  rw [taken]
  rcases List.mem_pair.mp (branch_undefined _ (getFunct3_mem raw) hraw) with htwo | hthree
  · rw [htwo]
    rfl
  · rw [hthree]
    rfl

end Undefined

/-! ## Every undefined word -/

/-- A JALR goes somewhere else in some state. -/
theorem jalr_not_ignored (hw : w = 32 ∨ w = 64) (m : Bool) {raw : Word}
    (hclass : opClass w (getOpcode raw) = .jalr) :
    ¬ ∀ s : Machine w, Ignores m s raw := by
  intro hignored
  let s := initMachine w fun _ => 0
  let target := (s.cpu.regfile (rs1 raw) + getSimm12 w raw) &&& ~~~1#w
  have hstuck := (ignores_iff hw m { s with cpu := { s.cpu with pc := target } } raw).mp
    (hignored _)
  have hpc : target = target + 4 := by
    simpa only [effect, hclass] using hstuck.2.2.2
  have hfour : (4 : BitVec w) ≠ 0 := by rcases hw with rfl | rfl <;> decide
  exact hfour (BitVec.add_right_eq_self.mp hpc.symm)

/-- The W forms exist in the RV64 build only. -/
theorem xlen_of_opClass {opcode : Byte} {cls : OpClass} (hclass : opClass w opcode = cls)
    (hcls : cls = .rtypew ∨ cls = .immw) : w = 64 := by
  by_contra hw
  rcases hcls with rfl | rfl
  · obtain rfl : opcode = 0x3B := opcode_of_opClass hclass rfl
    simp [opClass, hw] at hclass
  · obtain rfl : opcode = 0x1B := opcode_of_opClass hclass rfl
    simp [opClass, hw] at hclass

/-- The upper-immediate instructions and JAL have no undefined words. -/
theorem opcode_ne_upper {m : Bool} {raw : Word} (hraw : ¬Encodes raw.toNat w m) {code : ℕ}
    (hcode : code ∈ [0b0110111, 0b0010111, 0b1101111]) :
    Reference.opcode raw.toNat ≠ code := by
  rintro rfl
  exact hraw (.inr (.inr (.inr (.inr (.inr (.inr (.inr hcode)))))))

/-- A word the build does not define is ignored in every state exactly when it is
harmless. -/
theorem reserved_words (b : Build) (raw : Word)
    (hraw : ¬Encodes raw.toNat b.xlen b.mExt)
    (hsystem : Reference.opcode raw.toNat ≠ 0b1110011)
    (hfence : Reference.opcode raw.toNat ≠ 0b0001111) :
    (∀ s : Machine b.xlen, Ignores b.mExt s raw) ↔ Harmless b.xlen b.mExt raw := by
  obtain ⟨w, hw, m⟩ := b
  change ¬Encodes raw.toNat w m at hraw
  change (∀ s : Machine w, Ignores m s raw) ↔ Harmless w m raw
  have hopcode : ∀ {cls : OpClass} {code : Byte}, opClass w (getOpcode raw) = cls →
      opcodeOf cls = some code → Reference.opcode raw.toNat = code.toNat := by
    intro cls code hclass hcode
    rw [opcode_eq, opcode_of_opClass hclass hcode]
  cases hclass : opClass w (getOpcode raw)
  case jalr =>
    rw [Harmless, hclass]
    exact iff_false_intro (jalr_not_ignored hw m hclass)
  case rtype =>
    simp only [ignores_iff hw, effect, hclass, skip, true_and, and_true, Harmless]
    rw [keepsRegister_iff (rtypeValue m raw), keeps_rtypeValue_iff hw]
  case rtypew =>
    obtain rfl : w = 64 := xlen_of_opClass hclass (.inl rfl)
    simp only [ignores_iff hw, effect, hclass, skip, true_and, and_true, Harmless]
    rw [keepsRegister_iff (rtypewValue m raw), keeps_rtypewValue_iff]
  case imm =>
    have hshift := shift_of_not_encodes fun hvalid =>
      hraw (.inr (.inl ⟨hopcode hclass rfl, hvalid⟩))
    simp only [ignores_iff hw, effect, hclass, skip, true_and, and_true, Harmless]
    rw [keepsRegister_iff (fun x _ => immValue raw x (getSimm12 w raw)),
      keeps_immValue_iff hw hshift]
  case immw =>
    obtain rfl : w = 64 := xlen_of_opClass hclass (.inr rfl)
    have hcode := not_addiw_of_not_encodes fun hvalid =>
      hraw (.inr (.inr (.inl ⟨rfl, .inr ⟨hopcode hclass rfl, hvalid⟩⟩)))
    simp only [ignores_iff hw, effect, hclass, skip, true_and, and_true, Harmless]
    rw [keepsRegister_iff (fun x _ => immwValue raw x (getSimm12 64 raw)),
      keeps_immwValue_iff hcode]
  case load =>
    have hcode : Reference.funct3 raw.toNat ∉ loadCodes w := fun hvalid =>
      hraw (.inr (.inr (.inr (.inl ⟨hopcode hclass rfl, hvalid⟩))))
    rw [Harmless, hclass]
    refine iff_of_true (fun s => ignores_of_inert hw ?_ ?_ ?_ ?_) trivial <;>
      simp only [effect, hclass, skip, readValue_undefined hw hcode]
  case store =>
    have hcode : Reference.funct3 raw.toNat ∉ storeCodes w := fun hvalid =>
      hraw (.inr (.inr (.inr (.inr (.inl ⟨hopcode hclass rfl, hvalid⟩)))))
    rw [Harmless, hclass]
    refine iff_of_true (fun s => ignores_of_inert hw ?_ ?_ ?_ ?_) trivial <;>
      simp only [effect, hclass, skip, writtenRam_undefined hw hcode]
  case branch =>
    have hcode : Reference.funct3 raw.toNat ∉ branchCodes := fun hvalid =>
      hraw (.inr (.inr (.inr (.inr (.inr (.inl ⟨hopcode hclass rfl, hvalid⟩))))))
    rw [Harmless, hclass]
    refine iff_of_true (fun s => ignores_of_inert hw ?_ ?_ ?_ ?_) trivial <;>
      simp only [effect, hclass, skip, taken_undefined hcode]
    rfl
  case unrecognized =>
    rw [Harmless, hclass]
    refine iff_of_true (fun s => ignores_of_inert hw ?_ ?_ ?_ ?_) trivial <;>
      simp only [effect, hclass, skip]
  case fence => exact absurd (hopcode hclass rfl) hfence
  case sys => exact absurd (hopcode hclass rfl) hsystem
  case auipc => exact absurd (hopcode hclass rfl) (opcode_ne_upper hraw (by decide))
  case lui => exact absurd (hopcode hclass rfl) (opcode_ne_upper hraw (by decide))
  case jal => exact absurd (hopcode hclass rfl) (opcode_ne_upper hraw (by decide))

/-- `mul x3, x1, x2` on RV32I. -/
theorem reserved_words_mul :
    (∀ s : Machine 32, Ignores false s 0x022081B3#32) ↔ Harmless 32 false 0x022081B3#32 :=
  reserved_words ⟨32, .inl rfl, false⟩ _ (by decide) (by decide) (by decide)

/-- On RV32I a multiplication is executed as an addition. -/
theorem mul_executed_as_add :
    ¬ ∀ (b : Build) (s : Machine b.xlen) (raw : Word), ¬Encodes raw.toNat b.xlen b.mExt →
      Reference.opcode raw.toNat ≠ 0b1110011 → Reference.opcode raw.toNat ≠ 0b0001111 →
      Ignores b.mExt s raw := by
  intro hignored
  let s := initMachine 32 fun _ => 0
  have hcall := hignored ⟨32, .inl rfl, false⟩
    { s with cpu := { s.cpu with regfile := fun r => if r = 0 then 0 else 1 } }
      0x022081B3#32
    (by decide) (by decide) (by decide)
  obtain ⟨-, hkept, -⟩ := (ignores_iff (.inl rfl) false _ _).mp hcall
  have hsum := hkept.resolve_left (by decide) 2 rfl
  exact absurd hsum (by decide)

end Rvem.Reserved
