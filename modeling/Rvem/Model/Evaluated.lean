import Rvem.Library.HostArith
import Rvem.Model.Mul

/-!
# The arithmetic helpers as the host evaluates them

The shift macros of `common.h` and the functions of `mul.h` with the operations they
evaluate and the C types these are evaluated in.  The high multiplies come in the
three variants of the source: with 128-bit integers, with the MSVC intrinsics and in
software.
-/

namespace Rvem.Evaluated

open Rvem.Arch
open Rvem.Mul
open Rvem.Library.HostArith
open Rvem.Library.HostArith.Logged

variable {w : ℕ}

/-! ## Shift macros

`count` is the subtraction `32 - sh` or `XLEN - sh`, whose type is that of the amount. -/

def srawEval (count : ℤ → Operation) (val : Word) (sh : ℕ) : Logged Word :=
  if sh = 0 then pure val
  else do
    let low ← shr val sh
    if val &&& 0x80000000#32 ≠ 0 then
      log (count (32 - sh))
      let fill ← shl (~~~0#32) (32 - sh)
      return low ||| fill
    else return low ||| 0

def sraEval (count : ℤ → Operation) (val : BitVec w) (sh : ℕ) : Logged (BitVec w) :=
  if sh = 0 then pure val
  else do
    let low ← shr val sh
    if val &&& signBit w ≠ 0 then
      log (count (w - sh))
      let fill ← shl (~~~0#w) (w - sh)
      return low ||| fill
    else return low ||| 0

/-! ## Multiplication -/

def rvMulEval (a b : BitVec w) : Logged (BitVec w) := umul a b

/-- The intermediate type has twice the width. -/
def rvMulhEval (a b : BitVec w) : Logged (BitVec w) := do
  let product ← smul (a.signExtend (w + w)) (b.signExtend (w + w))
  let high ← shr product w
  return high.setWidth w

def rvMulhsuEval (a b : BitVec w) : Logged (BitVec w) := do
  let product ← smul (a.signExtend (w + w)) (b.setWidth (w + w))
  let high ← shr product w
  return high.setWidth w

def rvMulhuEval (a b : BitVec w) : Logged (BitVec w) := do
  let product ← umul (a.setWidth (w + w)) (b.setWidth (w + w))
  let high ← shr product w
  return high.setWidth w

/-! ## Division -/

def rvDivEval (a b : BitVec w) : Logged (BitVec w) :=
  if b = 0 then pure (-1)
  else if a = sregMin w ∧ b = -1 then pure (sregMin w)
  else sdiv a b

def rvDivuEval (a b : BitVec w) : Logged (BitVec w) :=
  if b = 0 then pure (regMax w) else udiv a b

def rvRemEval (a b : BitVec w) : Logged (BitVec w) :=
  if b = 0 then pure a
  else if a = sregMin w ∧ b = -1 then pure 0
  else srem a b

def rvRemuEval (a b : BitVec w) : Logged (BitVec w) :=
  if b = 0 then pure a else urem a b

/-! The 32-bit forms of RV64M repeat these bodies at `int32_t` and `uint32_t`. -/

def rvMulwEval (a b : Word) : Logged Word := rvMulEval a b
def rvDivwEval (a b : Word) : Logged Word := rvDivEval a b
def rvDivuwEval (a b : Word) : Logged Word := rvDivuEval a b
def rvRemwEval (a b : Word) : Logged Word := rvRemEval a b
def rvRemuwEval (a b : Word) : Logged Word := rvRemuEval a b

/-! ## The software fallback of RV64M -/

def mulhudw (a b : BitVec 64) : Logged (BitVec 64) := do
  let aLo := (a.setWidth 32).setWidth 64
  let aHi ← shr a 32
  let bLo := (b.setWidth 32).setWidth 64
  let bHi ← shr b 32
  let p00 ← umul aLo bLo
  let p10 ← umul aHi bLo
  let p01 ← umul aLo bHi
  let p11 ← umul aHi bHi
  let cross ← uadd p10 (← shr p00 32)
  let upper ← uadd p11 (← shr cross 32)
  let lower ← uadd p01 ((cross.setWidth 32).setWidth 64)
  uadd upper (← shr lower 32)

/-- `if (cond) res -= x;` with both operands signed. -/
def subtractIf (cond : Bool) (res x : BitVec w) : Logged (BitVec w) :=
  if cond then ssub res x else pure res

/-- `rv_mulh` without 128-bit integers. -/
def rvMulhFallback (a b : BitVec 64) : Logged (BitVec 64) := do
  let res ← mulhudw a b
  let res ← subtractIf (a.slt 0) res b
  subtractIf (b.slt 0) res a

/-- `b` is unsigned, so `res -= b` is evaluated in the unsigned type. -/
def rvMulhsuFallback (a b : BitVec 64) : Logged (BitVec 64) := do
  let res ← mulhudw a b
  if a.slt 0 then usub res b else return res

def rvMulhuFallback (a b : BitVec 64) : Logged (BitVec 64) := mulhudw a b

/-! ## The MSVC variants of RV64M

`__mulh` and `__umulh` are parameters. -/

section Intrinsics

variable (mulh umulh : BitVec 64 → BitVec 64 → BitVec 64)

def rvMulhMsvc (a b : BitVec 64) : BitVec 64 := mulh a b

def rvMulhsuMsvc (a b : BitVec 64) : Logged (BitVec 64) := do
  let res := umulh a b
  if a.slt 0 then usub res b else return res

def rvMulhuMsvc (a b : BitVec 64) : BitVec 64 := umulh a b

end Intrinsics

/-! ## Values

What the evaluated helpers return is what the helpers return. -/

theorem ite_value {A : Type} (cond : Prop) [Decidable cond] (e e' : Logged A) :
    (if cond then e else e').value = if cond then e.value else e'.value :=
  apply_ite Logged.value cond e e'

@[simp]
theorem srawEval_value (count : ℤ → Operation) (val : Word) (sh : ℕ) :
    (srawEval count val sh).value = sraw val sh := by
  rw [srawEval, sraw, ite_value]
  congr 1
  rw [bind_value, shr_value, ite_value]
  split
  · rfl
  · rfl

@[simp]
theorem sraEval_value (count : ℤ → Operation) (val : BitVec w) (sh : ℕ) :
    (sraEval count val sh).value = sra val sh := by
  rw [sraEval, sra, ite_value]
  congr 1
  rw [bind_value, shr_value, ite_value]
  split
  · rfl
  · rfl

section Values

variable (a b : BitVec w)

@[simp] theorem rvMulEval_value : (rvMulEval a b).value = rvMul a b := rfl
@[simp] theorem rvMulhEval_value : (rvMulhEval a b).value = rvMulh a b := rfl
@[simp] theorem rvMulhsuEval_value : (rvMulhsuEval a b).value = rvMulhsu a b := rfl
@[simp] theorem rvMulhuEval_value : (rvMulhuEval a b).value = rvMulhu a b := rfl

@[simp]
theorem rvDivEval_value : (rvDivEval a b).value = rvDiv a b := by
  rw [rvDivEval, rvDiv, ite_value, ite_value]
  rfl

@[simp]
theorem rvDivuEval_value : (rvDivuEval a b).value = rvDivu a b := by
  rw [rvDivuEval, rvDivu, ite_value]
  rfl

@[simp]
theorem rvRemEval_value : (rvRemEval a b).value = rvRem a b := by
  rw [rvRemEval, rvRem, ite_value, ite_value]
  rfl

@[simp]
theorem rvRemuEval_value : (rvRemuEval a b).value = rvRemu a b := by
  rw [rvRemuEval, rvRemu, ite_value]
  rfl

end Values

section WordValues

variable (a b : Word)

@[simp] theorem rvMulwEval_value : (rvMulwEval a b).value = rvMulw a b := rfl
@[simp] theorem rvDivwEval_value : (rvDivwEval a b).value = rvDivw a b :=
  rvDivEval_value a b
@[simp] theorem rvDivuwEval_value : (rvDivuwEval a b).value = rvDivuw a b :=
  rvDivuEval_value a b
@[simp] theorem rvRemwEval_value : (rvRemwEval a b).value = rvRemw a b :=
  rvRemEval_value a b
@[simp] theorem rvRemuwEval_value : (rvRemuwEval a b).value = rvRemuw a b :=
  rvRemuEval_value a b

end WordValues

end Rvem.Evaluated
