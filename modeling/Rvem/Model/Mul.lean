import Rvem.Model.Arch

/-!
# Multiply and divide helpers

The functions of `mul.h` as GCC and Clang compile them.  A signed `/` or `%` is
`BitVec.sdiv` and `BitVec.srem`, which truncate towards zero as C does.  The
helpers that the source writes once for `RV64M` and once for `RV32M` are the same
expression over an intermediate type of twice the register width (`int64_t` and
`uint64_t`, or `__int128` and `unsigned __int128`), so they are written once here.
-/

namespace Rvem.Mul

open Rvem.Arch

variable {w : ℕ}

/-- `SREG_MIN` -/
def sregMin (w : ℕ) : BitVec w := BitVec.intMin w

/-- `REG_MAX` -/
def regMax (w : ℕ) : BitVec w := BitVec.allOnes w

def rvMul (a b : BitVec w) : BitVec w := a * b

/-- Both operands signed. -/
def rvMulh (a b : BitVec w) : BitVec w :=
  ((a.signExtend (w + w) * b.signExtend (w + w)) >>> w).setWidth w

/-- `a` is signed; the conversion of the unsigned `b` keeps its value. -/
def rvMulhsu (a b : BitVec w) : BitVec w :=
  ((a.signExtend (w + w) * b.setWidth (w + w)) >>> w).setWidth w

def rvMulhu (a b : BitVec w) : BitVec w :=
  ((a.setWidth (w + w) * b.setWidth (w + w)) >>> w).setWidth w

def rvDiv (a b : BitVec w) : BitVec w :=
  if b = 0 then -1
  else if a = sregMin w ∧ b = -1 then sregMin w
  else a.sdiv b

def rvDivu (a b : BitVec w) : BitVec w :=
  if b = 0 then regMax w else a / b

def rvRem (a b : BitVec w) : BitVec w :=
  if b = 0 then a
  else if a = sregMin w ∧ b = -1 then 0
  else a.srem b

def rvRemu (a b : BitVec w) : BitVec w :=
  if b = 0 then a else a % b

/-! ## 32-bit forms of RV64M

The source repeats the bodies above at `int32_t` and `uint32_t`. -/

def rvMulw (a b : Word) : Word := rvMul a b
def rvDivw (a b : Word) : Word := rvDiv a b
def rvDivuw (a b : Word) : Word := rvDivu a b
def rvRemw (a b : Word) : Word := rvRem a b
def rvRemuw (a b : Word) : Word := rvRemu a b

end Rvem.Mul
