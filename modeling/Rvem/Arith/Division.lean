import Rvem.Model.Evaluated

/-!
# The division law

Quotient and remainder of `mul.h` are separate functions with guards of their own.
Together they satisfy the division law at every width and signedness, and neither lets
the host divide where C does not define it.  The law is stated once, over the number
that a register denotes, for both signednesses.
-/

namespace Rvem.Division

open Rvem.Arch
open Rvem.Mul
open Rvem.Evaluated
open Rvem.Library.HostArith
open Rvem.Library.HostArith.Logged

variable {w : ℕ}

/-- The operands of the one quotient that does not fit. -/
def Overflows (a b : BitVec w) : Prop :=
  a = sregMin w ∧ b = -1

instance (a b : BitVec w) : Decidable (Overflows a b) :=
  inferInstanceAs (Decidable (_ ∧ _))

/-- The law for `a` and `b`, read as numbers by `num`; the quotient of excepted
operands is not exact. -/
structure DivisionLaw (num : BitVec w → ℤ) (excepted : BitVec w → BitVec w → Prop)
    (div rem : BitVec w → BitVec w → Logged (BitVec w)) (a b : BitVec w) : Prop where
  div_defined : (div a b).Defined
  rem_defined : (rem a b).Defined
  congruent : a = (div a b).value * b + (rem a b).value
  small : b ≠ 0 → |num (rem a b).value| < |num b|
  sign : b ≠ 0 → num (rem a b).value = 0 ∨ (num (rem a b).value).sign = (num a).sign
  exact : ¬excepted a b → num a = num (div a b).value * num b + num (rem a b).value
  by_zero : b = 0 → (div a b).value = BitVec.allOnes w

/-- What is asked of a signed division and its remainder: both are defined in C, together
they give the dividend back, exactly but for the overflow, the remainder is smaller than
the divisor with the sign of the dividend, and a quotient by zero is all ones. -/
def SignedLaw (div rem : BitVec w → BitVec w → Logged (BitVec w))
    (a b : BitVec w) : Prop :=
  DivisionLaw BitVec.toInt Overflows div rem a b

/-- What is asked of an unsigned division and its remainder, whose quotient
always fits. -/
def UnsignedLaw (div rem : BitVec w → BitVec w → Logged (BitVec w))
    (a b : BitVec w) : Prop :=
  DivisionLaw (fun x => x.toNat) (fun _ _ => False) div rem a b

/-- An exact law is a congruence. -/
theorem congruent_of_exact {num : BitVec w → ℤ} (hnum : ∀ x, BitVec.ofInt w (num x) = x)
    {a b q r : BitVec w} (hexact : num a = num q * num b + num r) : a = q * b + r :=
  calc
    a = BitVec.ofInt w (num q * num b + num r) := by rw [← hexact, hnum]
    _ = q * b + r := by rw [BitVec.ofInt_add, BitVec.ofInt_mul, hnum, hnum, hnum]

/-! ## Signed pairs -/

theorem toInt_ne_zero {b : BitVec w} (hb : b ≠ 0) : b.toInt ≠ 0 := by
  intro hzero
  apply hb
  rw [← BitVec.toInt_inj, hzero]
  exact (BitVec.toInt_zero).symm

/-- The guard of the code is the condition of C. -/
theorem overflows_iff (hw : 1 < w) (a b : BitVec w) :
    Overflows a b ↔ a.toInt = -2 ^ (w - 1) ∧ b.toInt = -1 := by
  have hmin : (sregMin w).toInt = -2 ^ (w - 1) := BitVec.toInt_intMin_of_pos (by omega)
  have hminusOne : (-1 : BitVec w).toInt = -1 := by
    rw [show (-1 : BitVec w) = BitVec.allOnes w from BitVec.neg_one_eq_allOnes,
      BitVec.toInt_allOnes, if_pos (by omega)]
  rw [Overflows, ← BitVec.toInt_inj, ← BitVec.toInt_inj, hmin, hminusOne]

/-- On operands that pass the guards the helpers divide. -/
theorem signedLaw_of_divides (hw : 1 < w) {a b : BitVec w} (hb : b ≠ 0)
    (hexcepted : ¬Overflows a b) : SignedLaw rvDivEval rvRemEval a b := by
  have hdiv : rvDivEval a b = sdiv a b := by
    rw [rvDivEval, if_neg hb]
    exact if_neg hexcepted
  have hrem : rvRemEval a b = srem a b := by
    rw [rvRemEval, if_neg hb]
    exact if_neg hexcepted
  have hquotient : (a.sdiv b).toInt = a.toInt.tdiv b.toInt :=
    BitVec.toInt_sdiv_of_ne_or_ne a b (not_and_or.mp hexcepted)
  have hremainder : (a.srem b).toInt = a.toInt.tmod b.toInt := BitVec.toInt_srem a b
  have hexact : a.toInt = (a.sdiv b).toInt * b.toInt + (a.srem b).toInt := by
    rw [hquotient, hremainder]
    exact (Int.tdiv_mul_add_tmod _ _).symm
  have hdefined : b.toInt ≠ 0 ∧ ¬(a.toInt = -2 ^ (w - 1) ∧ b.toInt = -1) :=
    ⟨toInt_ne_zero hb, fun hrange => hexcepted ((overflows_iff hw a b).mpr hrange)⟩
  refine ⟨?_, ?_, ?_, ?_, ?_, ?_, fun hzero => absurd hzero hb⟩
  · rw [hdiv, defined_sdiv]
    exact hdefined
  · rw [hrem, defined_srem]
    exact hdefined
  · rw [hdiv, hrem]
    exact congruent_of_exact (fun _ => BitVec.ofInt_toInt) hexact
  · intro _
    rw [hrem, srem_value, hremainder, Int.abs_eq_natAbs, Int.abs_eq_natAbs,
      Int.natAbs_tmod]
    exact_mod_cast Nat.mod_lt _ (Int.natAbs_pos.mpr (toInt_ne_zero hb))
  · intro _
    rw [hrem, srem_value, hremainder, Int.sign_tmod]
    split
    · next hdvd => exact .inl (Int.tmod_eq_zero_of_dvd hdvd)
    · exact .inr rfl
  · intro _
    rw [hdiv, hrem]
    exact hexact

/-- A zero divisor: nothing is divided. -/
theorem signedLaw_zero (a : BitVec w) : SignedLaw rvDivEval rvRemEval a 0#w := by
  have hdiv : rvDivEval a 0#w = pure (-1) := if_pos rfl
  have hrem : rvRemEval a 0#w = pure a := if_pos rfl
  refine ⟨?_, ?_, ?_, fun hb => absurd rfl hb, fun hb => absurd rfl hb, ?_, ?_⟩
  · rw [hdiv]
    exact defined_pure _
  · rw [hrem]
    exact defined_pure _
  · rw [hrem, pure_value, BitVec.mul_zero, BitVec.zero_add]
  · intro _
    rw [hrem, pure_value, BitVec.toInt_zero, mul_zero, zero_add]
  · intro _
    rw [hdiv]
    exact BitVec.neg_one_eq_allOnes

/-- The quotient that does not fit wraps around. -/
theorem signedLaw_overflow (hw : 1 < w) :
    SignedLaw rvDivEval rvRemEval (sregMin w) (-1#w) := by
  have hone : -1#w ≠ 0#w := by
    have hpow : 1 < 2 ^ w := Nat.one_lt_two_pow (by omega)
    rw [BitVec.neg_one_eq_allOnes, ne_eq, ← BitVec.toNat_inj, BitVec.toNat_allOnes,
      BitVec.toNat_ofNat, Nat.zero_mod]
    omega
  have hdiv : rvDivEval (sregMin w) (-1#w) = pure (sregMin w) :=
    (if_neg hone).trans (if_pos ⟨rfl, rfl⟩)
  have hrem : rvRemEval (sregMin w) (-1#w) = pure 0#w :=
    (if_neg hone).trans (if_pos ⟨rfl, rfl⟩)
  refine ⟨?_, ?_, ?_, ?_, ?_, fun hexcepted => absurd ⟨rfl, rfl⟩ hexcepted,
    fun hb => absurd hb hone⟩
  · rw [hdiv]
    exact defined_pure _
  · rw [hrem]
    exact defined_pure _
  · rw [hdiv, hrem, pure_value, pure_value, BitVec.add_zero, BitVec.mul_neg,
      BitVec.mul_one, sregMin, BitVec.neg_intMin]
  · intro _
    rw [hrem, pure_value, BitVec.toInt_zero, abs_zero, abs_pos]
    exact toInt_ne_zero hone
  · intro _
    rw [hrem]
    exact .inl BitVec.toInt_zero

/-- The signed helpers keep the law at every width above one, where `-1` and the smallest
number differ. -/
theorem signedLaw (hw : 1 < w) (a b : BitVec w) : SignedLaw rvDivEval rvRemEval a b := by
  by_cases hb : b = 0
  · rw [hb]
    exact signedLaw_zero a
  · by_cases hexcepted : Overflows a b
    · rw [hexcepted.1, hexcepted.2]
      exact signedLaw_overflow hw
    · exact signedLaw_of_divides hw hb hexcepted

/-! ## Unsigned pairs -/

theorem toNat_ne_zero {b : BitVec w} (hb : b ≠ 0) : b.toNat ≠ 0 := by
  intro hzero
  apply hb
  rw [← BitVec.toNat_inj, hzero]
  exact BitVec.toNat_zero.symm

/-- A number that is not larger than another has its sign, or is zero. -/
theorem sign_natCast {r a : ℕ} (hle : r ≤ a) :
    (r : ℤ) = 0 ∨ (r : ℤ).sign = (a : ℤ).sign := by
  rcases Nat.eq_zero_or_pos r with hzero | hpos
  · exact .inl (congrArg Nat.cast hzero)
  · have hr : (r : ℤ).sign = 1 := Int.sign_eq_one_of_pos (by omega)
    have ha : (a : ℤ).sign = 1 := Int.sign_eq_one_of_pos (by omega)
    exact .inr (hr.trans ha.symm)

/-- Where the divisor is not zero the unsigned helpers are the division of natural
numbers. -/
theorem unsignedLaw_of_divides (a : BitVec w) {b : BitVec w} (hb : b ≠ 0) :
    UnsignedLaw rvDivuEval rvRemuEval a b := by
  have hdiv : rvDivuEval a b = udiv a b := if_neg hb
  have hrem : rvRemuEval a b = urem a b := if_neg hb
  have hexact : (a.toNat : ℤ) = (a / b).toNat * b.toNat + (a % b).toNat := by
    rw [BitVec.toNat_udiv, BitVec.toNat_umod]
    exact_mod_cast (Nat.div_add_mod' a.toNat b.toNat).symm
  refine ⟨?_, ?_, ?_, ?_, ?_, ?_, fun hzero => absurd hzero hb⟩
  · rw [hdiv, defined_udiv]
    exact toNat_ne_zero hb
  · rw [hrem, defined_urem]
    exact toNat_ne_zero hb
  · rw [hdiv, hrem]
    exact congruent_of_exact ofInt_toNat hexact
  · intro _
    rw [hrem, urem_value, BitVec.toNat_umod, Nat.abs_cast, Nat.abs_cast]
    exact_mod_cast Nat.mod_lt _ (Nat.pos_of_ne_zero (toNat_ne_zero hb))
  · intro _
    rw [hrem, urem_value]
    rw [BitVec.toNat_umod]
    exact sign_natCast (Nat.mod_le _ _)
  · intro _
    rw [hdiv, hrem]
    exact hexact

theorem unsignedLaw_zero (a : BitVec w) : UnsignedLaw rvDivuEval rvRemuEval a 0#w := by
  have hdiv : rvDivuEval a 0#w = pure (regMax w) := if_pos rfl
  have hrem : rvRemuEval a 0#w = pure a := if_pos rfl
  refine ⟨?_, ?_, ?_, fun hb => absurd rfl hb, fun hb => absurd rfl hb, ?_, ?_⟩
  · rw [hdiv]
    exact defined_pure _
  · rw [hrem]
    exact defined_pure _
  · rw [hrem, pure_value, BitVec.mul_zero, BitVec.zero_add]
  · intro _
    rw [hrem, pure_value, BitVec.toNat_zero, Nat.cast_zero, mul_zero, zero_add]
  · intro _
    rw [hdiv]
    rfl

/-- The unsigned helpers keep the law; their only irregular case is the divisor zero. -/
theorem unsignedLaw (a b : BitVec w) : UnsignedLaw rvDivuEval rvRemuEval a b := by
  by_cases hb : b = 0
  · rw [hb]
    exact unsignedLaw_zero a
  · exact unsignedLaw_of_divides a hb

/-! ## The eight helpers -/

/-- In every build the four divisions and remainders of registers, and their word forms,
keep the division law for every pair of operands, and evaluate no division that C leaves
undefined. -/
theorem division_law (b : Build) :
    (∀ x y : BitVec b.xlen, SignedLaw rvDivEval rvRemEval x y) ∧
      (∀ x y : BitVec b.xlen, UnsignedLaw rvDivuEval rvRemuEval x y) ∧
      (∀ x y : Word, SignedLaw rvDivwEval rvRemwEval x y) ∧
      ∀ x y : Word, UnsignedLaw rvDivuwEval rvRemuwEval x y := by
  have hxlen : 1 < b.xlen := by
    rcases b.xlen_eq with hxlen | hxlen <;> omega
  exact ⟨signedLaw hxlen, unsignedLaw, signedLaw (by norm_num), unsignedLaw⟩

end Rvem.Division
