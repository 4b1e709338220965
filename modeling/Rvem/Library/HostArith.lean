import Mathlib

/-!
# Arithmetic as C evaluates it

A computation in `Logged` carries, besides its value, the operations it evaluates,
each with its type.  `Operation.Defined` is C's rule for the operation: a signed
result in range, a divisor that is nonzero and does not overflow, a shift below the
width.  `Operation.Exact` is the stronger property that nothing wraps.
-/

namespace Rvem.Library.HostArith

/-- An operation whose operands can make it undefined, or an unsigned one that can wrap,
with what decides it. -/
inductive Operation
  | signed (width : ℕ) (result : ℤ)
  | unsigned (width : ℕ) (result : ℤ)
  | signedDivision (width : ℕ) (x y : ℤ)
  | unsignedDivision (divisor : ℕ)
  | shift (width amount : ℕ)
  deriving DecidableEq

/-- The values of a signed type. -/
def InRange (width : ℕ) (z : ℤ) : Prop :=
  -2 ^ (width - 1) ≤ z ∧ z < 2 ^ (width - 1)

instance (width : ℕ) (z : ℤ) : Decidable (InRange width z) :=
  inferInstanceAs (Decidable (_ ∧ _))

theorem ofInt_toNat {width : ℕ} (x : BitVec width) : BitVec.ofInt width x.toNat = x := by
  rw [BitVec.ofInt_natCast, BitVec.ofNat_toNat, BitVec.setWidth_eq]

/-- C defines the operation: no signed overflow, no division by zero or of the smallest
number by `-1`, no shift by the width or more. -/
def Operation.Defined : Operation → Prop
  | .signed width result => InRange width result
  | .unsigned _ _ => True
  | .signedDivision width x y => y ≠ 0 ∧ ¬(x = -2 ^ (width - 1) ∧ y = -1)
  | .unsignedDivision divisor => divisor ≠ 0
  | .shift width amount => amount < width

/-- The operation is defined and, if unsigned, does not wrap. -/
def Operation.Exact : Operation → Prop
  | .unsigned width result => 0 ≤ result ∧ result < 2 ^ width
  | op => op.Defined

/-! ## Computations -/

/-- A value together with the operations evaluated on the way to it. -/
structure Logged (A : Type*) where
  value : A
  ops : List Operation

instance : Monad Logged where
  pure a := ⟨a, []⟩
  bind e f := ⟨(f e.value).value, e.ops ++ (f e.value).ops⟩

namespace Logged

variable {A B : Type} {w v : ℕ}

@[simp]
theorem pure_value (a : A) : (pure a : Logged A).value = a := rfl

@[simp]
theorem bind_value (e : Logged A) (f : A → Logged B) :
    (e >>= f).value = (f e.value).value := rfl

@[simp]
theorem map_value (f : A → B) (e : Logged A) : (f <$> e).value = f e.value := rfl

@[simp]
theorem pure_ops (a : A) : (pure a : Logged A).ops = [] := rfl

@[simp]
theorem bind_ops (e : Logged A) (f : A → Logged B) :
    (e >>= f).ops = e.ops ++ (f e.value).ops := rfl

@[simp]
theorem map_ops (f : A → B) (e : Logged A) : (f <$> e).ops = e.ops :=
  List.append_nil e.ops

/-- Every operation evaluated is defined. -/
def Defined (e : Logged A) : Prop := ∀ op ∈ e.ops, op.Defined

/-- No operation evaluated wraps. -/
def Exact (e : Logged A) : Prop := ∀ op ∈ e.ops, op.Exact

@[simp]
theorem defined_pure (a : A) : (pure a : Logged A).Defined := by
  intro op hop
  cases hop

@[simp]
theorem defined_bind (e : Logged A) (f : A → Logged B) :
    (e >>= f).Defined ↔ e.Defined ∧ (f e.value).Defined :=
  List.forall_mem_append

@[simp]
theorem defined_map (f : A → B) (e : Logged A) : (f <$> e).Defined ↔ e.Defined := by
  rw [Defined, map_ops, Defined]

theorem Defined.ite {cond : Prop} [Decidable cond] {e e' : Logged A}
    (he : cond → e.Defined) (he' : ¬cond → e'.Defined) :
    (if cond then e else e').Defined := by
  by_cases h : cond
  · rw [if_pos h]
    exact he h
  · rw [if_neg h]
    exact he' h

@[simp]
theorem exact_bind (e : Logged A) (f : A → Logged B) :
    (e >>= f).Exact ↔ e.Exact ∧ (f e.value).Exact :=
  List.forall_mem_append

theorem Exact.defined {e : Logged A} (hexact : e.Exact) : e.Defined := by
  intro op hop
  have hop := hexact op hop
  cases op with
  | unsigned => trivial
  | signed | signedDivision | unsignedDivision | shift => exact hop

/-! ## Operations -/

/-- An operation whose value the computation does not use further. -/
def log (op : Operation) : Logged Unit :=
  ⟨(), [op]⟩

/-- `x + y` in the signed type. -/
def sadd (x y : BitVec w) : Logged (BitVec w) :=
  ⟨x + y, [.signed w (x.toInt + y.toInt)]⟩

def ssub (x y : BitVec w) : Logged (BitVec w) :=
  ⟨x - y, [.signed w (x.toInt - y.toInt)]⟩

def smul (x y : BitVec w) : Logged (BitVec w) :=
  ⟨x * y, [.signed w (x.toInt * y.toInt)]⟩

/-- `x / y` in the signed type. -/
def sdiv (x y : BitVec w) : Logged (BitVec w) :=
  ⟨x.sdiv y, [.signedDivision w x.toInt y.toInt]⟩

/-- `x % y` in the signed type. -/
def srem (x y : BitVec w) : Logged (BitVec w) :=
  ⟨x.srem y, [.signedDivision w x.toInt y.toInt]⟩

/-- `x + y` in the unsigned type. -/
def uadd (x y : BitVec w) : Logged (BitVec w) :=
  ⟨x + y, [.unsigned w (x.toNat + y.toNat)]⟩

def usub (x y : BitVec w) : Logged (BitVec w) :=
  ⟨x - y, [.unsigned w (x.toNat - y.toNat)]⟩

def umul (x y : BitVec w) : Logged (BitVec w) :=
  ⟨x * y, [.unsigned w (x.toNat * y.toNat)]⟩

def udiv (x y : BitVec w) : Logged (BitVec w) :=
  ⟨x / y, [.unsignedDivision y.toNat]⟩

def urem (x y : BitVec w) : Logged (BitVec w) :=
  ⟨x % y, [.unsignedDivision y.toNat]⟩

/-- `x << amount` in the unsigned type. -/
def shl (x : BitVec w) (amount : ℕ) : Logged (BitVec w) :=
  ⟨x <<< amount, [.shift w amount]⟩

def shr (x : BitVec w) (amount : ℕ) : Logged (BitVec w) :=
  ⟨x >>> amount, [.shift w amount]⟩

section Operations

variable (x y : BitVec w) (amount : ℕ)

@[simp] theorem sadd_value : (sadd x y).value = x + y := rfl
@[simp] theorem ssub_value : (ssub x y).value = x - y := rfl
@[simp] theorem srem_value : (srem x y).value = x.srem y := rfl
@[simp] theorem uadd_value : (uadd x y).value = x + y := rfl
@[simp] theorem umul_value : (umul x y).value = x * y := rfl
@[simp] theorem urem_value : (urem x y).value = x % y := rfl
@[simp] theorem shl_value : (shl x amount).value = x <<< amount := rfl
@[simp] theorem shr_value : (shr x amount).value = x >>> amount := rfl

/-- A single operation is defined when its rule holds. -/
theorem defined_single (a : A) (op : Operation) :
    (⟨a, [op]⟩ : Logged A).Defined ↔ op.Defined := by
  simp only [Defined, List.mem_singleton, forall_eq]

theorem exact_single (a : A) (op : Operation) :
    (⟨a, [op]⟩ : Logged A).Exact ↔ op.Exact := by
  simp only [Exact, List.mem_singleton, forall_eq]

@[simp]
theorem defined_log (op : Operation) : (log op).Defined ↔ op.Defined :=
  defined_single _ _

@[simp]
theorem defined_sadd : (sadd x y).Defined ↔ InRange w (x.toInt + y.toInt) :=
  defined_single _ _

@[simp]
theorem defined_ssub : (ssub x y).Defined ↔ InRange w (x.toInt - y.toInt) :=
  defined_single _ _

@[simp]
theorem defined_smul : (smul x y).Defined ↔ InRange w (x.toInt * y.toInt) :=
  defined_single _ _

@[simp]
theorem defined_sdiv : (sdiv x y).Defined ↔
    y.toInt ≠ 0 ∧ ¬(x.toInt = -2 ^ (w - 1) ∧ y.toInt = -1) :=
  defined_single _ _

@[simp]
theorem defined_srem : (srem x y).Defined ↔
    y.toInt ≠ 0 ∧ ¬(x.toInt = -2 ^ (w - 1) ∧ y.toInt = -1) :=
  defined_single _ _

@[simp]
theorem defined_umul : (umul x y).Defined ↔ True :=
  defined_single _ _

@[simp]
theorem defined_udiv : (udiv x y).Defined ↔ y.toNat ≠ 0 :=
  defined_single _ _

@[simp]
theorem defined_urem : (urem x y).Defined ↔ y.toNat ≠ 0 :=
  defined_single _ _

@[simp]
theorem defined_shl : (shl x amount).Defined ↔ amount < w :=
  defined_single _ _

@[simp]
theorem defined_shr : (shr x amount).Defined ↔ amount < w :=
  defined_single _ _

@[simp]
theorem exact_uadd : (uadd x y).Exact ↔ x.toNat + y.toNat < 2 ^ w := by
  rw [uadd, exact_single, Operation.Exact]
  norm_cast
  exact and_iff_right (Nat.zero_le _)

@[simp]
theorem exact_umul : (umul x y).Exact ↔ x.toNat * y.toNat < 2 ^ w := by
  rw [umul, exact_single, Operation.Exact]
  norm_cast
  exact and_iff_right (Nat.zero_le _)

@[simp]
theorem exact_shr : (shr x amount).Exact ↔ amount < w :=
  exact_single _ _

end Operations

end Logged

/-! ## Computations that can fail -/

/-- A computation that can index out of bounds; the operations up to there are kept. -/
structure Fallible (A : Type*) where
  value : Option A
  ops : List Operation

instance : Monad Fallible where
  pure a := ⟨some a, []⟩
  bind e f :=
    ⟨e.value.bind fun a => (f a).value, e.ops ++ e.value.elim [] fun a => (f a).ops⟩

instance : MonadLift Logged Fallible where
  monadLift e := ⟨some e.value, e.ops⟩

instance : MonadLift Option Fallible where
  monadLift found := ⟨found, []⟩

namespace Fallible

variable {A B : Type}

@[simp]
theorem pure_value (a : A) : (pure a : Fallible A).value = some a := rfl

@[simp]
theorem bind_value (e : Fallible A) (f : A → Fallible B) :
    (e >>= f).value = e.value.bind fun a => (f a).value := rfl

@[simp]
theorem liftLogged_value (e : Logged A) : (liftM e : Fallible A).value = some e.value :=
  rfl

@[simp]
theorem liftOption_value (found : Option A) : (liftM found : Fallible A).value = found :=
  rfl

/-- Every operation evaluated is defined. -/
def Defined (e : Fallible A) : Prop := ∀ op ∈ e.ops, op.Defined

@[simp]
theorem defined_pure (a : A) : (pure a : Fallible A).Defined := by
  intro op hop
  cases hop

@[simp]
theorem defined_bind (e : Fallible A) (f : A → Fallible B) :
    (e >>= f).Defined ↔ e.Defined ∧ ∀ a ∈ e.value, (f a).Defined := by
  refine List.forall_mem_append.trans (and_congr_right' ?_)
  cases e.value with
  | none => simp
  | some a => simp [Defined]

theorem Defined.ite {cond : Prop} [Decidable cond] {e e' : Fallible A}
    (he : cond → e.Defined) (he' : ¬cond → e'.Defined) :
    (if cond then e else e').Defined := by
  by_cases h : cond
  · rw [if_pos h]
    exact he h
  · rw [if_neg h]
    exact he' h

@[simp]
theorem defined_liftLogged (e : Logged A) : (liftM e : Fallible A).Defined ↔ e.Defined :=
  Iff.rfl

@[simp]
theorem defined_liftOption (found : Option A) : (liftM found : Fallible A).Defined := by
  intro op hop
  cases hop

end Fallible

end Rvem.Library.HostArith
