import Rvem.Isa.Values
import Rvem.Model.Evaluated

/-!
# The portable arithmetic shifts

`SRAW` and `SRA` put the sign fill together from logical shifts, with a case of its own
for the amount zero, whose fill would be shifted by the whole width.  They divide by a
power of two and round down, and what they evaluate is a shift C defines.
-/

namespace Rvem.Shift

open Rvem.Arch
open Rvem.Evaluated
open Rvem.Values
open Rvem.Library.HostArith
open Rvem.Library.HostArith.Logged
open Rvem.Library.FloorShift

variable {w : ℕ}

/-- `w - sh` is evaluated in the type of the amount, a signed or an unsigned one of any
width. -/
def AmountType (count : ℤ → Operation) : Prop :=
  ∃ width, count = .signed width ∨ count = .unsigned width

/-- Every shift evaluated has an amount below the width of its operand. -/
def ShiftsBelowWidth {A : Type} (e : Logged A) : Prop :=
  ∀ width amount, .shift width amount ∈ e.ops → amount < width

/-- What is asked of a portable shift of `w` bits; `eval` is the shift with the operations
it evaluates. -/
structure ExactShift (shift : BitVec w → ℕ → BitVec w)
    (eval : (ℤ → Operation) → BitVec w → ℕ → Logged (BitVec w)) : Prop where
  floor : ∀ val, ∀ sh < w, (shift val sh).toInt = ⌊(val.toInt : ℚ) / 2 ^ sh⌋
  value : ∀ count val sh, (eval count val sh).value = shift val sh
  shifts : ∀ count, AmountType count → ∀ val, ∀ sh < w,
    ShiftsBelowWidth (eval count val sh)
  compose : ∀ val, ∀ s < w, ∀ t < w,
    shift (shift val s) t = shift val (min (s + t) (w - 1))

/-- The operations of the shift; for the amount zero there are none. -/
theorem mem_sraEval_ops {count : ℤ → Operation} {val : BitVec w} {sh : ℕ} {op : Operation}
    (hop : op ∈ (sraEval count val sh).ops) :
    0 < sh ∧ (op = .shift w sh ∨ op = count (w - sh) ∨ op = .shift w (w - sh)) := by
  rw [sraEval] at hop
  split at hop
  · cases hop
  · next hzero =>
    refine ⟨Nat.pos_of_ne_zero hzero, ?_⟩
    split at hop
    · simpa [shr, shl, log] using hop
    · left
      simpa [shr] using hop

theorem sraEval_shifts {count : ℤ → Operation} (hcount : AmountType count)
    (val : BitVec w)
    {sh : ℕ} (hsh : sh < w) : ShiftsBelowWidth (sraEval count val sh) := by
  intro width amount hop
  obtain ⟨hpos, hshift | hcounted | hfill⟩ := mem_sraEval_ops hop
  · cases hshift
    exact hsh
  · obtain ⟨n, rfl | rfl⟩ := hcount
    · cases hcounted
    · cases hcounted
  · cases hfill
    omega

theorem exactShift_sra (hw : w = 32 ∨ w = 64) :
    ExactShift (sra : BitVec w → ℕ → BitVec w) sraEval where
  floor := roundsDown_sra hw
  value := sraEval_value
  shifts := fun _ hcount val _ hsh => sraEval_shifts hcount val hsh
  compose := fun val _ hs _ ht => (roundsDown_sra hw).shift_shift val hs ht

/-- `SRAW` in every build and `SRA` at the register width of the build are exact, for
every value and every amount below the width. -/
theorem portable_shifts_exact (b : Build) :
    ExactShift sraw srawEval ∧
      ExactShift (sra : BitVec b.xlen → ℕ → BitVec b.xlen) sraEval :=
  ⟨exactShift_sra (.inl rfl), exactShift_sra b.xlen_eq⟩

/-- A negative value at the last amount, and two shifts past it. -/
example : sraw 0x80000001#32 31 = 0xFFFFFFFF#32 ∧
    sraw (sraw 0x80000001#32 20) 20 = sraw 0x80000001#32 31 := by
  decide

end Rvem.Shift
