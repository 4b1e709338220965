import Rvem.Printf.FormatLoop
import Rvem.Printf.Printing

/-!
# Formats on any gadget

Whatever the format and its arguments, the loop either is undefined on every gadget or
prints the same text on all of them.  All output goes through `putchar_via_gadget`, and
nothing of the gadget is read before it is handed over.  This holds of every stage down
to the conversions, irregular directives included, and is what allows `snprintf` to be
compared with `printf`.
-/

namespace Rvem.AnyGadget

open Rvem.Arch
open Rvem.Gadget
open Rvem.PrintInteger
open Rvem.FormatLoop
open Rvem.Printing
open Rvem.Library.Transcript

variable {w : ℕ} {A B : Type}

/-- The program is undefined on every gadget, or prints one text on all of them. -/
def Oblivious (program : Print A) : Prop :=
  ∃ printed, Writes putcharViaGadget program printed

theorem oblivious_return (value : A) : Oblivious (return value) :=
  ⟨_, writes_pure value⟩

theorem oblivious_undefined : Oblivious (undefined : Print A) :=
  ⟨_, writes_undefined⟩

theorem oblivious_lift (found : Option A) : Oblivious (StateT.lift found) :=
  ⟨_, writes_lift found⟩

theorem oblivious_putchar (c : Byte) : Oblivious (putcharViaGadget c) :=
  ⟨_, writes_put c⟩

/-- Programs in a row write the same on every gadget if each of them does. -/
theorem Oblivious.bind {program : Print A} {next : A → Print B}
    (hprogram : Oblivious program)
    (hnext : ∀ value, Oblivious (next value)) : Oblivious (program >>= next) := by
  obtain ⟨printed, hprinted⟩ := hprogram
  choose continued hcontinued using hnext
  exact ⟨_, hprinted.bind hcontinued⟩

theorem Oblivious.andThen {program : Print A} {next : Print B}
    (hprogram : Oblivious program)
    (hnext : Oblivious next) : Oblivious (do let _ ← program; next) :=
  hprogram.bind fun _ => hnext

theorem oblivious_ite {condition : Prop} [Decidable condition] {left right : Print A}
    (hleft : Oblivious left) (hright : Oblivious right) :
    Oblivious (if condition then left else right) := by
  split
  · exact hleft
  · exact hright

/-! ## Integers -/

theorem oblivious_putSpaces (count : ℕ) : Oblivious (putSpaces count) :=
  ⟨_, prints_putSpaces count⟩

theorem oblivious_putReversed (buf : List Byte) (len : ℕ) :
    Oblivious (putReversed buf len) := by
  induction len with
  | zero => exact oblivious_return ()
  | succ len ih =>
      exact (oblivious_lift _).bind fun c => (oblivious_putchar c).andThen ih

theorem oblivious_outRev (buf : List Byte) (width : ℕ) (flags : Flags) :
    Oblivious (outRev buf buf.length width flags) := by
  cases hleft : flags.left with
  | true =>
      rw [outRev_left buf width hleft]
      exact (oblivious_putReversed buf _).andThen (oblivious_putSpaces _)
  | false =>
      have hrest : Oblivious (do
          putReversed buf buf.length
          return ()) := (oblivious_putReversed buf _).andThen (oblivious_return ())
      have hbody : outRev buf buf.length width flags =
          if !flags.zeropad then (do
            putSpaces (width - buf.length)
            putReversed buf buf.length
            return ())
          else (do
            putReversed buf buf.length
            return ()) := by
        rw [outRev, hleft]
        cases flags.zeropad with
        | true => rfl
        | false => rfl
      rw [hbody]
      exact oblivious_ite ((oblivious_putSpaces _).andThen hrest) hrest

theorem oblivious_finalization (buf : List Byte) (negative : Bool)
    (base precision width : ℕ) (flags : Flags) :
    Oblivious (printIntegerFinalization buf negative base precision width flags) :=
  (oblivious_lift _).bind fun _ => (oblivious_lift _).bind fun _ =>
    (oblivious_lift _).bind fun _ => oblivious_outRev _ _ _

theorem oblivious_printInteger (value : ℕ) (negative : Bool) (base precision width : ℕ)
    (flags : Flags) :
    Oblivious (printInteger value negative base precision width flags) := by
  rw [printInteger]
  apply oblivious_ite
  · apply oblivious_ite
    · exact (oblivious_lift _).bind fun _ => oblivious_finalization _ _ _ _ _ _
    · exact oblivious_ite (oblivious_finalization _ _ _ _ _ _)
        (oblivious_finalization _ _ _ _ _ _)
  · exact (oblivious_lift _).bind fun _ => oblivious_finalization _ _ _ _ _ _

/-! ## Conversions -/

theorem oblivious_convertSigned (s : Specifier w) (base : ℕ) (flags : Flags) :
    Oblivious (convertSigned s base flags) := by
  have hprint (magnitude : Option ℕ) (negative : Bool) (args : List (Arg w)) :
      Oblivious (do
        let magnitude ← StateT.lift magnitude
        printInteger magnitude negative base s.precision s.width flags
        return args) :=
    (oblivious_lift _).bind fun _ =>
      (oblivious_printInteger _ _ _ _ _ _).andThen (oblivious_return _)
  rw [convertSigned]
  apply oblivious_ite
  · exact (oblivious_lift _).bind fun _ => hprint _ _ _
  · apply oblivious_ite
    · exact (oblivious_lift _).bind fun _ => hprint _ _ _
    · exact (oblivious_lift _).bind fun _ => hprint _ _ _

theorem oblivious_convertUnsigned (s : Specifier w) (base : ℕ) (flags : Flags) :
    Oblivious (convertUnsigned s base flags) := by
  rw [convertUnsigned]
  apply oblivious_ite
  · exact (oblivious_lift _).bind fun _ =>
      (oblivious_printInteger _ _ _ _ _ _).andThen (oblivious_return _)
  · apply oblivious_ite
    · exact (oblivious_lift _).bind fun _ =>
        (oblivious_printInteger _ _ _ _ _ _).andThen (oblivious_return _)
    · exact (oblivious_lift _).bind fun _ =>
        (oblivious_printInteger _ _ _ _ _ _).andThen (oblivious_return _)

/-- Spaces, if any, before a program. -/
theorem oblivious_padding {program : Print A} (condition : Bool) (spaces : ℕ)
    (hprogram : Oblivious program) :
    Oblivious (if condition then (do putSpaces spaces; program) else program) :=
  oblivious_ite ((oblivious_putSpaces spaces).andThen hprogram) hprogram

theorem oblivious_convertChar (s : Specifier w) : Oblivious (convertChar s) :=
  oblivious_padding _ _ ((oblivious_lift _).bind fun _ => (oblivious_putchar _).andThen
    (oblivious_padding _ _ (oblivious_return _)))

theorem oblivious_putString (flags : Flags) (chars : List Byte) (precision : ℕ) :
    Oblivious (putString flags chars precision) := by
  induction chars generalizing precision with
  | nil => exact oblivious_undefined
  | cons c chars ih =>
      exact oblivious_ite ((oblivious_putchar c).andThen (ih _)) (oblivious_return ())

theorem oblivious_convertString (s : Specifier w) : Oblivious (convertString s) := by
  refine (oblivious_lift _).bind fun found => ?_
  obtain ⟨p, args⟩ := found
  cases p with
  | none => exact (oblivious_outRev nullText _ _).andThen (oblivious_return _)
  | some chars =>
      exact (oblivious_lift _).bind fun _ => oblivious_padding _ _
        ((oblivious_putString _ _ _).andThen (oblivious_padding _ _ (oblivious_return _)))

theorem oblivious_convertPointer (s : Specifier w) : Oblivious (convertPointer s) := by
  refine (oblivious_lift _).bind fun found => ?_
  exact oblivious_ite ((oblivious_outRev nilText _ _).andThen (oblivious_return _))
    ((oblivious_printInteger _ _ _ _ _ _).andThen (oblivious_return _))

/-- Every conversion prints through `putchar_via_gadget` alone. -/
theorem oblivious_convert (s : Specifier w) : Oblivious (convert s) := by
  rw [convert]
  apply oblivious_ite
  · exact oblivious_ite (oblivious_convertSigned _ _ _) (oblivious_convertUnsigned _ _ _)
  · apply oblivious_ite (oblivious_convertChar s)
    apply oblivious_ite (oblivious_convertString s)
    apply oblivious_ite (oblivious_convertPointer s)
    exact oblivious_ite ((oblivious_putchar _).andThen (oblivious_return _))
      ((oblivious_putchar _).andThen (oblivious_return _))

/-! ## The loop -/

/-- What the format loop prints depends on the format and the arguments, never on the
gadget behind it. -/
theorem oblivious_formatStringLoop (fuel : ℕ) (format : List Byte) (args : List (Arg w)) :
    Oblivious (formatStringLoop fuel format args) := by
  induction fuel generalizing format args with
  | zero =>
      cases format with
      | nil => exact oblivious_return ()
      | cons c format => exact oblivious_undefined
  | succ fuel ih =>
      cases format with
      | nil => exact oblivious_return ()
      | cons c format =>
          apply oblivious_ite
          · exact (oblivious_putchar c).andThen (ih format args)
          · cases parseSpecifier (c :: format) args with
            | error stop =>
                cases stop with
                | undefined => exact oblivious_undefined
                | returned => exact oblivious_return ()
            | ok s =>
                exact (oblivious_convert s).bind fun _ => (oblivious_lift _).bind fun _ =>
                  ih _ _

end Rvem.AnyGadget
