import Rvem.Printf.Cutoff

/-!
# What `%s` reads

`strnlen_s_` and the loop over the string test a character before they test the
precision, so one character behind the precision is read.  With a terminator in the
array the string before it is printed, cut at the precision.  Without one, the call
reads up to the precision and one further, and is undefined exactly if that is outside.
-/

namespace Rvem.StringReads

open Rvem.Arch
open Rvem.Gadget
open Rvem.PrintInteger
open Rvem.FormatLoop
open Rvem.Printing
open Rvem.Directives
open Rvem.Scanning
open Rvem.Conversions
open Rvem.FormatText
open Rvem.Library.Transcript

variable {w : ℕ}

/-- Without a terminator the count stops at the maximum if that is inside the array, and
runs out of it if not. -/
theorem strnlenS_unterminated {chars : List Byte} (hchars : 0 ∉ chars) (maxsize : ℕ) :
    strnlenS chars maxsize = if maxsize < chars.length then some maxsize else none := by
  induction chars generalizing maxsize with
  | nil => rfl
  | cons c chars ih =>
      have hc : c ≠ 0 := fun hzero => hchars (hzero ▸ List.mem_cons_self)
      rw [strnlenS]
      cases maxsize with
      | zero => rw [if_neg (by simp), if_pos (by simp)]
      | succ maxsize =>
          rw [if_pos ⟨hc, Nat.succ_ne_zero _⟩,
            ih (fun hzero => hchars (List.mem_cons_of_mem _ hzero)), List.length_cons,
            Nat.add_sub_cancel]
          by_cases hinside : maxsize < chars.length
          · rw [if_pos hinside, if_pos (by omega)]
            rfl
          · rw [if_neg hinside, if_neg (by omega)]
            rfl

theorem prints_unterminated {chars : List Byte} (hchars : 0 ∉ chars) {flags : Flags}
    (hgiven : flags.precision = true) {precision : ℕ}
    (hinside : precision < chars.length) :
    Prints (putString flags chars precision) (chars.take precision) () := by
  induction chars generalizing precision with
  | nil => cases hinside
  | cons c chars ih =>
      have hc : c ≠ 0 := fun hzero => hchars (hzero ▸ List.mem_cons_self)
      rw [putString]
      cases precision with
      | zero =>
          rw [if_neg (by simp [hgiven])]
          exact prints_return ()
      | succ precision =>
          rw [if_pos ⟨hc, .inr (Nat.succ_ne_zero _)⟩]
          exact (prints_putchar c).andThen
            (ih (fun hzero => hchars (List.mem_cons_of_mem _ hzero))
              (Nat.lt_of_succ_lt_succ hinside))

/-- The characters of an array up to its terminator. -/
def stringOf (chars : List Byte) : List Byte :=
  chars.takeWhile (· ≠ 0)

/-- Whether `%s` stays inside an array: there is a terminator, or a precision and a
character behind it. -/
def ReadsInside (layout : Layout) (chars : List Byte) : Prop :=
  0 ∈ chars ∨ ∃ most, layout.precision.value = some most ∧ 0 < most ∧ most < chars.length

instance readsInside_decidable (layout : Layout) (chars : List Byte) :
    Decidable (ReadsInside layout chars) :=
  inferInstanceAs (Decidable (_ ∨ _))

/-- An array with a terminator is its string, the terminator and what is behind. -/
theorem split_terminated {chars : List Byte} (hchars : 0 ∈ chars) :
    ∃ beyond, chars = stringOf chars ++ 0 :: beyond ∧ 0 ∉ stringOf chars := by
  induction chars with
  | nil => cases hchars
  | cons c chars ih =>
      by_cases hc : c = 0
      · subst hc
        exact ⟨chars, by simp [stringOf], by simp [stringOf]⟩
      · obtain ⟨beyond, hsplit, hnonzero⟩ :=
          ih ((List.mem_cons.mp hchars).resolve_left fun hzero => hc hzero.symm)
        have hcons : stringOf (c :: chars) = c :: stringOf chars := by
          rw [stringOf, List.takeWhile_cons_of_pos (by simpa using hc)]
          rfl
        refine ⟨beyond, ?_, ?_⟩
        · rw [hcons, List.cons_append, ← hsplit]
        · rw [hcons, List.mem_cons, not_or]
          exact ⟨fun hzero => hc hzero.symm, hnonzero⟩

theorem stringOf_unterminated {chars : List Byte} (hchars : 0 ∉ chars) :
    stringOf chars = chars := by
  rw [stringOf, List.takeWhile_eq_self_iff]
  intro c hc
  simpa using fun hzero : c = 0 => hchars (hzero ▸ hc)

/-- The length of the string as `%s` asks for it. -/
theorem convertString_undefined {s : Specifier w} {chars : List Byte}
    {args : List (Arg w)} (hargs : s.args = .string (some chars) :: args)
    (hlength : strnlenS chars
      (if s.precision ≠ 0 then s.precision else maxPossibleBufferSize) =
      none) : convertString s = undefined := by
  have hread : (StateT.lift (vaString (.string (some chars) :: args)) :
      Print (Option (List Byte) × List (Arg w))) = return (some chars, args) := rfl
  rw [convertString, hargs, hread, pure_bind]
  dsimp only
  rw [hlength]
  rfl

theorem prints_string_unterminated {layout : Layout} {chars : List Byte}
    (hchars : 0 ∉ chars)
    {most : ℕ} (hvalue : layout.precision.value = some most) (hpositive : 0 < most)
    (hinside : most < chars.length) (rest : List Byte) (args : List (Arg w)) :
    Prints (convert (scanned layout .int (ch 's' :: rest) (.string (some chars) :: args)))
      (layout.justify (layout.cut chars)) args := by
  have hgiven : (parsed layout).precision = true := by
    change layout.precision.value.isSome = true
    rw [hvalue]
    rfl
  have hlength : strnlenS chars (if layout.precision.value.getD 0 ≠ 0 then
      layout.precision.value.getD 0 else maxPossibleBufferSize) = some most := by
    rw [hvalue, Option.getD_some, if_pos hpositive.ne', strnlenS_unterminated hchars,
      if_pos hinside]
  have hprinted := (prints_padded layout.left layout.width.count
    (prints_unterminated hchars hgiven hinside)).andThen (prints_return args)
  have hcut : layout.cut chars = chars.take most := by rw [Layout.cut, hvalue]
  have htake : (chars.take most).length = most := by
    rw [List.length_take]
    omega
  rw [List.append_nil, htake] at hprinted
  change Prints (convertString _) _ _
  rw [convertString_eq rfl hlength, hcut]
  change Prints (do
    padded layout.left (layout.width.count - if (parsed layout).precision then
      (if most < layout.precision.value.getD 0 then most
        else layout.precision.value.getD 0)
      else most)
      (putString (parsed layout) chars (layout.precision.value.getD 0))
    return args) _ _
  rw [hvalue, Option.getD_some, ite_self, ite_self]
  exact hprinted

/-- `%s` on an array with or without a terminator. -/
theorem writes_string (layout : Layout) {chars : List Byte}
    (hbounded : chars.length ≤ maxPossibleBufferSize) (rest : List Byte)
    (args : List (Arg w)) :
    Writes putcharViaGadget
      (convert (scanned layout .int (ch 's' :: rest) (.string (some chars) :: args)))
      (if ReadsInside layout chars then
        some (layout.justify (layout.cut (stringOf chars)), args)
      else none) := by
  by_cases hchars : 0 ∈ chars
  · obtain ⟨beyond, hsplit, hnonzero⟩ := split_terminated hchars
    have hshort : (stringOf chars).length ≤ maxPossibleBufferSize := by
      have hlength := congrArg List.length hsplit
      rw [List.length_append] at hlength
      omega
    have hprinted :=
      prints_string layout ⟨⟨stringOf chars, hnonzero⟩, hshort⟩ beyond rest args
    rw [if_pos (.inl hchars)]
    rw [← hsplit] at hprinted
    exact hprinted
  · rw [stringOf_unterminated hchars]
    by_cases hinside : ∃ most, layout.precision.value = some most ∧ 0 < most ∧
        most < chars.length
    · obtain ⟨most, hvalue, hpositive, hshort⟩ := hinside
      rw [if_pos (.inr ⟨most, hvalue, hpositive, hshort⟩)]
      exact prints_string_unterminated hchars hvalue hpositive hshort rest args
    · have houtside : ¬ReadsInside layout chars := not_or.mpr ⟨hchars, hinside⟩
      rw [if_neg houtside]
      refine convertString_undefined rfl ?_
      change strnlenS chars (if layout.precision.value.getD 0 ≠ 0 then
        layout.precision.value.getD 0 else maxPossibleBufferSize) = none
      rw [strnlenS_unterminated hchars, if_neg]
      split
      · next hnonzero =>
        cases hvalue : layout.precision.value with
        | none =>
            rw [hvalue] at hnonzero
            exact absurd rfl hnonzero
        | some most =>
            rw [hvalue] at hnonzero
            rw [Option.getD_some] at hnonzero ⊢
            exact fun hless => hinside ⟨most, hvalue, Nat.pos_of_ne_zero hnonzero, hless⟩
      · omega

/-- A specifier at the end of the format. -/
theorem writes_specifier {layout : Layout} (hdefined : layout.width.Defined)
    {args remaining : List (Arg w)} {shown : List Byte} {inside : Prop} [Decidable inside]
    (hconvert : Writes putcharViaGadget (convert (scanned layout .int [ch 's'] args))
      (if inside then some (shown, remaining) else none)) (fuel : ℕ) :
    Writes putcharViaGadget
      (formatStringLoop (fuel + 1) (ch '%' :: (layout.text ++ [ch 's'])) (layout.args ++
        args))
      (if inside then some (shown, ()) else none) := by
  have hscanned :=
    parseSpecifier_text (w := w) layout hdefined .int (c := ch 's') (by decide)
    (by decide) [] args
  change parseSpecifier (ch '%' :: (layout.text ++ [ch 's'])) (layout.args ++ args) =
    _ at hscanned
  split
  · next hinside =>
    rw [if_pos hinside] at hconvert
    have hend : Prints (formatStringLoop fuel [] remaining) [] () := by
      cases fuel with
      | zero => exact prints_return ()
      | succ fuel => exact prints_return ()
    have hpass := writes_pass hscanned rfl hconvert hend
    rwa [behind, Option.map_some, List.append_nil] at hpass
  · next houtside =>
    rw [if_neg houtside] at hconvert
    rw [formatStringLoop, if_neg (fun hnot => hnot rfl), hscanned]
    change (convert _ >>= _) = _
    rw [show convert _ = undefined from hconvert]
    rfl

end Rvem.StringReads
