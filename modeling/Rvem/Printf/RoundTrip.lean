import Rvem.Printf.Calls

/-!
# Reading back a number

`atou_` reads the unsigned decimal numbers that `printf` prints, modulo `2 ^ 32`.  If no
spaces are asked for on the left, the digits stand at the start of the text, behind
zeros at most, so `atou_` finds them there.  It adds in 32 bits and stops at the spaces
on the right or at what follows.
-/

namespace Rvem.RoundTrip

open Rvem.Arch
open Rvem.Gadget
open Rvem.FormatLoop
open Rvem.FormatText
open Rvem.Directives
open Rvem.Scanning
open Rvem.Text
open Rvem.Library.Numeral

variable {w : ℕ}

/-! ## The text of an unsigned decimal conversion -/

section Form

variable {form : IntegerForm}

theorem digitOf_digitChar (upper : Bool) :
    ∀ d < 10, digitOf (Text.digitChar upper d) = some d := by
  cases upper <;> decide

/-- Zeros and digits, nothing else. -/
theorem body_unsigned (hradix : form.radix = .decimal) (hsigned : form.signed = false)
    (value : ℕ) : ∃ zeros, form.body false value =
      List.replicate zeros (ch '0') ++ form.numeral value := by
  have hsign : form.sign false = [] := by
    simp [IntegerForm.sign, hsigned]
  have hprefix : form.radixPrefix value = [] := by
    rw [IntegerForm.radixPrefix, hradix]
    exact ite_self _
  let padding := if form.zeroPadded then form.width - (form.digits value).length else 0
  have hbody : form.body false value =
      List.replicate padding (ch '0') ++ form.digits value := by
    rw [IntegerForm.body, hsign, hprefix]
    simp [padding]
  refine ⟨padding + (form.leastDigits value - (form.numeral value).length), ?_⟩
  rw [hbody, IntegerForm.digits, List.replicate_add, List.append_assoc]

/-- The text when nothing stands before the first digit. -/
theorem text_of_start {negative : Bool} {value : ℕ}
    (hstart : form.left = true ∨ form.width ≤ (form.body negative value).length) :
    form.text negative value = form.body negative value ++
      List.replicate (form.width - (form.body negative value).length) (ch ' ') := by
  rw [IntegerForm.text, justify]
  rcases hstart with hleft | hwidth
  · rw [hleft, if_pos rfl]
  · rw [Nat.sub_eq_zero_of_le hwidth, List.replicate_zero, List.append_nil,
      List.nil_append, ite_self]

theorem noDigit_spaces (count : ℕ) {rest : List Byte}
    (hrest : isDigit (peek rest) = false) :
    NoDigit digitOf (List.replicate count (ch ' ') ++ rest) := by
  cases count with
  | zero => exact noDigit_of_peek hrest
  | succ count =>
      intro c hc
      obtain rfl : ch ' ' = c := Option.some.inj hc
      decide

/-- Reading the text of an unsigned decimal conversion gives the number modulo `2 ^ 32`
and stops behind its last digit. -/
theorem atou_text (hradix : form.radix = .decimal) (hsigned : form.signed = false)
    {value : ℕ} (hstart : form.left = true ∨ form.width ≤ (form.body false value).length)
    {rest : List Byte} (hrest : isDigit (peek rest) = false) :
    atou 0 (form.text false value ++ rest) = (value % 2 ^ 32,
      List.replicate (form.width - (form.body false value).length) (ch ' ') ++ rest) := by
  obtain ⟨zeros, hbody⟩ := body_unsigned hradix hsigned value
  have hnumeral : form.numeral value = numeral 10 (Text.digitChar form.upper) value := by
    rw [IntegerForm.numeral, hradix]
    rfl
  have hscan :=
    scan_numeral (by decide : 1 < 10) (digitOf_digitChar form.upper) zeros value
    (noDigit_spaces (form.width - (form.body false value).length) hrest)
  have hzero : Text.digitChar form.upper 0 = ch '0' := by
    cases form.upper <;> decide
  rw [hzero, ← hnumeral, ← hbody] at hscan
  have hatou := atou_eq_scan 0 (form.text false value ++ rest)
  rw [text_of_start hstart, List.append_assoc, hscan] at hatou
  rw [text_of_start hstart, List.append_assoc]
  exact hatou

end Form

/-! ## The main result -/

/-- `printf` of an unsigned decimal conversion without spaces on the left, read by
`atou_`: the number modulo `2 ^ 32`, whatever the flags, zeros, length and padding, and
the reading stops at the spaces on the right or at what follows. -/
theorem atou_vprintf (hw : w = 32 ∨ w = 64) {conversion : IntegerConversion}
    (hletter : conversion.letter = .u)
    (hbody : (conversion.body w).length ≤ PrintInteger.integerBufferSize)
    (hlength : (conversion.output w).length ≤ maxPossibleBufferSize)
    (hstart : conversion.layout.left = true ∨
      conversion.layout.width.count ≤ (conversion.body w).length)
    (unused : List (Arg w)) {rest : List Byte} (hrest : isDigit (peek rest) = false) :
    let format : Format w := [.integer conversion]
    ∃ text,
      vprintf format.string (format.args ++ unused) = some (text, (text.length : ℤ)) ∧
        atou 0 (text ++ rest) =
          ((conversion.number.setWidth (conversion.length.bits w)).toNat % 2 ^ 32,
            List.replicate (conversion.layout.width.count - (conversion.body w).length)
            (ch ' ')
              ++ rest) := by
  intro format
  have houtput : format.output = conversion.output w := List.append_nil _
  have hsigned : conversion.letter.signed = false := by
    rw [hletter]
    rfl
  have hvalue : conversion.value w =
      (conversion.number.setWidth (conversion.length.bits w)).toNat := by
    rw [IntegerConversion.value, hsigned]
    rfl
  have hplain : format.Plain := by
    intro directive hdirective
    obtain rfl := List.mem_singleton.mp hdirective
    refine ⟨Width.defined_of_count ?_, ?_, hbody, ?_⟩
    · exact (Text.le_length_justify _ _ _).trans hlength
    · rw [hvalue]
      omega
    · intro hb
      rw [hletter] at hb
      cases hb
  have hnegative : conversion.negative w = false := by
    rw [IntegerConversion.negative, hvalue]
    exact decide_eq_false (not_lt.mpr (Int.natCast_nonneg _))
  have hmagnitude : conversion.magnitude w =
      (conversion.number.setWidth (conversion.length.bits w)).toNat := by
    rw [IntegerConversion.magnitude, hvalue, Int.natAbs_natCast]
  have hradix : conversion.form.radix = .decimal := by
    change conversion.letter.radix = _
    rw [hletter]
    rfl
  refine ⟨conversion.output w, ?_, ?_⟩
  · have hprints := Calls.vprintf_of_prints
      (prints_formatStringLoop hw hplain unused format.length_le) (by rwa [houtput])
    rwa [houtput] at hprints
  · rw [IntegerConversion.body, hnegative] at hstart ⊢
    rw [IntegerConversion.output, hnegative, ← hmagnitude]
    exact atou_text hradix hsigned hstart hrest

/-- `"%-12lu"` of 2 ^ 32 + 7, in front of a bar. -/
theorem atou_vprintf_wraps :
    let format : Format 64 :=
      [.integer ⟨⟨[.left], .given 12 (by decide) (by decide), .absent⟩, .long, .u,
        4294967303⟩]
    ∃ text, vprintf format.string [(.long 4294967303 : Arg 64)] =
        some (text, (text.length : ℤ)) ∧
      atou 0 (text ++ [ch '|']) = (7, [ch ' ', ch ' ', ch '|']) := by
  let conversion : IntegerConversion :=
    ⟨⟨[.left], .given 12 (by decide) (by decide), .absent⟩, .long, .u, 4294967303⟩
  have hletter : conversion.letter = .u := rfl
  have hrest : isDigit (peek [ch '|']) = false := by decide
  obtain ⟨text, hcall, hatou⟩ := atou_vprintf (.inr rfl) hletter (by decide) (by decide)
    (.inl rfl) ([] : List (Arg 64)) hrest
  have hread : ((conversion.number.setWidth (conversion.length.bits 64)).toNat % 2 ^ 32,
      List.replicate (conversion.layout.width.count - (conversion.body 64).length)
      (ch ' ')
        ++ [ch '|']) = (7, [ch ' ', ch ' ', ch '|']) := by decide
  exact ⟨text, hcall, hatou.trans hread⟩

end Rvem.RoundTrip
