import Rvem.Printf.Conversions

/-!
# Formats

The loop over the format takes one pass for a directive.  What it prints for a format is
what C asks for, directive after directive.  A directive consumes its own arguments, so
the passes can be put together by induction on the list of directives.  Whatever is
behind the directives, a string or a directive that is cut off, is printed or undefined
after them.
-/

namespace Rvem.FormatText

open Rvem.Arch
open Rvem.Gadget
open Rvem.FormatLoop
open Rvem.Printing
open Rvem.Directives
open Rvem.Scanning
open Rvem.Conversions
open Rvem.Library.Transcript

variable {w : ℕ}

/-- What is printed behind `shown`, if that is defined. -/
def behind (shown : List Byte) (printed : Option (List Byte × Unit)) :
    Option (List Byte × Unit) :=
  printed.map fun found => (shown ++ found.1, found.2)

/-- A pass over a specifier. -/
theorem writes_pass {format rest : List Byte} {args : List (Arg w)} {s : Specifier w}
    {c : Byte}
    {remaining : List (Arg w)} {shown : List Byte} {printed : Option (List Byte × Unit)}
    {fuel : ℕ} (hscanned : parseSpecifier (ch '%' :: format) args = .ok s)
    (hformat : s.format = c :: rest) (hconvert : Prints (convert s) shown remaining)
    (hrest : Writes putcharViaGadget (formatStringLoop fuel rest remaining) printed) :
    Writes putcharViaGadget (formatStringLoop (fuel + 1) (ch '%' :: format) args)
      (behind shown printed) := by
  rw [formatStringLoop, if_neg (fun hnot => hnot rfl), hscanned]
  apply Writes.continue hconvert
  rw [hformat]
  exact hrest

/-- A specifier behind a layout and a length. -/
theorem writes_layout (layout : Layout) (hdefined : layout.width.Defined)
    (length : Length)
    {c : Byte} (hletter : Letter c) (hlength : c ∉ lengthChars)
    {args remaining : List (Arg w)} {shown rest : List Byte}
    {printed : Option (List Byte × Unit)} {fuel : ℕ}
    (hconvert : Prints (convert (scanned layout length (c :: rest) args)) shown remaining)
    (hrest : Writes putcharViaGadget (formatStringLoop fuel rest remaining) printed) :
    Writes putcharViaGadget
      (formatStringLoop (fuel + 1) (ch '%' :: (layout.text ++ (length.text ++ c :: rest)))
        (layout.args ++ args))
      (behind shown printed) :=
  writes_pass (parseSpecifier_text layout hdefined length hletter hlength rest args) rfl
    hconvert
    hrest

theorem letter_of_integerLetter (letter : IntegerLetter) :
    Letter letter.char ∧ letter.char ∉ lengthChars := by
  cases letter <;> decide

/-- One pass of the loop prints the text of its directive and leaves the rest of the
format and of the arguments to the passes behind it. -/
theorem writes_directive (hw : w = 32 ∨ w = 64) (directive : Directive w)
    (hplain : directive.Plain) {rest : List Byte} {args : List (Arg w)}
    {printed : Option (List Byte × Unit)} {fuel : ℕ}
    (hrest : Writes putcharViaGadget (formatStringLoop fuel rest args) printed) :
    Writes putcharViaGadget
      (formatStringLoop (fuel + 1) (directive.text ++ rest) (directive.args ++ args))
      (behind directive.output printed) := by
  cases directive with
  | literal c nonzero not_percent =>
      change Writes _ (formatStringLoop (fuel + 1) (c :: rest) args) (behind [c] printed)
      rw [formatStringLoop, if_pos not_percent]
      exact Writes.continue (prints_putchar c) hrest
  | percent =>
      exact writes_layout ⟨[], .absent, .absent⟩ trivial .int (by decide)
        (by decide) (prints_percent rest args) hrest
  | integer conversion =>
      obtain ⟨hletter, hlength⟩ := letter_of_integerLetter conversion.letter
      have hprinted :=
        writes_layout conversion.layout hplain.width conversion.length hletter
        hlength (prints_integer hw hplain rest args) hrest
      simpa [Directive.text, Directive.args, Directive.output] using hprinted
  | char layout value =>
      have hprinted := writes_layout layout hplain .int (by decide) (by decide)
        (prints_char layout value rest args) hrest
      simpa [Directive.text, Directive.args, Directive.output, Length.text] using hprinted
  | string layout chars beyond =>
      have hprinted := writes_layout layout hplain .int (by decide) (by decide)
        (prints_string layout chars beyond rest args) hrest
      simpa [Directive.text, Directive.args, Directive.output, Length.text] using hprinted
  | null layout =>
      have hprinted := writes_layout layout hplain .int (by decide) (by decide)
        (prints_null layout rest args) hrest
      simpa [Directive.text, Directive.args, Directive.output, Length.text] using hprinted
  | pointer left address =>
      have hprinted :=
        writes_layout (pointerLayout left) trivial .int (by decide) (by decide)
        (prints_pointer hw left address rest args) hrest
      cases left with
      | true => exact hprinted
      | false => exact hprinted
  | unknown layout letter =>
      have hprinted := writes_layout layout hplain .int letter.letter letter.not_length
        (prints_unknown layout letter rest args) hrest
      simpa [Directive.text, Directive.args, Directive.output, Length.text] using hprinted

/-- The directives of a format before any text: one pass for each of them. -/
theorem writes_format (hw : w = 32 ∨ w = 64) {format : Format w} (hplain : format.Plain)
    {rest : List Byte} {args : List (Arg w)} {printed : Option (List Byte × Unit)}
    {fuel : ℕ}
    (hrest : Writes putcharViaGadget (formatStringLoop fuel rest args) printed) :
    Writes putcharViaGadget
      (formatStringLoop (fuel + format.length) (format.text ++ rest) (format.args ++
        args))
      (behind format.output printed) := by
  induction format with
  | nil =>
      cases printed with
      | none => exact hrest
      | some found => exact hrest
  | cons directive format ih =>
      have hformat := ih fun later hlater => hplain later (List.mem_cons_of_mem _ hlater)
      have hprinted :=
        writes_directive hw directive (hplain directive List.mem_cons_self) hformat
      rw [← List.append_assoc, ← List.append_assoc, behind, behind,
        Option.map_map] at hprinted
      cases printed with
      | none => exact hprinted
      | some found =>
          rw [Option.map_some, Function.comp_apply, ← List.append_assoc] at hprinted
          exact hprinted

/-- The loop prints what C asks for; arguments that no directive consumes do
not matter. -/
theorem prints_formatStringLoop (hw : w = 32 ∨ w = 64) {format : Format w}
    (hplain : format.Plain) (unused : List (Arg w)) {fuel : ℕ}
    (hfuel : format.length ≤ fuel) :
    Prints (formatStringLoop fuel format.text (format.args ++ unused)) format.output
      () := by
  obtain ⟨rest, rfl⟩ := Nat.exists_eq_add_of_le' hfuel
  have hend : Prints (formatStringLoop rest [] unused) [] () := by
    cases rest with
    | zero => exact prints_return ()
    | succ rest => exact prints_return ()
  have hprinted := writes_format hw hplain hend
  rw [List.append_nil, behind, Option.map_some, List.append_nil] at hprinted
  exact hprinted

end Rvem.FormatText
