import Rvem.Printf.FormatText

/-!
# Formats that end inside a conversion

`ADVANCE_IN_FORMAT_STRING` looks for the terminator, but `parse_flags` and `atou_` step
over characters without it.  A conversion that is cut off behind one of these is taken
for a conversion with the specifier `'\0'`, and the loop goes on behind the terminator.
-/

namespace Rvem.Cutoff

open Rvem.Arch
open Rvem.Gadget
open Rvem.PrintInteger
open Rvem.FormatLoop
open Rvem.Printing
open Rvem.Directives
open Rvem.Scanning
open Rvem.FormatText
open Rvem.Library.Numeral
open Rvem.Library.Transcript

variable {w : ℕ}

/-- Whether the last character is stepped over with `ADVANCE_IN_FORMAT_STRING`. -/
def widthNoticed : Width → Bool
  | .absent => false
  | .given _ _ _ => false
  | .star _ => true

/-- Whether the scan of a precision at the end of the format notices the terminator: it
looks behind a dot, a sign and a star, not behind a digit. -/
def precisionNoticed : Precision → Bool
  | .absent => false
  | .given zeros count _ => zeros == 0 && count == 0
  | .minus _ => true
  | .star _ => true

/-- Whether the end of a conversion that is cut off in front of its specifier is met by
`ADVANCE_IN_FORMAT_STRING`. -/
def noticed (layout : Layout) (length : Length) : Bool :=
  if length ≠ .int then true
  else if layout.precision.text ≠ [] then precisionNoticed layout.precision
  else if layout.width.text ≠ [] then widthNoticed layout.width
  else layout.flags.isEmpty

/-- How scanning ends at the terminator. -/
def Ends (result : Except Stop (Specifier w)) (noticed : Bool) : Prop :=
  if noticed then result = .error .returned
  else ∃ s, result = .ok s ∧ s.format = []

/-! ## The stages at the terminator -/

theorem advanceDigits_end (c : Byte) {digits : List Byte}
    (hdigits : ∀ c ∈ digits, isDigit c = true) :
    advanceDigits (c :: digits) = .error .returned := by
  induction digits generalizing c with
  | nil => rfl
  | cons d digits ih =>
      rw [advanceDigits, if_pos (hdigits d List.mem_cons_self)]
      exact ih d fun c hc => hdigits c (List.mem_cons_of_mem _ hc)

theorem parsePrecision_end {precision : Precision} {s : Specifier w} {args : List (Arg w)}
    (hformat : s.format = precision.text) (hargs : s.args = precision.args ++ args) :
    Ends (parsePrecision s) (precisionNoticed precision) := by
  cases precision with
  | absent =>
      refine ⟨s, ?_, hformat⟩
      rw [parsePrecision, hformat]
      rfl
  | given zeros count bounded =>
      have hatou := atou_decimal bounded zeros (rfl : isDigit (peek []) = false)
      have hdigits : ∀ c ∈ List.replicate zeros (decimalDigit 0) ++ decimal count,
          isDigit c = true := digits_given zeros count
      have hempty : precisionNoticed (.given zeros count bounded) = true ↔
          List.replicate zeros (decimalDigit 0) ++ decimal count = [] := by
        rw [List.append_eq_nil_iff, List.replicate_eq_nil_iff]
        simp only [precisionNoticed, Bool.and_eq_true, beq_iff_eq]
        refine and_congr_right fun _ => ⟨fun hzero => ?_, fun hnil => ?_⟩
        · rw [hzero, decimal, numeral_zero]
        · by_contra hcount
          exact numeral_ne_nil _ hcount hnil
      have hpeek : s.format =
          ch '.' :: (List.replicate zeros (decimalDigit 0) ++ decimal count) := hformat
      rw [List.append_nil] at hatou
      generalize List.replicate zeros (decimalDigit 0) ++ decimal count = digits
        at hpeek hdigits hatou hempty
      rw [Ends]
      cases digits with
      | nil =>
          rw [if_pos (hempty.mpr rfl), parsePrecision, hpeek]
          rfl
      | cons d digits =>
          have hd : isDigit d = true := hdigits d List.mem_cons_self
          rw [if_neg (fun hnoticed => List.cons_ne_nil _ _ (hempty.mp hnoticed)),
            parsePrecision_digit hpeek hd, hatou]
          exact ⟨_, rfl, rfl⟩
  | minus count =>
      change parsePrecision s = _
      rw [parsePrecision_minus hformat, advanceDigits_end _ (decimal_digits count)]
      rfl
  | star value =>
      change parsePrecision s = _
      rw [parsePrecision, hformat, hargs]
      rfl

theorem parseLength_end {length : Length} {s : Specifier w}
    (hformat : s.format = length.text) :
    Ends (parseLength s) (length ≠ .int) := by
  rw [parseLength, hformat]
  cases length with
  | int => exact ⟨s, rfl, hformat⟩
  | char | short | long | longLong | size | difference | maximum => rfl

/-- Only a length, and nothing behind it. -/
theorem behind_of_length {length : Length} (hlength : length ≠ .int) :
    Behind length.text := by
  cases length with
  | int => exact absurd rfl hlength
  | char | short | long | longLong | size | difference | maximum =>
      refine ⟨List.cons_ne_nil _ _, ?_⟩
      change Letter (ch _)
      decide

theorem Ends.bind {result : Except Stop (Specifier w)} {noticed : Bool}
    {next : Specifier w → Except Stop (Specifier w)} (hresult : Ends result noticed)
    (hnext : ∀ s, s.format = [] → Ends (next s) false) :
    Ends (do let s ← result; next s) noticed := by
  cases noticed with
  | true =>
      rw [show result = .error .returned from hresult]
      rfl
  | false =>
      obtain ⟨s, rfl, hformat⟩ := hresult
      exact hnext s hformat

theorem Ends.length {result : Except Stop (Specifier w)} {noticed : Bool}
    (hresult : Ends result noticed) : Ends (do let s ← result; parseLength s) noticed :=
  hresult.bind fun _ hformat => parseLength_end (show _ = Length.text .int from hformat)

theorem behindWidth_end (precision : Precision) : BehindWidth precision.text := by
  cases precision with
  | absent => exact ⟨by decide, rfl, by decide⟩
  | given | minus | star =>
      have hdot : ch '.' ∉ flagChars ∧ isDigit (ch '.') = false ∧ ch '.' ≠ ch '*' := by
        decide
      exact ⟨hdot.1, hdot.2.1, hdot.2.2⟩

/-- Scanning up to a width from the arguments. -/
theorem parseSpecifier_star (flags : List FlagChar) (value : BitVec 32) (rest : List Byte)
    (args : List (Arg w)) :
    parseSpecifier (ch '%' :: (flags.map FlagChar.char ++ ch '*' :: rest))
      (.int value :: args) =
      (orUndefined (if value.toInt < 0 then negated value else some value)).bind
        fun width => (advance (ch '*' :: rest)).bind fun format =>
          (parsePrecision
            { flags :=
                let flags := flags.foldl FlagChar.set {}
                if value.toInt < 0 then { flags with left := true } else flags
              width := width.toNat
              precision := 0
              format
              args }).bind parseLength := by
  have hinside : flags.map FlagChar.char ++ ch '*' :: rest ≠ [] :=
    List.append_ne_nil_of_right_ne_nil _ (List.cons_ne_nil _ _)
  have hnotflag : peek (ch '*' :: rest) ∉ flagChars := by
    change ch '*' ∉ flagChars
    decide
  rw [parseSpecifier, advance_cons _ hinside, ok_bind, parseFlags_append _ _ hnotflag]
  dsimp only
  rw [parseWidth_star rfl rfl]
  cases orUndefined (if value.toInt < 0 then negated value else some value) with
  | error stop => rfl
  | ok width =>
      change ((advance (ch '*' :: rest)).bind _ >>= _) = (advance (ch '*' :: rest)).bind _
      cases advance (ch '*' :: rest) with
      | error stop => rfl
      | ok format => rfl

/-- The smallest `int` as a width is negated before anything behind it is read. -/
theorem parseSpecifier_undefined {layout : Layout} (hundefined : ¬layout.width.Defined)
    (rest : List Byte) (args : List (Arg w)) :
    parseSpecifier (ch '%' :: (layout.text ++ rest)) (layout.args ++ args) =
      .error .undefined := by
  obtain ⟨flags, width, precision⟩ := layout
  cases width with
  | absent => exact absurd trivial hundefined
  | given => exact absurd trivial hundefined
  | star value =>
      obtain rfl : value = BitVec.intMin 32 := not_not.mp hundefined
      rw [Layout.text, List.append_assoc]
      exact parseSpecifier_star flags _ (precision.text ++ rest) (precision.args ++ args)

/-- Scanning a conversion that is cut off in front of its specifier. -/
theorem parseSpecifier_end (layout : Layout) (hdefined : layout.width.Defined)
    (length : Length) (args : List (Arg w)) :
    Ends (parseSpecifier (ch '%' :: (layout.text ++ length.text)) (layout.args ++ args))
      (noticed layout length) := by
  obtain ⟨flags, width, precision⟩ := layout
  by_cases hlength : length ≠ .int
  · have hend := parseLength_end (w := w)
      (s := scanned ⟨flags, width, precision⟩ .int length.text args) rfl
    rw [noticed, if_pos hlength,
      parseSpecifier_layout _ hdefined (behind_of_length hlength)]
    simpa [hlength] using hend
  · rw [not_not] at hlength
    subst hlength
    rw [noticed, if_neg (fun hnot => hnot rfl), Length.text, List.append_nil, Layout.text,
      Layout.args, List.append_assoc]
    dsimp only
    have hprecisionEnd := parsePrecision_end
      (s := scannedWidth flags width precision.text (precision.args ++ args)) rfl rfl
    by_cases hprecision : precision.text ≠ []
    · rw [if_pos hprecision, parseSpecifier_width _ hdefined (behindWidth_end precision)
        (List.append_ne_nil_of_right_ne_nil _
          (List.append_ne_nil_of_right_ne_nil _ hprecision))
        (.inl hprecision)]
      exact hprecisionEnd.length
    · rw [if_neg hprecision]
      cases precision with
      | given | minus | star => exact absurd (List.cons_ne_nil _ _) hprecision
      | absent =>
          by_cases hwidth : width.text ≠ []
          · rw [if_pos hwidth]
            cases width with
            | absent => exact absurd rfl hwidth
            | given count positive bounded =>
                have hinside :=
                  List.append_ne_nil_of_left_ne_nil hwidth (Precision.text .absent)
                rw [parseSpecifier_width _ hdefined (behindWidth_end .absent)
                  (List.append_ne_nil_of_right_ne_nil _ hinside)
                  (.inr fun _ hstar => Width.noConfusion hstar)]
                exact hprecisionEnd.length
            | star value =>
                obtain ⟨width, hwidth, -⟩ := negated_width hdefined
                change parseSpecifier (ch '%' :: (flags.map FlagChar.char ++ [ch '*']))
                  (.int value :: args) = _
                rw [parseSpecifier_star, hwidth]
                rfl
          · rw [if_neg hwidth]
            cases width with
            | given count positive bounded =>
                exact absurd (numeral_ne_nil _ (by omega)) hwidth
            | star value => exact absurd (List.cons_ne_nil _ _) hwidth
            | absent =>
                cases flags with
                | nil => rfl
                | cons flag flags =>
                    rw [parseSpecifier_width (flag ::
                      flags) hdefined (behindWidth_end .absent)
                      (by simp) (.inr fun _ hstar => Width.noConfusion hstar)]
                    exact hprecisionEnd.length

/-! ## The loop at the terminator -/

/-- A directive cut off by the end of the format prints nothing where the loop notices
it, and is undefined where the loop steps past the terminator. -/
theorem writes_end (layout : Layout) (length : Length) (args : List (Arg w)) (fuel : ℕ) :
    Writes putcharViaGadget
      (formatStringLoop (fuel + 1) (ch '%' ::
        (layout.text ++ length.text)) (layout.args ++ args))
      (if layout.width.Defined ∧ noticed layout length then some ([], ()) else none) := by
  rw [formatStringLoop, if_neg (fun hnot => hnot rfl)]
  by_cases hdefined : layout.width.Defined
  · have hend := parseSpecifier_end layout hdefined length args
    cases hnoticed : noticed layout length with
    | true =>
        rw [hnoticed] at hend
        rw [show parseSpecifier _ _ = .error .returned from hend, if_pos ⟨hdefined, rfl⟩]
        exact writes_pure ()
    | false =>
        rw [hnoticed] at hend
        obtain ⟨s, hs, hformat⟩ := hend
        rw [hs, if_neg fun hboth => Bool.false_ne_true hboth.2]
        change Writes _ (convert s >>= fun args => StateT.lift (next s.format) >>= _) none
        rw [hformat]
        exact bind_undefined (convert s)
  · rw [parseSpecifier_undefined hdefined, if_neg fun hboth => hdefined hboth.1]
    rfl

/-- A format that ends inside a conversion prints what is before it, if the last step over
a character looks for the terminator; else the loop reads behind the terminator.  A width
that cannot be negated is undefined in either case. -/
theorem formatStringLoop_cut (hw : w = 32 ∨ w = 64) {format : Format w}
    (hplain : format.Plain)
    (layout : Layout) (length : Length) (unused : List (Arg w)) {fuel : ℕ}
    (hfuel : format.length < fuel) :
    Writes putcharViaGadget
      (formatStringLoop fuel (format.text ++ ch '%' :: (layout.text ++ length.text))
        (format.args ++ (layout.args ++ unused)))
      (if layout.width.Defined ∧ noticed layout length then some (format.output, ())
      else none) := by
  obtain ⟨rest, hrest⟩ := Nat.exists_eq_add_of_lt hfuel
  obtain rfl : fuel = rest + 1 + format.length := by omega
  have hwrites := writes_format hw hplain (writes_end layout length unused rest)
  rw [behind] at hwrites
  split
  · next hnoticed =>
    rw [if_pos hnoticed, Option.map_some, List.append_nil] at hwrites
    exact hwrites
  · next hnoticed =>
    rw [if_neg hnoticed] at hwrites
    exact hwrites

end Rvem.Cutoff
