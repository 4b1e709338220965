import Rvem.Printf.AnyGadget
import Rvem.Printf.Delivery
import Rvem.Printf.StringReads

/-!
# The functions of the library

`printf` prints the text that C asks for and returns its length.  `snprintf` keeps as
much of the same text as its array and its count allow, terminates it, and returns the
length of the whole.  A format that ends within a directive, and a string without a
terminator, are printed or undefined by exact conditions.
-/

namespace Rvem.Calls

open Rvem.Arch
open Rvem.Gadget
open Rvem.FormatLoop
open Rvem.Printing
open Rvem.Delivery
open Rvem.AnyGadget
open Rvem.Directives
open Rvem.Scanning
open Rvem.FormatText
open Rvem.Cutoff
open Rvem.StringReads
open Rvem.Library.Transcript

variable {w : ℕ}

/-! ## One text on a gadget -/

/-- The body of all functions, when the loop prints `text`. -/
theorem impl_of_prints {format : CString} {args : List (Arg w)} {text : List Byte}
    (hprints : Prints (formatStringLoop format.chars.length format.chars args) text ())
    (gadget : OutputGadget) :
    vsnprintfImpl format args gadget =
      (do putAll putcharViaGadget text; appendTerminationWithGadget) gadget >>=
        fun found => some (found.2.pos.toInt, found.2) := by
  have hloop : formatStringLoop format.chars.length format.chars args =
      (do putAll putcharViaGadget text; return ()) := hprints
  rw [vsnprintfImpl, hloop]
  change (putAll putcharViaGadget text gadget >>= _) >>= _ =
    (putAll putcharViaGadget text gadget >>= _) >>= _
  cases putAll putcharViaGadget text gadget with
  | none => rfl
  | some found =>
      change (appendTerminationWithGadget found.2 >>= _) =
        (appendTerminationWithGadget found.2 >>= _)
      rfl

/-- A text that fits the gadget is delivered with its terminator, and its length is
returned. -/
theorem impl_delivered {format : CString} {args : List (Arg w)} {text : List Byte}
    (hprints : Prints (formatStringLoop format.chars.length format.chars args) text ())
    {gadget : OutputGadget} (hroom : Room gadget (text.length + 1))
    (hlength : text.length ≤ maxPossibleBufferSize) :
    vsnprintfImpl format args gadget =
      some ((text.length : ℤ), terminatedGadget gadget text) := by
  have hwrap : text.length < 2 ^ 31 := by
    rw [maxPossibleBufferSize] at hlength
    omega
  have hput := putAll_delivered hroom [] text (by simp) (by simp; omega)
  rw [delivered_nil hroom.start, List.nil_append] at hput
  have hpos : (terminatedGadget gadget text).pos.toInt = text.length := by
    have hsame : (terminatedGadget gadget text).pos = BitVec.ofNat 32 text.length := by
      rw [terminatedGadget]
      split
      · rfl
      · rfl
    rw [hsame, BitVec.toInt_eq_toNat_cond, BitVec.toNat_ofNat]
    omega
  rw [impl_of_prints hprints]
  change (putAll putcharViaGadget text gadget >>= fun found =>
    appendTerminationWithGadget found.2) >>= _ = _
  rw [hput]
  change (appendTerminationWithGadget (delivered gadget text)) >>= _ = _
  rw [append_delivered hroom (by omega)]
  change some ((terminatedGadget gadget text).pos.toInt, _) = _
  rw [hpos]

/-- A loop that is undefined makes the call undefined, on every gadget. -/
theorem impl_undefined {format : CString} {args : List (Arg w)}
    (hundefined : formatStringLoop format.chars.length format.chars args = undefined)
    (gadget : OutputGadget) : vsnprintfImpl format args gadget = none := by
  rw [vsnprintfImpl, hundefined]
  rfl

/-! ## `printf` -/

theorem room_function (count : ℕ) : Room functionGadget count :=
  ⟨rfl, nofun⟩

/-- `printf` hands over the text of the loop and returns its length. -/
theorem vprintf_of_prints {format : CString} {args : List (Arg w)} {text : List Byte}
    (hprints : Prints (formatStringLoop format.chars.length format.chars args) text ())
    (hlength : text.length ≤ maxPossibleBufferSize) :
    vprintf format args = some (text, (text.length : ℤ)) := by
  have himpl := impl_delivered hprints (room_function _) hlength
  rw [vprintf, externPutcharGadget, himpl]
  change some (text.take maxPossibleBufferSize, _) = _
  rw [List.take_of_length_le hlength]

/-- A gadget with a function takes every text. -/
theorem putAll_function (text : List Byte) (gadget : OutputGadget)
    (hfunction : gadget.function = true) :
    ∃ after, putAll putcharViaGadget text gadget = some ((), after) ∧
      after.function = true := by
  induction text generalizing gadget with
  | nil => exact ⟨gadget, rfl, hfunction⟩
  | cons c text ih =>
      obtain ⟨middle, hc, hmiddle⟩ : ∃ middle,
          putcharViaGadget c gadget = some ((), middle) ∧ middle.function = true := by
        simp only [putcharViaGadget, hfunction, if_true]
        split
        · exact ⟨_, rfl, rfl⟩
        · exact ⟨_, rfl, rfl⟩
      obtain ⟨after, hrest, hafter⟩ := ih middle hmiddle
      refine ⟨after, ?_, hafter⟩
      change (putcharViaGadget c gadget >>= fun found =>
        putAll putcharViaGadget text found.2) = _
      rw [hc]
      exact hrest

/-- The function is only called more often. -/
theorem putchar_called {c : Byte} {gadget after : OutputGadget}
    (hput : putcharViaGadget c gadget = some ((), after)) :
    gadget.called.length ≤ after.called.length := by
  simp only [putcharViaGadget] at hput
  split at hput
  · cases hput
    rfl
  · split at hput
    · cases hput
      simp
    · cases hstore : storeChar gadget.buffer gadget.pos.toNat c with
      | none =>
          rw [hstore] at hput
          cases hput
      | some chars =>
          rw [hstore] at hput
          cases hput
          rfl

theorem append_called {gadget after : OutputGadget}
    (happend : appendTerminationWithGadget gadget = some ((), after)) :
    after.called = gadget.called := by
  simp only [appendTerminationWithGadget] at happend
  split at happend
  · cases happend
    rfl
  · split at happend
    · cases happend
      rfl
    · obtain ⟨chars, -, hafter⟩ := Option.bind_eq_some_iff.mp happend
      cases hafter
      rfl

theorem putAll_called {text : List Byte} {gadget after : OutputGadget}
    (hput : putAll putcharViaGadget text gadget = some ((), after)) :
    gadget.called.length ≤ after.called.length := by
  induction text generalizing gadget with
  | nil =>
      cases hput
      rfl
  | cons c text ih =>
      change (putcharViaGadget c gadget >>= fun found =>
        putAll putcharViaGadget text found.2) = some ((), after) at hput
      obtain ⟨⟨_, middle⟩, hc, hrest⟩ := Option.bind_eq_some_iff.mp hput
      exact (putchar_called hc).trans (ih hrest)

/-- A text that `INT_MAX` does not bound fills what is kept of it. -/
theorem vprintf_long {format : CString} {args : List (Arg w)} {text : List Byte}
    (hprints : Prints (formatStringLoop format.chars.length format.chars args) text ())
    (hlong : maxPossibleBufferSize ≤ text.length) {shown : List Byte} {result : ℤ}
    (hcall : vprintf format args = some (shown, result)) :
    maxPossibleBufferSize ≤ shown.length := by
  have hfront : (text.take maxPossibleBufferSize).length = maxPossibleBufferSize := by
    rw [List.length_take]
    omega
  have hput := putAll_delivered (room_function maxPossibleBufferSize) []
    (text.take maxPossibleBufferSize) (by simp)
    (by rw [List.nil_append, hfront, maxPossibleBufferSize]; omega)
  rw [delivered_nil rfl, List.nil_append] at hput
  rw [vprintf, externPutcharGadget, impl_of_prints hprints] at hcall
  obtain ⟨⟨_, gadget⟩, himpl, hshown⟩ := Option.bind_eq_some_iff.mp hcall
  obtain ⟨⟨_, after⟩, hbody, hafter⟩ := Option.bind_eq_some_iff.mp himpl
  cases hafter
  cases hshown
  rw [← List.take_append_drop maxPossibleBufferSize text, putAll_append] at hbody
  obtain ⟨⟨_, middle⟩, htext, happend⟩ := Option.bind_eq_some_iff.mp hbody
  obtain ⟨⟨_, front⟩, htake, hrest⟩ := Option.bind_eq_some_iff.mp htext
  rw [hput] at htake
  cases htake
  have hcalled := putAll_called hrest
  rw [append_called happend]
  refine le_trans (le_of_eq ?_) hcalled
  change _ = (text.take maxPossibleBufferSize |>.take maxPossibleBufferSize).length
  rw [List.take_take, min_self, hfront]

/-- What `printf` prints, if it is short, is what the loop prints. -/
theorem prints_of_vprintf {format : CString} {args : List (Arg w)} {text : List Byte}
    {result : ℤ} (hcall : vprintf format args = some (text, result))
    (hlength : text.length < maxPossibleBufferSize) :
    Prints (formatStringLoop format.chars.length format.chars args) text () := by
  obtain ⟨printed, hprinted⟩ :=
    oblivious_formatStringLoop format.chars.length format.chars args
  cases printed with
  | none =>
      rw [vprintf, impl_undefined hprinted] at hcall
      cases hcall
  | some found =>
      obtain ⟨shown, _⟩ := found
      by_cases hlong : maxPossibleBufferSize ≤ shown.length
      · have hmost := vprintf_long hprinted hlong hcall
        omega
      · rw [vprintf_of_prints hprinted (by omega)] at hcall
        cases hcall
        exact hprinted

/-! ## `snprintf` -/

theorem bufferGadget_eq (chars : List Byte) (n : ℕ) :
    bufferGadget (some chars) n =
      { discardingGadget with
        buffer := some chars
        maxChars := min n maxPossibleBufferSize } := by
  have husable : (if maxPossibleBufferSize < n then maxPossibleBufferSize else n) =
      min n maxPossibleBufferSize := by
    split
    · omega
    · omega
  rw [bufferGadget, if_pos (Option.some_ne_none _), husable]

/-- `snprintf` stores the first characters of the text and a terminator if the array has
room for them, and is undefined if not; it returns the length of the text either way. -/
theorem vsnprintf_of_prints {format : CString} {args : List (Arg w)} {text : List Byte}
    (hprints : Prints (formatStringLoop format.chars.length format.chars args) text ())
    (hlength : text.length ≤ maxPossibleBufferSize) (chars : List Byte) {n : ℕ}
    (hn : n ≠ 0) :
    vsnprintf (some chars) n format args =
      let most := min n maxPossibleBufferSize
      if min most (text.length + 1) ≤ chars.length then
        some (some (terminated most text chars), (text.length : ℤ))
      else none := by
  have hmost : min n maxPossibleBufferSize ≠ 0 := by
    rw [maxPossibleBufferSize]
    omega
  rw [vsnprintf, bufferGadget_eq]
  dsimp only
  split
  · next hroom =>
    rw [impl_delivered hprints ⟨rfl, fun _ _ => ⟨chars, rfl, hroom⟩⟩ hlength,
      terminatedGadget, if_neg (by simpa [discardingGadget] using hmost)]
    rfl
  · next hshort =>
    have houtside := overflow { discardingGadget with
      buffer := some chars
      maxChars := min n maxPossibleBufferSize } text rfl rfl rfl (by dsimp only; omega)
      (by rw [maxPossibleBufferSize] at hlength; omega)
    rw [impl_of_prints hprints, houtside]
    rfl

/-- Without a buffer, or with one of no size, the characters are only counted. -/
theorem vsnprintf_counts {format : CString} {args : List (Arg w)} {text : List Byte}
    (hprints : Prints (formatStringLoop format.chars.length format.chars args) text ())
    (hlength : text.length ≤ maxPossibleBufferSize) {s : Option (List Byte)} {n : ℕ}
    (hnothing : s = none ∨ n = 0) :
    vsnprintf s n format args = some (s, (text.length : ℤ)) := by
  have hgadget : bufferGadget s n = { discardingGadget with buffer := s } := by
    cases s with
    | none => rfl
    | some chars =>
        have hn : n = 0 := hnothing.resolve_left (Option.some_ne_none _)
        rw [bufferGadget_eq, hn]
        rfl
  have hroom : Room { discardingGadget with buffer := s } (text.length + 1) :=
    ⟨rfl, fun _ hmost => absurd rfl hmost⟩
  rw [vsnprintf, hgadget, impl_delivered hprints hroom hlength, terminatedGadget,
    if_pos (.inr rfl)]
  cases s with
  | none => rfl
  | some chars =>
      change some (some (written 0 text chars), _) = _
      rw [written, List.take_zero, Nat.min_zero, List.drop_zero, List.nil_append]

/-- Where `printf` is undefined, so is `snprintf`. -/
theorem vsnprintf_undefined {format : CString} {args : List (Arg w)}
    (hnone : vprintf format args = none) (s : Option (List Byte)) (n : ℕ) :
    vsnprintf s n format args = none := by
  obtain ⟨printed, hprinted⟩ :=
    oblivious_formatStringLoop format.chars.length format.chars args
  cases printed with
  | none => rw [vsnprintf, impl_undefined hprinted]; rfl
  | some found =>
      obtain ⟨after, hput, hfunction⟩ := putAll_function found.1 functionGadget rfl
      rw [vprintf, externPutcharGadget, impl_of_prints hprinted] at hnone
      change (((putAll putcharViaGadget found.1 functionGadget >>= fun found =>
        appendTerminationWithGadget found.2) >>= _) >>= _) = none at hnone
      rw [hput] at hnone
      change ((appendTerminationWithGadget after >>= _) >>= _) = none at hnone
      rw [appendTerminationWithGadget, if_pos (.inl hfunction)] at hnone
      cases hnone

/-- `snprintf` writes what `printf` prints, up to its size, and counts all of it.  It is
undefined only where the array ends before the size and before the terminator. -/
theorem vsnprintf_of_vprintf {format : CString} {args : List (Arg w)} {text : List Byte}
    {result : ℤ} (hcall : vprintf format args = some (text, result))
    (hlength : text.length < maxPossibleBufferSize) :
    result = text.length ∧
      (∀ n, vsnprintf none n format args = some (none, result)) ∧
      ∀ chars n, vsnprintf (some chars) n format args =
        let most := min n maxPossibleBufferSize
        if n = 0 then some (some chars, result)
        else if min most (text.length + 1) ≤ chars.length then
          some (some (terminated most text chars), result)
        else none := by
  have hprints := prints_of_vprintf hcall hlength
  rw [vprintf_of_prints hprints hlength.le] at hcall
  cases hcall
  refine ⟨rfl, fun n => vsnprintf_counts hprints hlength.le (.inl rfl), fun chars n => ?_⟩
  dsimp only
  split
  · next hn => exact vsnprintf_counts hprints hlength.le (.inr hn)
  · next hn => exact vsnprintf_of_prints hprints hlength.le chars hn

/-- `"ab%x"` of 255 in an array of five, with a size of four. -/
theorem vsnprintf_truncates :
    vsnprintf (some [1, 2, 3, 4, 5]) 4
      ⟨[ch 'a', ch 'b', ch '%', ch 'x'], by decide⟩ [(.int 255 : Arg 32)] =
        some (some [ch 'a', ch 'b', ch 'f', 0, 5], 4) :=
  have hcall :
      vprintf ⟨[ch 'a', ch 'b', ch '%', ch 'x'], by decide⟩ [(.int 255 : Arg 32)] =
      some ([ch 'a', ch 'b', ch 'f', ch 'f'], 4) := by decide
  (vsnprintf_of_vprintf hcall (by decide)).2.2 [1, 2, 3, 4, 5] 4

/-- `sprintf` has the size `INT_MAX`: it writes all of the text, or leaves an array that
is too short. -/
theorem vsprintf_of_vprintf {format : CString} {args : List (Arg w)} {text : List Byte}
    {result : ℤ} (hcall : vprintf format args = some (text, result))
    (hlength : text.length < maxPossibleBufferSize) (chars : List Byte) :
    vsprintf (some chars) format args =
      if text.length + 1 ≤ chars.length then
        some (some (terminated maxPossibleBufferSize text chars), result)
      else none := by
  have hprints := prints_of_vprintf hcall hlength
  have hsize : maxPossibleBufferSize ≠ 0 := by
    rw [maxPossibleBufferSize]
    omega
  rw [vprintf_of_prints hprints hlength.le] at hcall
  cases hcall
  rw [vsprintf, vsnprintf_of_prints hprints hlength.le chars hsize]
  simp only [min_self, min_eq_right (Nat.succ_le_of_lt hlength)]

/-! ## Formats of directives -/

/-- `fctprintf` calls its function with the characters that C asks for, one after the
other; without a function it does nothing, whatever the format is. -/
theorem vfctprintf_format (hw : w = 32 ∨ w = 64) {format : Format w}
    (hplain : format.Plain) (hlength : format.output.length ≤ maxPossibleBufferSize)
    (unused : List (Arg w)) (out : Bool) :
    vfctprintf out format.string (format.args ++ unused) =
      some (if out then (format.output, (format.output.length : ℤ)) else ([], 0)) := by
  have hprints := prints_formatStringLoop hw hplain unused format.length_le
  cases out with
  | true => exact vprintf_of_prints hprints hlength
  | false => rfl

/-- `printf` prints what C asks for and returns how many characters that are. -/
theorem vprintf_format (hw : w = 32 ∨ w = 64) {format : Format w} (hplain : format.Plain)
    (hlength : format.output.length ≤ maxPossibleBufferSize) (unused : List (Arg w)) :
    vprintf format.string (format.args ++ unused) =
      some (format.output, (format.output.length : ℤ)) :=
  vprintf_of_prints (prints_formatStringLoop hw hplain unused format.length_le) hlength

/-- `"x%-+5hhd%%"` of 200, which is -56 as a `signed char`. -/
theorem vprintf_signed_char :
    vprintf (Format.string (w := 64)
        [.literal (ch 'x') (by decide) (by decide),
          .integer ⟨⟨[.left, .plus], .given 5 (by decide) (by decide), .absent⟩, .char,
            .d, 200⟩,
          .percent]) [(.int 200 : Arg 64)] =
      some ([ch 'x', ch '-', ch '5', ch '6', ch ' ', ch ' ', ch '%'], 7) := by
  let format : Format 64 :=
    [.literal (ch 'x') (by decide) (by decide),
      .integer ⟨⟨[.left, .plus], .given 5 (by decide) (by decide), .absent⟩, .char,
        .d, 200⟩,
      .percent]
  have houtput : format.output =
      [ch 'x', ch '-', ch '5', ch '6', ch ' ', ch ' ', ch '%'] := by decide
  have hplain : format.Plain := by
    simp only [format, Format.Plain, List.forall_mem_cons, Directive.Plain]
    exact ⟨trivial, ⟨trivial, by decide, by decide, by decide⟩, trivial, by simp⟩
  have hcall := vprintf_format (.inr rfl) hplain (by rw [houtput]; decide) []
  rw [houtput] at hcall
  exact hcall

/-- A format that ends inside a conversion prints what is before it, if the last character
is stepped over with `ADVANCE_IN_FORMAT_STRING`.  Behind a flag or a digit it is
undefined, as the loop then reads behind the terminator, and so is every width from the
arguments that cannot be negated. -/
theorem vprintf_cut (hw : w = 32 ∨ w = 64) {format : Format w} (hplain : format.Plain)
    (hlength : format.output.length ≤ maxPossibleBufferSize) (layout : Layout)
    (length : Length) (unused : List (Arg w)) {string : CString}
    (hstring : string.chars = format.text ++ ch '%' :: (layout.text ++ length.text)) :
    vprintf string (format.args ++ (layout.args ++ unused)) =
      if layout.width.Defined ∧ noticed layout length then
        some (format.output, (format.output.length : ℤ))
      else none := by
  have hfuel : format.length < string.chars.length := by
    have hle := format.length_le
    change format.length ≤ format.text.length at hle
    rw [hstring, List.length_append, List.length_cons]
    omega
  have hwrites := formatStringLoop_cut hw hplain layout length unused hfuel
  rw [← hstring] at hwrites
  split
  · next hnoticed =>
    rw [if_pos hnoticed] at hwrites
    exact vprintf_of_prints hwrites hlength
  · next hnoticed =>
    rw [if_neg hnoticed] at hwrites
    rw [vprintf, impl_undefined hwrites]
    rfl

/-- `"a%5"` reads behind its terminator. -/
theorem vprintf_cut_width :
    vprintf ⟨[ch 'a', ch '%', ch '5'], by decide⟩ ([] : List (Arg 32)) = none :=
  have hplain :
      Format.Plain ([.literal (ch 'a') (by decide) (by decide)] : Format 32) := by
    simp [Format.Plain, Directive.Plain]
  vprintf_cut (.inl rfl) hplain (by decide)
    ⟨[], .given 5 (by decide) (by decide), .absent⟩ .int [] (by decide)

/-- `%s` at the end of a format reads up to the terminator of an array, or up to one
character behind the precision; without either in the array it is undefined. -/
theorem vprintf_string (hw : w = 32 ∨ w = 64) {format : Format w} (hplain : format.Plain)
    (layout : Layout) {chars : List Byte}
    (hbounded : chars.length ≤ maxPossibleBufferSize)
    (hlength : (format.output ++ layout.justify (layout.cut (stringOf chars))).length ≤
      maxPossibleBufferSize)
    (unused : List (Arg w)) {string : CString}
    (hstring : string.chars = format.text ++ ch '%' :: (layout.text ++ [ch 's'])) :
    vprintf string (format.args ++ (layout.args ++ .string (some chars) :: unused)) =
      if ReadsInside layout chars then
        let text := format.output ++ layout.justify (layout.cut (stringOf chars))
        some (text, (text.length : ℤ))
      else none := by
  have hfuel : format.length + 1 ≤ string.chars.length := by
    have hle := format.length_le
    change format.length ≤ format.text.length at hle
    rw [hstring, List.length_append, List.length_cons]
    omega
  obtain ⟨rest, hrest⟩ := Nat.exists_eq_add_of_le' hfuel
  have hdefined : layout.width.Defined := by
    have hfield := Text.le_length_justify layout.left layout.width.count
      (layout.cut (stringOf chars))
    rw [List.length_append] at hlength
    exact Width.defined_of_count (hfield.trans (le_of_add_le_right hlength))
  have hwrites := writes_format hw hplain
    (writes_specifier hdefined (writes_string layout hbounded [] unused) rest)
  rw [← hstring, Nat.add_assoc, Nat.add_comm 1, ← hrest] at hwrites
  split
  · next hinside =>
    rw [if_pos hinside] at hwrites
    exact vprintf_of_prints hwrites hlength
  · next houtside =>
    rw [if_neg houtside] at hwrites
    rw [vprintf, impl_undefined hwrites]
    rfl

/-- `"%.2s"` of two characters without a terminator. -/
theorem vprintf_string_unterminated :
    vprintf ⟨[ch '%', ch '.', ch '2', ch 's'], by decide⟩
      [(.string (some [ch 'a', ch 'b']) : Arg 32)] = none :=
  have hplain : Format.Plain ([] : Format 32) := nofun
  have hbounded : [ch 'a', ch 'b'].length ≤ maxPossibleBufferSize := by decide
  vprintf_string (.inl rfl) hplain ⟨[], .absent,
    .given 0 2 (by decide)⟩ hbounded (by decide) []
    (by decide)

end Rvem.Calls
