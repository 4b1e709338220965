import Rvem.Printf.Printing

/-!
# The conversion buffer

`print_integer` pushes characters while the buffer has room, so what it holds is always
the front of what was pushed.  Each stage of `print_integer_finalization` is described
by what it pushes.  Zeros, prefix and sign follow the digits in reverse order.  The
prefix is the one stage that takes characters back, where a field is already full, and
then what was pushed before decides what is lost.
-/

namespace Rvem.Finalization

open Rvem.Arch
open Rvem.Gadget
open Rvem.PrintInteger
open Rvem.Printing
open Rvem.Library.Transcript

/-- What the buffer holds after the characters of `text` are pushed while there
is room. -/
def filled (text : List Byte) : List Byte :=
  text.take integerBufferSize

theorem length_filled (text : List Byte) :
    (filled text).length = min integerBufferSize text.length :=
  List.length_take

theorem filled_append_of_full {text : List Byte} (hfull : integerBufferSize ≤ text.length)
    (rest : List Byte) : filled (text ++ rest) = filled text :=
  List.take_append_of_le_length hfull

theorem filled_of_fits {text : List Byte} (hfits : text.length ≤ integerBufferSize) :
    filled text = text :=
  List.take_of_length_le hfits

theorem pushIfRoom_filled (text : List Byte) (c : Byte) :
    pushIfRoom (filled text) c = some (filled (text ++ [c])) := by
  rw [pushIfRoom, push]
  by_cases hroom : text.length < integerBufferSize
  · have hlength : (filled text).length < integerBufferSize := by
      rw [length_filled]
      omega
    rw [if_pos hlength, if_pos hlength, filled_of_fits hroom.le, filled_of_fits]
    rw [List.length_append, List.length_singleton]
    omega
  · have hlength : ¬(filled text).length < integerBufferSize := by
      rw [length_filled]
      omega
    rw [if_neg hlength, filled_append_of_full (by omega)]

theorem pushZeros_filled (text : List Byte) (passes : ℕ) :
    pushZeros (filled text) passes =
      some (filled (text ++ List.replicate passes (ch '0'))) := by
  induction passes generalizing text with
  | zero => rw [pushZeros, List.replicate_zero, List.append_nil]
  | succ passes ih =>
      have hpush := pushIfRoom_filled text (ch '0')
      rw [pushIfRoom] at hpush
      rw [pushZeros]
      split
      · next hroom =>
        rw [if_pos hroom] at hpush
        rw [hpush]
        change pushZeros _ passes = _
        rw [ih, List.append_assoc]
        rfl
      · next hroom =>
        rw [length_filled] at hroom
        rw [filled_append_of_full (by omega)]
        rfl

/-- The loop `while (len < limit)`. -/
theorem pushZeros_upTo (text : List Byte) (limit : ℕ) :
    pushZeros (filled text) (limit - (filled text).length) =
      some (filled (text ++ List.replicate (limit - text.length) (ch '0'))) := by
  rw [pushZeros_filled]
  by_cases hroom : text.length ≤ integerBufferSize
  · rw [filled_of_fits hroom]
  · rw [filled_append_of_full (by omega), filled_append_of_full (by omega)]

/-- The digits are pushed in reverse as long as there is room in the buffer. -/
theorem pushDigits_filled {base : ℕ} (hbase : 1 < base) (flags : Flags) {room value : ℕ}
    (hvalue : value ≠ 0) {buf : List Byte}
    (hroom : buf.length + room = integerBufferSize) :
    pushDigits base flags room value buf =
      some (filled (buf ++ (Nat.digits base value).map (digitChar flags))) := by
  induction room generalizing value buf with
  | zero => rw [pushDigits, filled_append_of_full (by omega), filled_of_fits (by omega)]
  | succ room ih =>
      have hlength : buf.length < integerBufferSize := by omega
      have hdigits := Nat.digits_def' hbase (Nat.pos_of_ne_zero hvalue)
      have hnext : (buf ++ [digitChar flags (value % base)]).length + room =
          integerBufferSize := by
        rw [List.length_append, List.length_singleton]
        omega
      rw [pushDigits, push, if_pos hlength, hdigits, List.map_cons]
      change (if _ then _ else _) = _
      split
      · next hmore =>
        rw [ih hmore.1 hnext, List.append_assoc]
        rfl
      · next hdone =>
        have hrest : (filled (buf ++ [digitChar flags (value % base)] ++
            (Nat.digits base (value / base)).map (digitChar flags))) =
              buf ++ [digitChar flags (value % base)] := by
          by_cases hzero : value / base = 0
          · rw [hzero, Nat.digits_zero, List.map_nil, List.append_nil,
              filled_of_fits (by omega)]
          · have hfull := not_and.mp hdone hzero
            rw [filled_append_of_full (by omega), filled_of_fits (by omega)]
        rw [List.append_assoc] at hrest
        exact congrArg some hrest.symm

/-! ## The stages after the digits -/

/-- The width without the room of a sign before the zeros. -/
def zerosWidth (negative : Bool) (width : ℕ) (flags : Flags) : ℕ :=
  if !flags.left ∧ width ≠ 0 ∧ flags.zeropad ∧ (negative ∨ flags.plus ∨ flags.space) then
    width - 1
  else width

/-- How many zeros are pushed after `count` digits. -/
def zerosAfter (negative : Bool) (precision width count : ℕ) (flags : Flags) : ℕ :=
  if flags.zeropad && !flags.left then zerosWidth negative width flags - count
  else precision - count

theorem padZeros_filled (text : List Byte) (negative : Bool) {base precision width : ℕ}
    {flags : Flags} (hprecision : flags.zeropad = true → precision = 0) :
    padZeros (filled text) negative base precision width flags =
      let padded := filled
        (text ++
          List.replicate (zerosAfter negative precision width text.length flags) (ch '0'))
      some (padded, zerosWidth negative width flags,
        if base = baseOctal ∧ (filled text).length < padded.length then
          { flags with hash := false }
        else flags) := by
  rw [padZeros, zerosAfter, zerosWidth]
  cases hleft : flags.left with
  | true =>
      simp only [Bool.not_true, Bool.false_eq_true, if_false, false_and, Bool.and_false]
      change (pushZeros _ _ >>= fun buf => _) = _
      rw [pushZeros_upTo]
      rfl
  | false =>
      cases hzero : flags.zeropad with
      | true =>
          simp only [Bool.not_false, if_true, true_and, Bool.and_true]
          rw [hprecision hzero]
          simp only [pushZeros_upTo, Nat.zero_sub, pushZeros]
          rfl
      | false =>
          simp only [Bool.not_false, if_true, Bool.false_eq_true, if_false, false_and,
            and_false, Bool.false_and]
          change (pushZeros _ _ >>= fun buf => _) = _
          rw [pushZeros_upTo]
          rfl

/-- The character of the prefix after its zero. -/
def radixChar (base : ℕ) (flags : Flags) : Byte :=
  if base = baseBinary then ch 'b' else if flags.uppercase then ch 'X' else ch 'x'

theorem pushRadix_filled {base : ℕ} (hbase : base = baseHex ∨ base = baseBinary)
    (text : List Byte) (flags : Flags) :
    pushRadix (filled text) base flags =
      some (filled (text ++ [radixChar base flags])) := by
  have hpush := pushIfRoom_filled text (radixChar base flags)
  rw [pushIfRoom] at hpush
  rw [pushRadix, ← hpush]
  rcases hbase with rfl | rfl
  · cases hupper : flags.uppercase with
    | true => simp [hupper, radixChar, baseHex, baseBinary]
    | false => simp [hupper, radixChar, baseHex, baseBinary]
  · simp [radixChar, baseHex, baseBinary]

theorem pushRadix_octal (buf : List Byte) (flags : Flags) :
    pushRadix buf baseOctal flags = some buf := by
  simp [pushRadix, baseOctal, baseHex, baseBinary]

/-- Without padding there is nothing to take back. -/
theorem takeBack_unpadded {buf : List Byte} {unpaddedLen : ℕ} (base precision width : ℕ)
    (flags : Flags) (hpadded : flags.precision = true ∨ buf.length ≤ unpaddedLen) :
    takeBack buf unpaddedLen base precision width flags = buf := by
  rw [takeBack]
  rcases hpadded with hprecision | hlength
  · rw [if_neg (by simp [hprecision])]
  · have hnot : ¬unpaddedLen < buf.length := by omega
    simp only [hnot, if_false, and_false, ite_self]

/-- In a field padded with zeros, two of them make room for the prefix. -/
theorem takeBack_zeros {text : List Byte} {base width : ℕ} {flags : Flags}
    (hbase : base = baseHex ∨ base = baseBinary) (hprecision : flags.precision = false)
    (hshort : text.length < width) :
    takeBack
      (text ++ List.replicate (width - text.length) (ch '0')) text.length base 0 width
        flags =
      text ++ List.replicate (width - (text.length + 2)) (ch '0') := by
  have hdrop : ∀ count, (text ++ List.replicate (count + 1) (ch '0')).dropLast =
      text ++ List.replicate count (ch '0') := by
    intro count
    rw [List.dropLast_append_of_ne_nil (by simp), List.dropLast_replicate]
    rfl
  have hlonger : ∀ count, text.length <
      (text ++ List.replicate (count + 1) (ch '0')).length := by
    intro count
    rw [List.length_append, List.length_replicate]
    omega
  obtain ⟨count, rfl⟩ : ∃ count, width = text.length + (count + 1) :=
    ⟨width - text.length - 1, by omega⟩
  rw [takeBack, Nat.add_sub_cancel_left, if_pos (by simp [hprecision])]
  dsimp only
  rw [if_pos (hlonger count), hdrop]
  cases count with
  | zero =>
      rw [List.replicate_zero, List.append_nil,
        if_neg (fun hless => lt_irrefl _ hless.2.2)]
      simp
  | succ count =>
      have hlength := hlonger count
      rw [if_pos ⟨by omega, hbase, hlength⟩, hdrop]
      congr 2
      omega

theorem pushPrefix_of_not_hash (buf : List Byte) (unpaddedLen base precision width : ℕ)
    {flags : Flags} (hhash : flags.hash = false) (hpointer : flags.pointer = false) :
    pushPrefix buf unpaddedLen base precision width flags = some buf := by
  rw [pushPrefix, if_neg (by simp [hhash, hpointer])]
  rfl

theorem pushPrefix_octal (text : List Byte) (precision width : ℕ) {flags : Flags}
    (hhash : flags.hash = true) :
    pushPrefix (filled text) (filled text).length baseOctal precision width flags =
      some (filled (text ++ [ch '0'])) := by
  rw [pushPrefix, if_pos (.inl hhash), takeBack_unpadded _ _ _ _ (.inr le_rfl),
    pushRadix_octal]
  exact pushIfRoom_filled text (ch '0')

/-- The prefix after `text`, when nothing is taken back. -/
theorem pushPrefix_of_takeBack {buf text : List Byte}
    {unpaddedLen base precision width : ℕ}
    {flags : Flags} (hhash : flags.hash = true ∨ flags.pointer = true)
    (hbase : base = baseHex ∨ base = baseBinary)
    (htaken : takeBack buf unpaddedLen base precision width flags = filled text) :
    pushPrefix buf unpaddedLen base precision width flags =
      some (filled (text ++ [radixChar base flags, ch '0'])) := by
  rw [pushPrefix, if_pos hhash, htaken, pushRadix_filled hbase]
  change pushIfRoom _ _ = _
  rw [pushIfRoom_filled, List.append_assoc]
  rfl

/-- In a field padded with zeros the prefix takes the place of two of them.  A field of 33
characters fills the buffer before the prefix, of which a character would fit. -/
theorem pushPrefix_zeropad (text : List Byte) {base width : ℕ} {flags : Flags}
    (hhash : flags.hash = true ∨ flags.pointer = true)
    (hprecision : flags.precision = false)
    (hbase : base = baseHex ∨ base = baseBinary)
    (hwidth : width ≠ integerBufferSize + 1) :
    pushPrefix (filled (text ++ List.replicate (width - text.length) (ch '0')))
        (filled text).length base 0 width flags =
      some (filled (text ++ List.replicate (width - (text.length + 2)) (ch '0')
        ++ [radixChar base flags, ch '0'])) := by
  by_cases hshort : text.length < width
  · by_cases hfits : width ≤ integerBufferSize
    · have hlength :
          (text ++ List.replicate (width - text.length) (ch '0')).length = width := by
        rw [List.length_append, List.length_replicate]
        omega
      apply pushPrefix_of_takeBack hhash hbase
      rw [filled_of_fits (by omega),
        filled_of_fits (by omega : text.length ≤ integerBufferSize),
        takeBack_zeros hbase hprecision hshort, filled_of_fits]
      rw [List.length_append, List.length_replicate]
      omega
    · have hzeros : text ++ List.replicate (width - text.length) (ch '0') =
          text ++ List.replicate (width - (text.length + 2)) (ch '0') ++
            List.replicate (width - text.length - (width - (text.length + 2)))
              (ch '0') := by
        rw [List.append_assoc, List.replicate_append_replicate]
        congr 2
        omega
      have hfull : integerBufferSize ≤
          (text ++ List.replicate (width - (text.length + 2)) (ch '0')).length := by
        rw [List.length_append, List.length_replicate]
        omega
      rw [hzeros, filled_append_of_full hfull (List.replicate _ _)]
      apply pushPrefix_of_takeBack hhash hbase
      rw [takeBack, if_neg]
      rintro ⟨-, hnonzero, hzero | hsame⟩
      · exact hnonzero hzero
      · rw [length_filled] at hsame
        omega
  · have hnone : width - text.length = 0 := by omega
    have hnone' : width - (text.length + 2) = 0 := by omega
    rw [hnone, hnone', List.replicate_zero, List.append_nil]
    exact pushPrefix_of_takeBack hhash hbase (takeBack_unpadded _ _ _ _ (.inr le_rfl))

/-- The sign that is pushed last. -/
def signChars (negative : Bool) (flags : Flags) : List Byte :=
  if negative then [ch '-']
  else if flags.plus then [ch '+']
  else if flags.space then [ch ' ']
  else []

theorem pushSign_filled (text : List Byte) (negative : Bool) (flags : Flags) :
    pushSign (filled text) negative flags =
      some (filled (text ++ signChars negative flags)) := by
  rw [pushSign, signChars]
  split
  · exact pushIfRoom_filled text (ch '-')
  · split
    · exact pushIfRoom_filled text (ch '+')
    · split
      · exact pushIfRoom_filled text (ch ' ')
      · rw [List.append_nil]

/-- The flags after the zeros. -/
def flagsAfterZeros (base : ℕ) (count zeros : ℕ) (flags : Flags) : Flags :=
  if base = baseOctal ∧ 0 < zeros ∧ count < integerBufferSize then
    { flags with hash := false }
  else flags

/-- What `print_integer_finalization` prints, given what the prefix makes of
the buffer. -/
theorem prints_finalization {text final : List Byte} {negative : Bool}
    {base precision width : ℕ} {flags : Flags}
    (hprecision : flags.zeropad = true → precision = 0)
    (hhead :
      let zeros := zerosAfter negative precision width text.length flags
      pushPrefix (filled (text ++ List.replicate zeros (ch '0')))
      (filled text).length base
          precision (zerosWidth negative width flags)
          (flagsAfterZeros base text.length zeros flags) =
        some (filled final)) :
    Prints (printIntegerFinalization (filled text) negative base precision width flags)
      (field flags width (filled (final ++ signChars negative flags)).reverse) () := by
  have hcleared : ∀ zeros : ℕ, (if base = baseOctal ∧ (filled text).length <
      (filled (text ++ List.replicate zeros (ch '0'))).length then
      { flags with hash := false }
        else flags) = flagsAfterZeros base text.length zeros flags := by
    intro zeros
    rw [flagsAfterZeros, length_filled, length_filled, List.length_append,
      List.length_replicate]
    congr 1
    rw [eq_iff_iff]
    omega
  have hsign :
      ∀ count zeros, signChars negative (flagsAfterZeros base count zeros flags) =
      signChars negative flags := by
    intro count zeros
    rw [flagsAfterZeros]
    split
    · rfl
    · rfl
  have hfield : ∀ count zeros body, field (flagsAfterZeros base count zeros flags)
      (zerosWidth negative width flags) body = field flags width body := by
    intro count zeros body
    rw [flagsAfterZeros, field, field, zerosWidth]
    cases hleft : flags.left with
    | true => split <;> simp [hleft]
    | false =>
        cases hzero : flags.zeropad with
        | true => split <;> simp [hleft, hzero]
        | false => split <;> simp [hleft, hzero]
  rw [printIntegerFinalization, padZeros_filled text negative hprecision]
  dsimp only
  rw [hcleared]
  change Prints (do
    let buf ← StateT.lift (pushPrefix _ _ _ _ _ _)
    let buf ← StateT.lift (pushSign buf _ _)
    outRev buf buf.length _ _) _ ()
  rw [hhead]
  change Prints (do
    let buf ← StateT.lift (pushSign (filled final) _ _)
    outRev buf buf.length _ _) _ ()
  rw [pushSign_filled, hsign]
  have hshort : (filled (final ++ signChars negative flags)).length < 2 ^ 32 := by
    rw [length_filled, integerBufferSize]
    omega
  have hprinted := prints_outRev hshort (zerosWidth negative width flags)
    (flagsAfterZeros base text.length
      (zerosAfter negative precision width text.length flags) flags)
  rwa [hfield] at hprinted

/-- Without a prefix the field is the digits, the zeros in front of them and the sign. -/
theorem prints_finalization_plain (text : List Byte) (negative : Bool) (base width : ℕ)
    (flags : Flags) {precision : ℕ}
    (hprecision : flags.zeropad = true → precision = 0) (hhash : flags.hash = false)
    (hpointer : flags.pointer = false) :
    Prints (printIntegerFinalization (filled text) negative base precision width flags)
      (field flags width (filled (text ++
        List.replicate (zerosAfter negative precision width text.length flags) (ch '0') ++
          signChars negative flags)).reverse) () := by
  apply prints_finalization hprecision
  apply pushPrefix_of_not_hash
  · rw [flagsAfterZeros]
    split
    · rfl
    · exact hhash
  · rw [flagsAfterZeros]
    split
    · exact hpointer
    · exact hpointer

end Rvem.Finalization
