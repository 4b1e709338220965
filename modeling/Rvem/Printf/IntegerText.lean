import Rvem.Printf.Finalization
import Rvem.Printf.Text

/-!
# `print_integer` and the text C asks for

The conversion buffer holds the text in reverse and stops taking characters when it is
full, so `print_integer` prints the last 32 characters of the text.  The statement is
about every value, base, flag, width and precision that a conversion can hand over.  Two
cases are irregular and left out: a prefix for which the code takes the wrong characters
back, and a binary zero with a precision.
-/

namespace Rvem.IntegerText

open Rvem.Arch
open Rvem.Gadget
open Rvem.PrintInteger
open Rvem.Printing
open Rvem.Finalization
open Rvem.Text (justify Radix IntegerForm)
open Rvem.Library
open Rvem.Library.Transcript

/-- The flags and the precision that the conversion `form` reaches
`print_integer` with. -/
structure Asks (form : IntegerForm) (flags : Flags) (precision : ℕ) : Prop where
  left : flags.left = form.left
  zeropad : flags.zeropad = (form.zero && form.precision.isNone)
  hash : (flags.hash || flags.pointer) = (form.alternative && form.radix != .decimal)
  uppercase : flags.uppercase = form.upper
  plus : flags.plus = (form.signed && form.plus)
  space : flags.space = (form.signed && form.space)
  given : flags.precision = form.precision.isSome
  pointer : flags.pointer = true → form.radix = .hex
  precision : precision = form.precision.getD 0

theorem digitChar_eq {form : IntegerForm} {flags : Flags}
    (hupper : flags.uppercase = form.upper) :
    digitChar flags = Text.digitChar form.upper := by
  funext digit
  rw [digitChar, Text.digitChar, hupper]
  split
  · rfl
  · obtain ⟨rest, rfl⟩ : ∃ rest, digit = rest + 10 := ⟨digit - 10, by omega⟩
    rw [Nat.add_sub_cancel, BitVec.ofNat_add, ← BitVec.add_assoc]
    exact BitVec.add_sub_cancel _ _

theorem Asks.pointer_eq_false {form : IntegerForm} {flags : Flags} {precision : ℕ}
    (hasks : Asks form flags precision) (hradix : form.radix ≠ .hex) :
    flags.pointer = false :=
  Bool.eq_false_iff.mpr fun hpointer => hradix (hasks.pointer hpointer)

/-- The zeros before the digits, those of the precision and those of the field. -/
def zerosOf (form : IntegerForm) (negative : Bool) (value : ℕ) : ℕ :=
  form.leastDigits value - (form.numeral value).length +
    if form.zeroPadded then
      form.width - ((form.sign negative ++ form.radixPrefix value).length +
        (form.digits value).length)
    else 0

/-- The body in the order of the conversion buffer. -/
theorem reverse_body (form : IntegerForm) (negative : Bool) (value : ℕ) :
    (form.body negative value).reverse =
      (form.numeral value).reverse ++ List.replicate (zerosOf form negative value)
      (ch '0') ++
        (form.radixPrefix value).reverse ++ (form.sign negative).reverse := by
  rw [IntegerForm.body, zerosOf]
  simp only [IntegerForm.digits, List.reverse_append, List.reverse_replicate,
    List.append_assoc, List.replicate_add]

/-- What is printed: the last characters of the body, as many as the buffer takes. -/
def printed (form : IntegerForm) (negative : Bool) (value : ℕ) : List Byte :=
  let shown := (form.body negative value).rtake integerBufferSize
  if form.zeroPadded then shown else justify form.left form.width shown

/-- The field of a buffer that holds the body in reverse is what C asks for, up to the
size of the buffer. -/
theorem field_eq_printed {form : IntegerForm} {flags : Flags} {precision : ℕ}
    (hasks : Asks form flags precision) {negative : Bool} {value : ℕ} {text : List Byte}
    (htext : text = (form.body negative value).reverse) :
    field flags form.width (filled text).reverse = printed form negative value := by
  rw [field, printed, htext, filled, List.rtake_eq_reverse_take_reverse, hasks.left,
    hasks.zeropad, IntegerForm.zeroPadded]
  cases form.left with
  | true => simp
  | false => simp

section Form

variable {form : IntegerForm} {flags : Flags} {precision : ℕ} {negative : Bool}
  {value : ℕ}

theorem Asks.signChars (hasks : Asks form flags precision)
    (hnegative : negative = true → form.signed = true) :
    signChars negative flags = (form.sign negative).reverse := by
  rw [Finalization.signChars, IntegerForm.sign, hasks.plus, hasks.space]
  cases hsigned : form.signed with
  | true =>
      simp only [Bool.true_and, not_true_eq_false, if_false]
      split_ifs
      · rfl
      · rfl
      · rfl
      · rfl
  | false =>
      have hpositive : negative = false := by
        by_contra hne
        rw [hsigned] at hnegative
        exact Bool.false_ne_true (hnegative (Bool.eq_true_of_not_eq_false hne))
      simp [hpositive]

theorem Asks.zeroPadded (hasks : Asks form flags precision) :
    (flags.zeropad && !flags.left) = form.zeroPadded := by
  rw [hasks.zeropad, hasks.left, IntegerForm.zeroPadded, Bool.and_right_comm]

theorem Asks.precision_eq_zero (hasks : Asks form flags precision)
    (hzero : flags.zeropad = true) : precision = 0 := by
  rw [hasks.zeropad, Bool.and_eq_true, Option.isNone_iff_eq_none] at hzero
  rw [hasks.precision, hzero.2]
  rfl

/-- The sign has room before the zeros. -/
theorem Asks.zerosWidth (hasks : Asks form flags precision)
    (hnegative : negative = true → form.signed = true) (hzero : form.zeroPadded = true) :
    zerosWidth negative form.width flags = form.width - (form.sign negative).length := by
  have hflags := hasks.zeroPadded.trans hzero
  rw [Bool.and_eq_true, Bool.not_eq_true'] at hflags
  have hsign := congrArg List.length (hasks.signChars hnegative)
  rw [List.length_reverse, Finalization.signChars] at hsign
  rw [Finalization.zerosWidth, ← hsign, hflags.1, hflags.2]
  cases negative with
  | true => split <;> simp_all
  | false =>
      cases hplus : flags.plus with
      | true => split <;> simp_all
      | false =>
          cases hspace : flags.space with
          | true => split <;> simp_all
          | false => simp

/-- The zeros pushed behind the digits are those of the precision, or of a zero-padded
field. -/
theorem Asks.zerosAfter (hasks : Asks form flags precision)
    (hnegative : negative = true → form.signed = true) (count : ℕ) :
    zerosAfter negative precision form.width count flags =
      if form.zeroPadded then form.width - (form.sign negative).length - count
      else form.precision.getD 0 - count := by
  rw [Finalization.zerosAfter, hasks.zeroPadded, hasks.precision]
  split
  · next hzero => rw [hasks.zerosWidth hnegative hzero]
  · rfl

theorem numeral_pos (hvalue : value ≠ 0) : 0 < (form.numeral value).length :=
  List.length_pos_iff.mpr (Numeral.numeral_ne_nil _ hvalue)

/-- An unsigned conversion has no sign. -/
theorem sign_of_radix (hradix : form.radix ≠ .decimal) : form.sign negative = [] := by
  have hunsigned : ¬form.signed := fun hsigned => hradix (form.decimal_of_signed hsigned)
  rw [IntegerForm.sign, if_pos hunsigned]

/-- Only a hexadecimal or binary conversion of a nonzero number has a prefix. -/
theorem zerosOf_plain (hhead : form.radixPrefix value = [])
    (hoctal : ¬(form.alternative ∧ form.radix = .octal))
    (hdigits : value ≠ 0 ∨ form.precision.isSome) :
    zerosOf form negative value =
      if form.zeroPadded then
        form.width - (form.sign negative).length - (form.numeral value).length
      else form.precision.getD 0 - (form.numeral value).length := by
  have hleast : form.leastDigits value = form.precision.getD 1 := if_neg hoctal
  rw [zerosOf, hhead, List.append_nil, IntegerForm.digits, List.length_append,
    List.length_replicate, hleast]
  cases hprecision : form.precision with
  | none =>
      have hpos : 0 < (form.numeral value).length :=
        numeral_pos (by simpa [hprecision] using hdigits)
      simp only [Option.getD_none]
      split
      · omega
      · omega
  | some least =>
      have hzero : form.zeroPadded = false := by
        rw [IntegerForm.zeroPadded, hprecision]
        simp
      simp [hzero]

/-- A conversion without a prefix. -/
theorem prints_plain (hasks : Asks form flags precision)
    (hpointer : flags.pointer = false)
    (hnegative : negative = true → form.signed = true)
    (hhead : form.radixPrefix value = [])
    (hoctal : ¬(form.alternative ∧ form.radix = .octal))
    (hdigits : value ≠ 0 ∨ form.precision.isSome) (base : ℕ) :
    Prints (printIntegerFinalization (filled (form.numeral value).reverse) negative base
        precision form.width { flags with hash := false })
      (printed form negative value) () := by
  have hprinted := prints_finalization_plain (form.numeral value).reverse negative base
    form.width { flags with hash := false } hasks.precision_eq_zero rfl hpointer
  rw [← field_eq_printed hasks rfl, reverse_body, hhead,
    zerosOf_plain hhead hoctal hdigits, ← hasks.zerosAfter hnegative,
    ← hasks.signChars hnegative, List.reverse_nil, List.append_nil]
  rwa [List.length_reverse] at hprinted

theorem radixPrefix_zero : form.radixPrefix 0 = [] := by
  rw [IntegerForm.radixPrefix, if_neg fun hnonzero => hnonzero.2 rfl]

theorem numeral_zero : form.numeral 0 = [] :=
  Numeral.numeral_zero _

/-- Zero without a precision is printed as a digit. -/
theorem prints_zero (hasks : Asks form flags precision) (hpointer : flags.pointer = false)
    (hnegative : negative = true → form.signed = true)
    (hprecision : form.precision = none) (base : ℕ) :
    Prints (printIntegerFinalization (filled [ch '0']) negative base precision form.width
      { flags with hash := false }) (printed form negative 0) () := by
  have hprinted := prints_finalization_plain [ch '0'] negative base form.width
    { flags with hash := false } hasks.precision_eq_zero rfl hpointer
  have hleast : form.leastDigits 0 = 1 := by
    rw [IntegerForm.leastDigits, hprecision, numeral_zero]
    split
    · rfl
    · rfl
  have hzeros : zerosOf form negative 0 =
      Finalization.zerosAfter negative precision form.width 1 flags + 1 := by
    rw [hasks.zerosAfter hnegative, zerosOf, hleast, radixPrefix_zero, IntegerForm.digits,
      numeral_zero, hleast, hprecision]
    simp only [List.append_nil, List.length_replicate, List.length_nil, Option.getD_none]
    split
    · omega
    · omega
  rw [← field_eq_printed hasks rfl, reverse_body, radixPrefix_zero, numeral_zero, hzeros,
    ← hasks.signChars hnegative, List.reverse_nil, List.append_nil, List.nil_append,
    List.replicate_succ]
  exact hprinted

/-- The alternative octal form: a zero in front, unless there is one already. -/
theorem prints_octal (hasks : Asks form flags precision)
    (hnegative : negative = true → form.signed = true)
    (halternative : form.alternative = true)
    (hradix : form.radix = .octal) (hvalue : value < 2 ^ 64) :
    Prints
      (printIntegerFinalization (filled (form.numeral value).reverse) negative baseOctal
      precision form.width flags) (printed form negative value) () := by
  have hpointer : flags.pointer = false := hasks.pointer_eq_false (by rw [hradix]; decide)
  have hhash : flags.hash = true := by
    have hhash := hasks.hash
    rwa [hpointer, Bool.or_false, halternative, hradix] at hhash
  have hsign : form.sign negative = [] := sign_of_radix (by rw [hradix]; decide)
  have hhead : form.radixPrefix value = [] := by
    rw [IntegerForm.radixPrefix, hradix, ite_self]
  have hshort : (form.numeral value).length ≤ 22 := by
    apply Numeral.length_numeral_le
    · rw [hradix]
      decide
    · rw [hradix]
      exact hvalue.trans (by norm_num [Radix.base])
  have hleast : form.leastDigits value =
      max (form.precision.getD 1) ((form.numeral value).length + 1) :=
    if_pos ⟨halternative, hradix⟩
  have hall : zerosOf form negative value = max
      (Finalization.zerosAfter negative precision form.width (form.numeral value).length
        flags)
        1 := by
    rw [hasks.zerosAfter hnegative, zerosOf, hhead, hsign, IntegerForm.digits, hleast]
    simp only [List.length_append, List.length_replicate, List.length_nil]
    cases hprecision : form.precision with
    | none =>
        simp only [Option.getD_none]
        split
        · omega
        · omega
    | some least =>
        have hzero : form.zeroPadded = false := by
          rw [IntegerForm.zeroPadded, hprecision]
          simp
        simp only [hzero, Bool.false_eq_true, if_false, Option.getD_some]
        omega
  rw [← field_eq_printed hasks rfl, reverse_body, hhead, hall,
    ← hasks.signChars hnegative, List.reverse_nil, List.append_nil]
  apply prints_finalization hasks.precision_eq_zero
  dsimp only
  rw [List.length_reverse]
  generalize Finalization.zerosAfter negative precision form.width
    (form.numeral value).length
    flags = zeros
  cases zeros with
  | zero =>
      rw [flagsAfterZeros, if_neg (by simp), List.replicate_zero, List.append_nil]
      exact pushPrefix_octal _ _ _ hhash
  | succ zeros =>
      have hmax : max (zeros + 1) 1 = zeros + 1 := by omega
      rw [flagsAfterZeros, if_pos ⟨rfl, by omega, by rw [integerBufferSize]; omega⟩, hmax]
      exact pushPrefix_of_not_hash _ _ _ _ _ rfl hpointer

/-- The forms whose prefix the buffer has room for or none of: the buffer does not cut the
prefix in two, and zero has no prefix. -/
structure Regular (form : IntegerForm) (value : ℕ) : Prop where
  uncut : form.zeroPadded = true → form.radixPrefix value ≠ [] →
    form.width ≠ integerBufferSize + 1
  nonzero :
      form.radix = .binary → form.alternative = true → form.precision.isSome = true →
    value ≠ 0

theorem zerosOf_radix (halternative : form.alternative = true)
    (hradix : form.radix = .hex ∨ form.radix = .binary) (hvalue : value ≠ 0) :
    zerosOf form negative value =
      if form.zeroPadded then form.width - ((form.numeral value).length + 2)
      else form.precision.getD 0 - (form.numeral value).length := by
  have hpos : 0 < (form.numeral value).length := numeral_pos hvalue
  have hsign : form.sign negative = [] :=
    sign_of_radix (by rcases hradix with h | h <;> rw [h] <;> decide)
  have hhead : (form.radixPrefix value).length = 2 := by
    rw [IntegerForm.radixPrefix, if_pos ⟨halternative, hvalue⟩]
    rcases hradix with h | h
    · rw [h]
      rfl
    · rw [h]
      rfl
  have hleast : form.leastDigits value = form.precision.getD 1 := by
    rw [IntegerForm.leastDigits, if_neg]
    rcases hradix with h | h <;> simp [h]
  rw [zerosOf, hsign, List.nil_append, hhead, IntegerForm.digits, List.length_append,
    List.length_replicate, hleast]
  cases hprecision : form.precision with
  | none =>
      simp only [Option.getD_none]
      split
      · omega
      · omega
  | some least =>
      have hzero : form.zeroPadded = false := by
        rw [IntegerForm.zeroPadded, hprecision]
        simp
      simp [hzero]

/-- A hexadecimal or binary number with its prefix, for which the code may take zeros
back from the buffer. -/
theorem prints_radix (hasks : Asks form flags precision)
    (hnegative : negative = true → form.signed = true)
    (halternative : form.alternative = true)
    (hradix : form.radix = .hex ∨ form.radix = .binary) (hvalue : value ≠ 0)
    (hregular : Regular form value) :
    Prints (printIntegerFinalization (filled (form.numeral value).reverse) negative
      form.radix.base precision form.width flags) (printed form negative value) () := by
  have hnotdecimal : form.radix ≠ .decimal := by
    rcases hradix with h | h <;> rw [h] <;> decide
  have hhash : flags.hash = true ∨ flags.pointer = true := by
    rw [← Bool.or_eq_true, hasks.hash, halternative]
    simpa using hnotdecimal
  have hsign : form.sign negative = [] := sign_of_radix hnotdecimal
  have hbase : form.radix.base = baseHex ∨ form.radix.base = baseBinary := by
    rcases hradix with h | h
    · exact .inl (by rw [h]; rfl)
    · exact .inr (by rw [h]; rfl)
  have hhead : (form.radixPrefix value).reverse =
      [radixChar form.radix.base flags, ch '0'] := by
    rw [IntegerForm.radixPrefix, if_pos ⟨halternative, hvalue⟩, radixChar,
      hasks.uppercase]
    rcases hradix with h | h
    · rw [h]
      rfl
    · rw [h]
      rfl
  have hkept : flagsAfterZeros form.radix.base (form.numeral value).length
      (Finalization.zerosAfter negative precision form.width (form.numeral value).length
        flags)
        flags = flags := by
    rw [flagsAfterZeros, if_neg]
    rcases hbase with h | h <;> rw [h] <;> simp [baseHex, baseBinary, baseOctal]
  rw [← field_eq_printed hasks rfl, reverse_body, hhead, ← hasks.signChars hnegative]
  apply prints_finalization hasks.precision_eq_zero
  dsimp only
  rw [List.length_reverse, hkept, hasks.zerosAfter hnegative]
  cases hzero : form.zeroPadded with
  | true =>
      have hnone : form.precision = none := by
        rw [IntegerForm.zeroPadded, Bool.and_eq_true, Option.isNone_iff_eq_none] at hzero
        exact hzero.2
      have hgiven : flags.precision = false := by rw [hasks.given, hnone]; rfl
      have hwidth : form.width ≠ integerBufferSize + 1 := by
        apply hregular.uncut hzero
        rw [← List.reverse_ne_nil_iff, hhead]
        exact List.cons_ne_nil _ _
      have hzeros :=
        pushPrefix_zeropad (form.numeral value).reverse hhash hgiven hbase hwidth
      rw [List.length_reverse] at hzeros
      rw [hasks.zerosWidth hnegative hzero, hsign, hasks.precision, hnone,
        zerosOf_radix halternative hradix hvalue, hzero]
      exact hzeros
  | false =>
      rw [zerosOf_radix halternative hradix hvalue, hzero]
      apply pushPrefix_of_takeBack hhash hbase
      cases hprecision : form.precision with
      | none =>
          apply takeBack_unpadded
          right
          simp
      | some least =>
          have hgiven : flags.precision = true := by rw [hasks.given, hprecision]; rfl
          exact takeBack_unpadded _ _ _ _ (.inl hgiven)

theorem Asks.unhashed (hasks : Asks form flags precision)
    (hplain : form.alternative = false ∨ form.radix = .decimal) :
    flags.hash = false ∧ flags.pointer = false := by
  rw [← Bool.or_eq_false_iff, hasks.hash]
  rcases hplain with h | h
  · rw [h, Bool.false_and]
  · rw [h]
    exact Bool.and_false _

theorem pushDigits_numeral (hasks : Asks form flags precision) (hvalue : value ≠ 0) :
    pushDigits form.radix.base flags integerBufferSize value [] =
      some (filled (form.numeral value).reverse) := by
  have hbase : 1 < form.radix.base := by cases form.radix <;> decide
  rw [pushDigits_filled hbase flags hvalue (Nat.zero_add _), digitChar_eq hasks.uppercase,
    IntegerForm.numeral, Numeral.numeral, List.reverse_reverse, List.nil_append]

/-- The finalization behind the digits that are not a lone zero. -/
theorem prints_numeral (hasks : Asks form flags precision)
    (hnegative : negative = true → form.signed = true) (hvalue : value < 2 ^ 64)
    (hregular : Regular form value) (hdigits : value ≠ 0 ∨ form.precision.isSome)
    (hhex : value = 0 → form.radix ≠ .hex) :
    Prints (printIntegerFinalization (filled (form.numeral value).reverse) negative
      form.radix.base precision form.width flags) (printed form negative value) () := by
  by_cases hplain : form.alternative = false ∨ form.radix = .decimal
  · obtain ⟨hhash, hpointer⟩ := hasks.unhashed hplain
    have hhead : form.radixPrefix value = [] := by
      rw [IntegerForm.radixPrefix]
      rcases hplain with h | h
      · rw [if_neg (by simp [h])]
      · rw [h, ite_self]
    have hoctal : ¬(form.alternative ∧ form.radix = .octal) := by
      rintro ⟨halternative, hradix⟩
      rcases hplain with h | h
      · rw [h] at halternative
        cases halternative
      · rw [h] at hradix
        cases hradix
    have hprinted :=
      prints_plain hasks hpointer hnegative hhead hoctal hdigits form.radix.base
    have hsame : { flags with hash := false } = flags := by rw [← hhash]
    rwa [hsame] at hprinted
  · obtain ⟨halternative, hnotdecimal⟩ := not_or.mp hplain
    replace halternative := Bool.eq_true_of_not_eq_false halternative
    cases hradix : form.radix with
    | decimal => exact absurd hradix hnotdecimal
    | octal => exact prints_octal hasks hnegative halternative hradix hvalue
    | hex =>
        have hnonzero : value ≠ 0 := fun hzero => hhex hzero hradix
        have hprinted :=
          prints_radix hasks hnegative halternative (.inl hradix) hnonzero hregular
        rwa [hradix] at hprinted
    | binary =>
        have hnonzero : value ≠ 0 := by
          rcases hdigits with h | h
          · exact h
          · exact hregular.nonzero hradix halternative h
        have hprinted :=
          prints_radix hasks hnegative halternative (.inr hradix) hnonzero hregular
        rwa [hradix] at hprinted

/-- `print_integer` prints the last characters of the text that the conversion asks for,
as many as the conversion buffer has room for. -/
theorem prints_printInteger (hasks : Asks form flags precision)
    (hnegative : negative = true → form.signed = true) (hvalue : value < 2 ^ 64)
    (hpointer : flags.pointer = true → value ≠ 0) (hregular : Regular form value) :
    Prints (printInteger value negative form.radix.base precision form.width flags)
      (printed form negative value) () := by
  rw [printInteger]
  by_cases hzero : value = 0
  · subst hzero
    rw [if_pos rfl]
    have hpointer : flags.pointer = false := Bool.eq_false_iff.mpr fun h => hpointer h rfl
    have hempty : filled (form.numeral 0).reverse = [] := by
      rw [numeral_zero]
      rfl
    cases hprecision : form.precision with
    | none =>
        have hgiven : ¬flags.precision = true := by simp [hasks.given, hprecision]
        rw [if_pos hgiven]
        exact prints_zero hasks hpointer hnegative hprecision form.radix.base
    | some least =>
        have hgiven : ¬¬flags.precision = true := by simp [hasks.given, hprecision]
        have hsome : form.precision.isSome = true := by rw [hprecision]; rfl
        rw [if_neg hgiven]
        by_cases hhex : form.radix = .hex
        · have hprinted := prints_plain hasks hpointer hnegative radixPrefix_zero
            (by simp [hhex]) (.inr hsome) form.radix.base
          rw [hempty] at hprinted
          rw [if_pos (by rw [hhex]; rfl)]
          exact hprinted
        · have hprinted := prints_numeral hasks hnegative hvalue hregular (.inr hsome)
            (fun _ => hhex)
          rw [hempty] at hprinted
          rw [if_neg (by cases hradix : form.radix <;> simp_all [Radix.base, baseHex])]
          exact hprinted
  · rw [if_neg hzero, pushDigits_numeral hasks hzero]
    exact prints_numeral hasks hnegative hvalue hregular (.inl hzero)
      (fun h => absurd h hzero)

/-- A body that the buffer has room for is printed whole. -/
theorem printed_eq_text (hfits : (form.body negative value).length ≤ integerBufferSize) :
    printed form negative value = form.text negative value := by
  have hwhole : (form.body negative value).rtake integerBufferSize =
      form.body negative value := by
    rw [List.rtake_eq_reverse_take_reverse,
      List.take_of_length_le (by rwa [List.length_reverse]), List.reverse_reverse]
  rw [printed, hwhole, IntegerForm.text]
  split
  · next hzero =>
    have hwidth : form.width - (form.body negative value).length = 0 := by
      rw [IntegerForm.body, if_pos hzero]
      simp only [List.length_append, List.length_replicate]
      omega
    rw [justify, hwidth]
    simp
  · rfl

/-- `print_integer` prints the last 32 characters of the body of the conversion, in its
field; that is what C asks for if the body is no longer. -/
theorem printInteger_shows (hasks : Asks form flags precision)
    (hnegative : negative = true → form.signed = true) (hvalue : value < 2 ^ 64)
    (hpointer : flags.pointer = true → value ≠ 0) (hregular : Regular form value) :
    Prints (printInteger value negative form.radix.base precision form.width flags)
        (printed form negative value) () ∧
      ((form.body negative value).length ≤ integerBufferSize →
        printed form negative value = form.text negative value) :=
  ⟨prints_printInteger hasks hnegative hvalue hpointer hregular, printed_eq_text⟩

end Form

/-- `"%+08d"` of -42. -/
theorem printInteger_zeros :
    Prints (printInteger 42 true baseDecimal 0 8
      { zeropad := true, plus := true, signed := true })
      [ch '-', ch '0', ch '0', ch '0', ch '0', ch '0', ch '4', ch '2'] () :=
  have hasks : Asks
      ⟨.decimal, false, true, false, true, true, false, false, none, 8, fun _ => rfl⟩
      { zeropad := true, plus := true, signed := true } 0 :=
    ⟨rfl, rfl, rfl, rfl, rfl, rfl, rfl, nofun, rfl⟩
  (printInteger_shows hasks (fun _ => rfl) (by decide) nofun
    ⟨fun _ hhead => absurd rfl hhead, nofun⟩).1

end Rvem.IntegerText
