import Rvem.Printf.IntegerText
import Rvem.Printf.Scanning

/-!
# Conversions

What `format_string_loop` prints for the specifier of a directive, from the arguments
that the directive comes with.  An integer argument is fetched at the width of its
length, its magnitude and sign go to `print_integer`, and the flags handed over are
those that C asks for.  Characters, strings, null pointers and addresses are padded to
the width of the directive.
-/

namespace Rvem.Conversions

open Rvem.Arch
open Rvem.Gadget
open Rvem.PrintInteger
open Rvem.FormatLoop
open Rvem.Printing
open Rvem.IntegerText
open Rvem.Directives
open Rvem.Scanning
open Rvem.Text (IntegerForm Radix)
open Rvem.Library.Transcript

variable {w : ℕ}

/-! ## Integer arguments -/

/-- The magnitude of a `long long`, if its negation does not overflow. -/
def absolute (value : ℤ) : Option ℕ :=
  if value = -2 ^ 63 then none else some value.natAbs

/-- `ABS_FOR_PRINTING` is the absolute value of its argument; the smallest one
has none. -/
theorem absForPrinting_eq (value : BitVec 64) :
    absForPrinting value = absolute value.toInt := by
  have htoNat := BitVec.toInt_eq_toNat_cond value
  have hneg := BitVec.toNat_neg value
  have hlt := value.isLt
  have hmin : value = BitVec.intMin 64 ↔ value.toInt = -2 ^ 63 := by
    rw [← BitVec.toInt_inj, show (BitVec.intMin 64).toInt = -2 ^ 63 by decide]
  rw [absForPrinting, absolute]
  by_cases hpositive : 0 < value.toInt
  · rw [if_pos hpositive, if_neg (by omega), Option.map_some]
    congr 1
    omega
  · rw [if_neg hpositive, negated]
    by_cases hsmallest : value.toInt = -2 ^ 63
    · rw [if_pos (hmin.mpr hsmallest), if_pos hsmallest, Option.map_none]
    · rw [if_neg (mt hmin.mp hsmallest), if_neg hsmallest, Option.map_some, hneg]
      congr 1
      omega

/-- The value of a signed argument, sign extended to `long long`. -/
theorem signed_argument {n : ℕ} (hn : n ≤ 64) (value : BitVec n) :
    absForPrinting (value.signExtend 64) = absolute value.toInt ∧
      value.slt 0 = decide (value.toInt < 0) := by
  rw [absForPrinting_eq, BitVec.toInt_signExtend_of_le hn]
  refine ⟨rfl, ?_⟩
  rw [BitVec.slt]
  simp

/-- The next argument, converted to the type that the flags name. -/
def fetch (flags : Flags) (args : List (Arg w)) :
    Option ((n : ℕ) × BitVec n × List (Arg w)) :=
  if flags.longLong then
    (vaLongLong args).map fun found => ⟨64, found.1, found.2⟩
  else if flags.long then
    (vaLong args).map fun found => ⟨w, found.1, found.2⟩
  else
    (vaInt args).map fun found =>
      if flags.char then ⟨8, found.1.setWidth 8, found.2⟩
      else if flags.short then ⟨16, found.1.setWidth 16, found.2⟩
      else ⟨32, found.1, found.2⟩

/-- The three signed branches of the loop differ in the type they fetch only. -/
theorem convertSigned_eq (hw : w ≤ 64) (s : Specifier w) (base : ℕ) (flags : Flags) :
    convertSigned s base flags = (do
      let ⟨_, value, args⟩ ← StateT.lift (fetch flags s.args)
      let magnitude ← StateT.lift (absolute value.toInt)
      printInteger magnitude (decide (value.toInt < 0)) base s.precision s.width flags
      return args) := by
  rw [convertSigned, fetch]
  split
  · cases vaLongLong s.args with
    | none => rfl
    | some found =>
        obtain ⟨habs, hneg⟩ := signed_argument le_rfl found.1
        rw [BitVec.signExtend_eq] at habs
        change (do
          let magnitude ← StateT.lift (absForPrinting found.1)
          printInteger magnitude (found.1.slt 0) base s.precision s.width flags
          return found.2) = _
        rw [habs, hneg]
        rfl
  · split
    · cases vaLong s.args with
      | none => rfl
      | some found =>
          obtain ⟨habs, hneg⟩ := signed_argument hw found.1
          change (do
            let magnitude ← StateT.lift (absForPrinting (found.1.signExtend 64))
            printInteger magnitude (found.1.slt 0) base s.precision s.width flags
            return found.2) = _
          rw [habs, hneg]
          rfl
    · cases vaInt s.args with
      | none => rfl
      | some found =>
          obtain ⟨value, args⟩ := found
          have hnarrow : ∀ {n : ℕ} (narrow : BitVec n), n ≤ 32 →
              absForPrinting ((narrow.signExtend 32).signExtend 64) =
                absolute narrow.toInt ∧
                (narrow.signExtend 32).slt 0 = decide (narrow.toInt < 0) := by
            intro n narrow hn
            obtain ⟨habs, hneg⟩ := signed_argument (by decide) (narrow.signExtend 32)
            rw [BitVec.toInt_signExtend_of_le hn] at habs hneg
            exact ⟨habs, hneg⟩
          change (do
            let value := if flags.char then _ else if flags.short then _ else value
            let magnitude ← StateT.lift (absForPrinting (value.signExtend 64))
            printInteger magnitude (value.slt 0) base s.precision s.width flags
            return args) = _
          dsimp only
          split
          · obtain ⟨habs, hneg⟩ := hnarrow (value.setWidth 8) (by decide)
            rw [habs, hneg]
            rfl
          · split
            · obtain ⟨habs, hneg⟩ := hnarrow (value.setWidth 16) (by decide)
              rw [habs, hneg]
              rfl
            · obtain ⟨habs, hneg⟩ := signed_argument (by decide) value
              rw [habs, hneg]
              rfl

theorem convertUnsigned_eq (s : Specifier w) (base : ℕ) (flags : Flags) :
    convertUnsigned s base flags = (do
      let ⟨_, value, args⟩ ← StateT.lift (fetch flags s.args)
      printInteger value.toNat false base s.precision s.width
        { flags with plus := false, space := false }
      return args) := by
  rw [convertUnsigned, fetch]
  dsimp only
  split
  · cases vaLongLong s.args with
    | none => rfl
    | some found => rfl
  · split
    · cases vaLong s.args with
      | none => rfl
      | some found => rfl
    · cases vaInt s.args with
      | none => rfl
      | some found =>
          obtain ⟨value, args⟩ := found
          have hnarrow : ∀ {n : ℕ} (narrow : BitVec n), n ≤ 32 →
              (narrow.setWidth 32).toNat = narrow.toNat := by
            intro n narrow hn
            exact BitVec.toNat_setWidth_of_le hn
          change (do
            let value := if flags.char then _ else if flags.short then _ else value
            printInteger value.toNat false base s.precision s.width
              { flags with plus := false, space := false }
            return args) = _
          dsimp only
          split
          · rw [hnarrow _ (by decide)]
            rfl
          · split
            · rw [hnarrow _ (by decide)]
              rfl
            · rfl

/-- The flags of a length as the specifiers read them. -/
structure Sized (w : ℕ) (length : Length) (flags : Flags) : Prop where
  longLong : flags.longLong = (Length.set w {} length).longLong
  long : flags.long = (Length.set w {} length).long
  char : flags.char = (Length.set w {} length).char
  short : flags.short = (Length.set w {} length).short

/-- An argument is fetched at the width that its length asks for. -/
theorem fetch_arg (hw : w = 32 ∨ w = 64) {length : Length} {flags : Flags}
    (hflags : Sized w length flags) (number : BitVec 64) (args : List (Arg w)) :
    fetch flags (length.arg number :: args) =
      some ⟨length.bits w, number.setWidth (length.bits w), args⟩ := by
  obtain ⟨hlongLong, hlong, hchar, hshort⟩ := hflags
  rw [fetch, hlongLong, hlong, hchar, hshort]
  rcases hw with rfl | rfl
  · cases length with
    | char => simp [Length.set, Length.arg, Length.bits, vaInt]
    | short => simp [Length.set, Length.arg, Length.bits, vaInt]
    | int => rfl
    | long => rfl
    | longLong => simp [Length.set, Length.arg, Length.bits, vaLongLong]
    | size => rfl
    | difference => rfl
    | maximum => simp [Length.set, maximumSized, Length.arg, Length.bits, vaLongLong]
  · cases length with
    | char => simp [Length.set, Length.arg, Length.bits, vaInt]
    | short => simp [Length.set, Length.arg, Length.bits, vaInt]
    | int => rfl
    | long => rfl
    | longLong => simp [Length.set, Length.arg, Length.bits, vaLongLong]
    | size => rfl
    | difference => rfl
    | maximum => rfl

/-! ## Integer conversions -/

/-- A length only sets the flags of sizes. -/
theorem set_eq (w : ℕ) (flags : Flags) (length : Length) :
    Length.set w flags length =
      { flags with
        char := flags.char || (Length.set w {} length).char
        short := flags.short || (Length.set w {} length).short
        int := flags.int || (Length.set w {} length).int
        long := flags.long || (Length.set w {} length).long
        longLong := flags.longLong || (Length.set w {} length).longLong } := by
  cases length with
  | char | short | int | long | longLong => simp [Length.set]
  | size | difference =>
      simp only [Length.set, pointerSized]
      split <;> simp
  | maximum =>
      simp only [Length.set, maximumSized]
      split <;> simp

theorem integerFlags_letter (letter : IntegerLetter) (flags : Flags) :
    integerFlags letter.char flags =
      { flags with
        signed := letter.signed || flags.signed
        hash := letter.radix != .decimal && flags.hash
        uppercase := letter == .X || flags.uppercase
        zeropad := !flags.precision && flags.zeropad } := by
  obtain ⟨_, _, _, _, _, _, _, _, _, _, _, precision, _, _, _⟩ := flags
  cases precision with
  | true => cases letter <;> rfl
  | false => cases letter <;> rfl

theorem specifierBase_letter (letter : IntegerLetter) :
    specifierBase letter.char = letter.radix.base := by
  cases letter <;> rfl

theorem isIntegerSpecifier_letter (letter : IntegerLetter) :
    isIntegerSpecifier letter.char = true := by
  cases letter <;> decide

/-- The flags that an integer conversion hands to `print_integer`. -/
def handed (w : ℕ) (conversion : IntegerConversion) : Flags :=
  let flags := integerFlags conversion.letter.char
    (Length.set w (parsed conversion.layout) conversion.length)
  if conversion.letter.signed then flags else { flags with plus := false, space := false }

theorem asks_handed (w : ℕ) (conversion : IntegerConversion) :
    Asks conversion.form (handed w conversion)
      (conversion.layout.precision.value.getD 0) := by
  obtain ⟨layout, length, letter, number⟩ := conversion
  have hzero : (!layout.precision.value.isSome && layout.has .zero) =
      (layout.has .zero && layout.precision.value.isNone) := by
    rw [Option.not_isSome, Bool.and_comm]
  have hhash : ((letter.radix != .decimal && layout.has .hash) || false) =
      (layout.has .hash && letter.radix != .decimal) := by
    rw [Bool.or_false, Bool.and_comm]
  rw [handed, integerFlags_letter, set_eq]
  cases letter with
  | d | i | u | x | X | o | b =>
      exact
        { left := rfl
          zeropad := hzero
          hash := hhash
          uppercase := rfl
          plus := rfl
          space := rfl
          given := rfl
          pointer := fun hpointer => absurd hpointer Bool.false_ne_true
          precision := rfl }

theorem sized_integerFlags (w : ℕ) (conversion : IntegerConversion) :
    Sized w conversion.length (integerFlags conversion.letter.char
      (Length.set w (parsed conversion.layout) conversion.length)) := by
  rw [integerFlags_letter, set_eq]
  exact ⟨rfl, rfl, rfl, rfl⟩

theorem value_of_unsigned {conversion : IntegerConversion}
    (hunsigned : conversion.letter.signed = false) :
    conversion.value w =
      (conversion.number.setWidth (conversion.length.bits w)).toNat := by
  rw [IntegerConversion.value, hunsigned]
  rfl

theorem value_of_signed {conversion : IntegerConversion}
    (hsigned : conversion.letter.signed = true) :
    conversion.value w =
      (conversion.number.setWidth (conversion.length.bits w)).toInt := by
  rw [IntegerConversion.value, hsigned]
  rfl

theorem bits_le (hw : w = 32 ∨ w = 64) (length : Length) : length.bits w ≤ 64 := by
  rcases hw with rfl | rfl
  · cases length <;> decide
  · cases length <;> decide

theorem magnitude_lt (hw : w = 32 ∨ w = 64) (conversion : IntegerConversion) :
    conversion.magnitude w < 2 ^ 64 := by
  have hbits := Nat.pow_le_pow_right (by decide : 0 < 2) (bits_le hw conversion.length)
  have hlt := (conversion.number.setWidth (conversion.length.bits w)).isLt
  rw [IntegerConversion.magnitude]
  cases hsigned : conversion.letter.signed with
  | true =>
      rw [value_of_signed hsigned]
      have htoNat := BitVec.toInt_eq_toNat_cond
        (conversion.number.setWidth (conversion.length.bits w))
      omega
  | false =>
      rw [value_of_unsigned hsigned]
      omega

theorem signed_of_negative {conversion : IntegerConversion}
    (hnegative : conversion.negative w = true) : conversion.form.signed = true := by
  change conversion.letter.signed = true
  rw [IntegerConversion.negative, decide_eq_true_iff] at hnegative
  cases hsigned : conversion.letter.signed with
  | true => rfl
  | false =>
      rw [value_of_unsigned hsigned] at hnegative
      omega

/-- A body that fits is not cut inside its prefix. -/
theorem regular_of_plain {conversion : IntegerConversion}
    (hplain : conversion.Plain w) :
    Regular conversion.form (conversion.magnitude w) := by
  obtain ⟨-, -, hfits, hnonzero⟩ := hplain
  constructor
  · intro hzero _ hwidth
    have hlength : conversion.form.width ≤ (conversion.body w).length := by
      rw [IntegerConversion.body, IntegerForm.body, if_pos hzero]
      simp only [List.length_append, List.length_replicate]
      omega
    omega
  · intro hbinary halternative hprecision
    refine hnonzero ?_ halternative hprecision
    change conversion.letter.radix = .binary at hbinary
    cases hletter : conversion.letter with
    | b => rfl
    | d | i | u | x | X | o =>
        rw [hletter] at hbinary
        cases hbinary

theorem handed_pointer (conversion : IntegerConversion) :
    (handed w conversion).pointer = false := by
  rw [handed, integerFlags_letter, set_eq]
  cases conversion.letter <;> rfl

/-- `print_integer` on what a conversion hands to it. -/
theorem prints_handed (hw : w = 32 ∨ w = 64) {conversion : IntegerConversion}
    (hplain : conversion.Plain w) :
    Prints (printInteger (conversion.magnitude w) (conversion.negative w)
      (specifierBase conversion.letter.char) (conversion.layout.precision.value.getD 0)
      conversion.layout.width.count (handed w conversion)) (conversion.output w) () := by
  have hpointer : (handed w conversion).pointer = true → conversion.magnitude w ≠ 0 := by
    rw [handed_pointer]
    exact fun hpointer => absurd hpointer Bool.false_ne_true
  have hprinted := prints_printInteger (asks_handed w conversion)
    (signed_of_negative (w := w)) (magnitude_lt hw conversion) hpointer
    (regular_of_plain hplain)
  rw [printed_eq_text hplain.fits] at hprinted
  rw [specifierBase_letter]
  exact hprinted

/-- The integer conversions print the text that C asks for. -/
theorem prints_integer (hw : w = 32 ∨ w = 64) {conversion : IntegerConversion}
    (hplain : conversion.Plain w) (rest : List Byte) (args : List (Arg w)) :
    Prints (convert (scanned conversion.layout conversion.length
      (conversion.letter.char :: rest) (conversion.length.arg conversion.number :: args)))
      (conversion.output w) args := by
  have hprinted := (prints_handed hw hplain).andThen (prints_return args)
  have hsized := sized_integerFlags w conversion
  have hfetch := fetch_arg hw hsized conversion.number args
  have hsignedFlag : (integerFlags conversion.letter.char
      (Length.set w (parsed conversion.layout) conversion.length)).signed =
        conversion.letter.signed := by
    rw [integerFlags_letter, set_eq]
    exact Bool.or_false _
  rw [List.append_nil] at hprinted
  rw [convert]
  change Prints (if isIntegerSpecifier conversion.letter.char then
    if (integerFlags conversion.letter.char
      (Length.set w (parsed conversion.layout) conversion.length)).signed then _
    else _ else _) _ _
  rw [if_pos (isIntegerSpecifier_letter _), hsignedFlag]
  cases hsigned : conversion.letter.signed with
  | true =>
      rw [IntegerConversion.magnitude, IntegerConversion.negative,
        value_of_signed hsigned, handed, hsigned] at hprinted
      have hconvert := convertSigned_eq (by omega)
        (scanned conversion.layout conversion.length (conversion.letter.char :: rest)
          (conversion.length.arg conversion.number :: args))
        (specifierBase conversion.letter.char) (integerFlags conversion.letter.char
          (Length.set w (parsed conversion.layout) conversion.length))
      have hlift {A : Type} (value : A) :
          (StateT.lift (some value) : Print A) = pure value := rfl
      have hnegatable := hplain.negatable
      rw [value_of_signed hsigned] at hnegatable
      have habsolute :
          absolute (conversion.number.setWidth (conversion.length.bits w)).toInt =
          some (conversion.number.setWidth (conversion.length.bits w)).toInt.natAbs :=
        if_neg hnegatable
      change _ = (do let ⟨_, _, _⟩ ← StateT.lift (fetch _ (_ :: args)); _) at hconvert
      rw [hfetch, hlift, pure_bind] at hconvert
      dsimp only at hconvert
      rw [habsolute, hlift, pure_bind] at hconvert
      change Prints (convertSigned _ _ _) _ _
      exact hconvert ▸ hprinted
  | false =>
      have hnonnegative : conversion.negative w = false := by
        rw [IntegerConversion.negative, value_of_unsigned hsigned]
        exact decide_eq_false (not_lt.mpr (Int.natCast_nonneg _))
      rw [hnonnegative, IntegerConversion.magnitude, value_of_unsigned hsigned, handed,
        hsigned]
        at hprinted
      have hconvert := convertUnsigned_eq
        (scanned conversion.layout conversion.length (conversion.letter.char :: rest)
          (conversion.length.arg conversion.number :: args))
        (specifierBase conversion.letter.char) (integerFlags conversion.letter.char
          (Length.set w (parsed conversion.layout) conversion.length))
      change _ = (do let ⟨_, _, _⟩ ← StateT.lift (fetch _ (_ :: args)); _) at hconvert
      rw [hfetch] at hconvert
      change Prints (convertUnsigned _ _ _) _ _
      exact hconvert ▸ hprinted

/-! ## The other conversions -/

/-- `program` between the spaces of its field -/
def padded (left : Bool) (spaces : ℕ) (program : Print Unit) : Print Unit := do
  putSpaces (if left then 0 else spaces)
  program
  putSpaces (if left then spaces else 0)

theorem prints_padded (left : Bool) (width : ℕ) {body : List Byte} {program : Print Unit}
    (hprogram : Prints program body ()) :
    Prints (padded left (width - body.length) program) (Text.justify left width body)
      () := by
  have hspaces := prints_putSpaces (width - body.length)
  cases left with
  | true => exact (prints_return ()).andThen (hprogram.andThen hspaces)
  | false =>
      have hprinted := hspaces.andThen (hprogram.andThen (prints_return ()))
      rw [List.append_nil] at hprinted
      exact hprinted

theorem convertChar_eq {s : Specifier w} {value : BitVec 32} {args : List (Arg w)}
    (hargs : s.args = .int value :: args) :
    convertChar s = (do
      padded s.flags.left (s.width - 1) (putcharViaGadget (value.setWidth 8))
      return args) := by
  rw [convertChar, hargs, padded, bind_assoc]
  simp only [bind_assoc]
  cases s.flags.left with
  | true => rfl
  | false => rfl

/-- `%c` prints its character, padded to the width. -/
theorem prints_char (layout : Layout) (value : BitVec 32) (rest : List Byte)
    (args : List (Arg w)) :
    Prints (convert (scanned layout .int (ch 'c' :: rest) (.int value :: args)))
      (layout.justify [value.setWidth 8]) args := by
  have hprinted := (prints_padded layout.left layout.width.count
    (prints_putchar (value.setWidth 8))).andThen (prints_return args)
  rw [List.append_nil] at hprinted
  change Prints (convertChar _) _ _
  rw [convertChar_eq rfl]
  exact hprinted

/-! ## Strings and pointers -/

theorem strnlenS_string {chars : List Byte} (hchars : 0 ∉ chars) (beyond : List Byte)
    (maxsize : ℕ) :
    strnlenS (chars ++ 0 :: beyond) maxsize = some (min chars.length maxsize) := by
  induction chars generalizing maxsize with
  | nil => simp [strnlenS]
  | cons c chars ih =>
      have hc : c ≠ 0 := fun hzero => hchars (hzero ▸ List.mem_cons_self)
      rw [List.cons_append, strnlenS]
      by_cases hmaxsize : maxsize = 0
      · rw [if_neg (by simp [hmaxsize]), hmaxsize, Nat.min_zero]
      · rw [if_pos ⟨hc, hmaxsize⟩,
          ih (fun hzero => hchars (List.mem_cons_of_mem _ hzero)), List.length_cons,
          Option.map_some]
        congr 1
        omega

theorem prints_putString {chars : List Byte} (hchars : 0 ∉ chars) (beyond : List Byte)
    (flags : Flags) (precision : ℕ) :
    Prints (putString flags (chars ++ 0 :: beyond) precision)
      (if flags.precision then chars.take precision else chars) () := by
  induction chars generalizing precision with
  | nil =>
      rw [List.nil_append, putString, if_neg (fun hmore => hmore.1 rfl), List.take_nil,
        ite_self]
      exact prints_return ()
  | cons c chars ih =>
      have hc : c ≠ 0 := fun hzero => hchars (hzero ▸ List.mem_cons_self)
      have hrest :=
        ih (fun hzero => hchars (List.mem_cons_of_mem _ hzero)) (precision - 1)
      have hprinted := (prints_putchar c).andThen hrest
      rw [List.cons_append, putString]
      cases hgiven : flags.precision with
      | false =>
          rw [hgiven] at hprinted
          rw [if_pos ⟨hc, .inl Bool.false_ne_true⟩]
          exact hprinted
      | true =>
          rw [hgiven] at hprinted
          cases precision with
          | zero =>
              rw [if_neg (by simp)]
              exact prints_return ()
          | succ precision =>
              rw [if_pos ⟨hc, .inr (Nat.succ_ne_zero _)⟩]
              exact hprinted

theorem convertString_eq {s : Specifier w} {chars : List Byte} {args : List (Arg w)}
    {l : ℕ} (hargs : s.args = .string (some chars) :: args)
    (hlength : strnlenS chars
      (if s.precision ≠ 0 then s.precision else maxPossibleBufferSize) =
      some l) :
    convertString s = (do
      padded s.flags.left
        (s.width - if s.flags.precision then
          (if l < s.precision then l else s.precision) else l)
        (putString s.flags chars s.precision)
      return args) := by
  rw [convertString, hargs, padded, bind_assoc]
  simp only [bind_assoc]
  have hread : (StateT.lift (vaString (.string (some chars) :: args)) :
      Print (Option (List Byte) × List (Arg w))) = return (some chars, args) := rfl
  rw [hread, pure_bind]
  dsimp only
  rw [hlength]
  cases s.flags.left with
  | true => rfl
  | false => rfl

/-- `%s` prints the characters before the terminator, or as many of them as the precision
allows, padded to the width. -/
theorem prints_string (layout : Layout) (chars : Chars) (beyond rest : List Byte)
    (args : List (Arg w)) :
    Prints (convert (scanned layout .int (ch 's' :: rest)
      (.string (some (chars.string.chars ++ 0 :: beyond)) :: args)))
      (layout.justify (layout.cut chars.string.chars)) args := by
  obtain ⟨⟨chars, hnonzero⟩, hbounded⟩ := chars
  have hbody : layout.cut chars =
      if (parsed layout).precision then chars.take (layout.precision.value.getD 0)
      else chars := by
    rw [Layout.cut]
    change _ = if layout.precision.value.isSome then _ else _
    cases layout.precision.value with
    | none => rfl
    | some most => rfl
  have hprinted := (prints_padded layout.left layout.width.count
    (prints_putString hnonzero beyond (parsed layout)
      (layout.precision.value.getD 0))).andThen
      (prints_return args)
  have hlength := strnlenS_string hnonzero beyond
    (if layout.precision.value.getD 0 ≠ 0 then layout.precision.value.getD 0
      else maxPossibleBufferSize)
  have hshown : ∀ l, l = min chars.length (if layout.precision.value.getD 0 ≠ 0 then
      layout.precision.value.getD 0 else maxPossibleBufferSize) →
      (if (parsed layout).precision then
        (if l < layout.precision.value.getD 0 then l
          else layout.precision.value.getD 0) else l) =
        (if (parsed layout).precision then chars.take (layout.precision.value.getD 0)
          else chars).length := by
    intro l hl
    change (if layout.precision.value.isSome then _ else _) =
      (if layout.precision.value.isSome then _ else _ : List Byte).length
    change chars.length ≤ maxPossibleBufferSize at hbounded
    cases hvalue : layout.precision.value with
    | none =>
        rw [hvalue, Option.getD_none, if_neg (fun hzero => hzero rfl)] at hl
        simp only [Option.isSome_none, Bool.false_eq_true, if_false]
        omega
    | some most =>
        rw [hvalue, Option.getD_some] at hl
        simp only [Option.getD_some, Option.isSome_some, if_true, List.length_take]
        cases most with
        | zero => simp
        | succ most =>
            rw [if_pos (Nat.succ_ne_zero most)] at hl
            split
            · omega
            · omega
  rw [List.append_nil, ← hshown _ rfl] at hprinted
  change Prints (convertString _) _ _
  rw [convertString_eq rfl hlength, hbody]
  exact hprinted

/-- The field that `out_rev_` makes of a text, behind the flags of a layout. -/
theorem prints_outRev_return (text : List Byte) (htext : text.length < 2 ^ 32) (width : ℕ)
    (flags : Flags) (args : List (Arg w)) :
    Prints (do
      outRev text text.length width flags
      return args) (field flags width text.reverse) args := by
  have hprinted := (prints_outRev htext width flags).andThen (prints_return args)
  rwa [List.append_nil] at hprinted

/-- `%s` of the null pointer prints `(null)`, whatever the precision is. -/
theorem prints_null (layout : Layout) (rest : List Byte) (args : List (Arg w)) :
    Prints (convert (scanned layout .int (ch 's' :: rest) (.string none :: args)))
      (nullOutput layout) args :=
  prints_outRev_return nullText (by decide) layout.width.count (parsed layout) args

/-- `%p`, with no more than a minus sign. -/
def pointerLayout (left : Bool) : Layout where
  flags := if left then [.left] else []
  width := .absent
  precision := .absent

/-- The flags that `%p` hands to `print_integer`. -/
def pointerFlags (left : Bool) : Flags :=
  { parsed (pointerLayout left) with zeropad := true, pointer := true }

theorem asks_pointer (w : ℕ) (left : Bool) :
    Asks (pointerForm w left) (pointerFlags left) 0 := by
  cases left with
  | true | false =>
      exact
        { left := rfl
          zeropad := rfl
          hash := rfl
          uppercase := rfl
          plus := rfl
          space := rfl
          given := rfl
          pointer := fun _ => rfl
          precision := rfl }

/-- All digits of an address and the prefix fit into the buffer. -/
theorem length_pointerBody (hw : w = 32 ∨ w = 64) (left : Bool) {address : BitVec w}
    (haddress : address ≠ 0) :
    ((pointerForm w left).body false address.toNat).length ≤ w / 4 + 2 := by
  have hvalue : address.toNat ≠ 0 := fun hzero => haddress (BitVec.eq_of_toNat_eq hzero)
  have hpow : 2 ^ w = 16 ^ (w / 4) := by
    rcases hw with rfl | rfl
    · norm_num
    · norm_num
  have hdigits : ((pointerForm w left).numeral address.toNat).length ≤ w / 4 :=
    Library.Numeral.length_numeral_le (by decide : 1 < 16) _ (hpow ▸ address.isLt)
  have hpos : 0 < ((pointerForm w left).numeral address.toNat).length :=
    numeral_pos hvalue
  have hhead : ((pointerForm w left).radixPrefix address.toNat).length = 2 := by
    rw [IntegerForm.radixPrefix, if_pos ⟨rfl, hvalue⟩]
    rfl
  have hsign : (pointerForm w left).sign false = [] := rfl
  have hleast : (pointerForm w left).leastDigits address.toNat = 1 := rfl
  have hwidth : (pointerForm w left).width = w / 4 + 2 := rfl
  rw [IntegerForm.body, IntegerForm.digits, hsign, hleast, hwidth]
  simp only [List.length_append, List.length_replicate, List.nil_append, hhead]
  split
  · omega
  · omega

/-- `%p` prints the address in hexadecimal with all its digits, or `(nil)`. -/
theorem prints_pointer (hw : w = 32 ∨ w = 64) (left : Bool) (address : BitVec w)
    (rest : List Byte) (args : List (Arg w)) :
    Prints (convert (scanned (pointerLayout left) .int (ch 'p' :: rest)
      (.pointer address :: args))) (pointerOutput left address) args := by
  have hwidth : w / 8 * 2 + 2 = w / 4 + 2 := by
    rcases hw with rfl | rfl
    · rfl
    · rfl
  change Prints (convertPointer _) _ _
  rw [convertPointer]
  change Prints (do
    if address = 0 then outRev nilText 5 (w / 8 * 2 + 2) (pointerFlags left)
    else printInteger address.toNat false baseHex 0 (w / 8 * 2 + 2) (pointerFlags left)
    return args) _ _
  rw [hwidth, pointerOutput]
  split
  · next hzero =>
    have hprinted := prints_outRev_return nilText (by decide) (w / 4 + 2)
      (pointerFlags left) args
    cases left with
    | true => exact hprinted
    | false => exact hprinted
  · next hnonzero =>
    have hvalue : address.toNat ≠ 0 := fun hzero => hnonzero (BitVec.eq_of_toNat_eq hzero)
    have hlength := length_pointerBody hw left hnonzero
    have hbelow : address.toNat < 2 ^ 64 :=
      address.isLt.trans_le (Nat.pow_le_pow_right (by decide) (by omega))
    have hregular : Regular (pointerForm w left) address.toNat := by
      constructor
      · intro _ _
        change w / 4 + 2 ≠ 33
        omega
      · exact fun hbinary => Radix.noConfusion hbinary
    have hpositive : false = true → (pointerForm w left).signed = true :=
      fun hnegative => absurd hnegative Bool.false_ne_true
    have hprinted :=
      prints_printInteger (asks_pointer w left) hpositive hbelow (fun _ => hvalue)
      hregular
    rw [printed_eq_text (by rw [integerBufferSize]; omega)] at hprinted
    have hreturned := hprinted.andThen (prints_return args)
    rw [List.append_nil] at hreturned
    exact hreturned

/-! ## Other characters -/

theorem prints_percent (rest : List Byte) (args : List (Arg w)) :
    Prints (convert (scanned ⟨[], .absent, .absent⟩ .int (ch '%' :: rest) args)) [ch '%']
      args := by
  have hprinted := (prints_putchar (ch '%')).andThen (prints_return args)
  rw [List.append_nil] at hprinted
  exact hprinted

/-- A character that is no specifier is printed. -/
theorem prints_unknown (layout : Layout) (letter : Unknown) (rest : List Byte)
    (args : List (Arg w)) :
    Prints (convert (scanned layout .int (letter.char :: rest) args))
      [letter.char] args := by
  obtain ⟨c, -, -, -, hnot⟩ := letter
  simp only [specifiers, List.mem_cons, List.not_mem_nil, or_false, not_or] at hnot
  obtain ⟨hd, hi, hu, hx, hX, ho, hb, hc, hs, hp, hpercent⟩ := hnot
  have hinteger : isIntegerSpecifier c = false := by
    simp [isIntegerSpecifier, hd, hi, hu, hx, hX, ho, hb]
  have hprinted := (prints_putchar c).andThen (prints_return args)
  rw [List.append_nil] at hprinted
  rw [convert]
  change Prints
    (if isIntegerSpecifier c then _ else if c = ch 'c' then _ else if c = ch 's' then _
    else if c = ch 'p' then _ else if c = ch '%' then _ else _) _ _
  rw [if_neg (by rw [hinteger]; decide), if_neg hc, if_neg hs, if_neg hp, if_neg hpercent]
  exact hprinted

end Rvem.Conversions
