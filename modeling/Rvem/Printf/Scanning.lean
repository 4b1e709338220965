import Rvem.Printf.Directives

/-!
# Scanning a directive

The scanner of `format_string_loop` reads back what a directive is made of: its flags,
width, precision and length.  Each stage stops in front of the text of the next.  The
scanner tests the terminator behind some characters of a directive and not behind
others, so a stage asks what comes next only where the code does.  A number from the
format is read by `atou_` in 32 bits.
-/

namespace Rvem.Scanning

open Rvem.Arch
open Rvem.Gadget
open Rvem.PrintInteger
open Rvem.FormatLoop
open Rvem.Directives
open Rvem.Library.Numeral

variable {w : ℕ}

/-! ## Decimal numbers -/

def digitOf (c : Byte) : Option ℕ :=
  if isDigit c then some (c - ch '0').toNat else none

theorem digitOf_decimalDigit : ∀ d < 10, digitOf (decimalDigit d) = some d := by
  decide

theorem isDigit_decimalDigit : ∀ d < 10, isDigit (decimalDigit d) = true := by
  decide

/-- `atou_` counts modulo `2 ^ 32`. -/
theorem atou_eq_scan (i : ℕ) (format : List Byte) :
    atou (i % 2 ^ 32) format =
      ((scan 10 digitOf i format).1 % 2 ^ 32, (scan 10 digitOf i format).2) := by
  induction format generalizing i with
  | nil => rfl
  | cons c format ih =>
      rw [atou, scan, digitOf]
      split
      · have hsame : (i % 2 ^ 32 * 10 + (c - ch '0').toNat) % 2 ^ 32 =
            (i * 10 + (c - ch '0').toNat) % 2 ^ 32 := by
          rw [Nat.add_mod, Nat.mul_mod, Nat.mod_mod, ← Nat.mul_mod, ← Nat.add_mod]
        rw [hsame, ih]
      · rfl

theorem noDigit_of_peek {format : List Byte} (hformat : isDigit (peek format) = false) :
    NoDigit digitOf format := by
  cases format with
  | nil => intro c hc; cases hc
  | cons c format =>
      intro _ hc
      cases hc
      rw [digitOf, if_neg (by rw [show isDigit c = false from hformat]; decide)]

/-- `atou_` reads a decimal number of 32 bits, zeros in front of it included. -/
theorem atou_decimal {count : ℕ} (hcount : count < 2 ^ 32) (zeros : ℕ) {rest : List Byte}
    (hrest : isDigit (peek rest) = false) :
    atou 0 (List.replicate zeros (decimalDigit 0) ++ decimal count ++ rest) =
      (count, rest) := by
  have hscan := scan_numeral (by decide : 1 < 10) digitOf_decimalDigit zeros count
    (noDigit_of_peek hrest)
  have hatou :=
    atou_eq_scan 0 (List.replicate zeros (decimalDigit 0) ++ decimal count ++ rest)
  rw [decimal, hscan, Nat.mod_eq_of_lt hcount] at hatou
  exact hatou

theorem decimal_digits (count : ℕ) : ∀ c ∈ decimal count, isDigit c = true := by
  intro c hc
  rw [decimal, numeral, List.mem_reverse, List.mem_map] at hc
  obtain ⟨d, hd, rfl⟩ := hc
  exact isDigit_decimalDigit d (Nat.digits_lt_base (by decide) hd)

theorem digits_given (zeros count : ℕ) :
    ∀ c ∈ List.replicate zeros (decimalDigit 0) ++ decimal count, isDigit c = true := by
  intro c hc
  rcases List.mem_append.mp hc with hc | hc
  · rw [List.eq_of_mem_replicate hc]
    decide
  · exact decimal_digits count c hc

/-! ## Flags -/

def FlagChar.set (flags : Flags) : FlagChar → Flags
  | .zero => { flags with zeropad := true }
  | .left => { flags with left := true }
  | .plus => { flags with plus := true }
  | .space => { flags with space := true }
  | .hash => { flags with hash := true }

theorem parseFlags_cons (flag : FlagChar) (flags : Flags) (format : List Byte) :
    parseFlags flags (flag.char :: format) =
      parseFlags (FlagChar.set flags flag) format := by
  cases flag with
  | zero => rfl
  | left => rfl
  | plus => rfl
  | space => rfl
  | hash => rfl

theorem parseFlags_of_not_flag {c : Byte} (hc : c ∉ flagChars) (flags : Flags)
    (format : List Byte) : parseFlags flags (c :: format) = (flags, c :: format) := by
  simp only [flagChars, List.mem_cons, List.not_mem_nil, or_false, not_or] at hc
  simp only [parseFlags, hc, if_false]

/-- The flags of a directive are all read, in any order and number. -/
theorem parseFlags_append (list : List FlagChar) (flags : Flags) {rest : List Byte}
    (hrest : peek rest ∉ flagChars) :
    parseFlags flags (list.map FlagChar.char ++ rest) =
      (list.foldl FlagChar.set flags, rest) := by
  induction list generalizing flags with
  | nil =>
      cases rest with
      | nil => rfl
      | cons c rest => exact parseFlags_of_not_flag hrest flags rest
  | cons flag list ih =>
      rw [List.map_cons, List.cons_append, parseFlags_cons, ih]
      rfl

/-- The flags of a list, in any order and however often. -/
theorem foldl_set (list : List FlagChar) (flags : Flags) :
    list.foldl FlagChar.set flags =
      { flags with
        zeropad := flags.zeropad || list.contains .zero
        left := flags.left || list.contains .left
        plus := flags.plus || list.contains .plus
        space := flags.space || list.contains .space
        hash := flags.hash || list.contains .hash } := by
  induction list generalizing flags with
  | nil => simp
  | cons flag list ih =>
      rw [List.foldl_cons, ih]
      cases flag with
      | zero => simp [FlagChar.set]
      | left => simp [FlagChar.set]
      | plus => simp [FlagChar.set]
      | space => simp [FlagChar.set]
      | hash => simp [FlagChar.set]

/-! ## Width and precision -/

theorem advance_cons (c : Byte) {rest : List Byte} (hrest : rest ≠ []) :
    advance (c :: rest) = .ok rest := by
  obtain ⟨next, rest, rfl⟩ := List.exists_cons_of_ne_nil hrest
  rfl

/-- A positive number starts with a digit. -/
theorem decimal_cons {count : ℕ} (hcount : count ≠ 0) :
    ∃ c digits, decimal count = c :: digits ∧ isDigit c = true := by
  have hnonempty : decimal count ≠ [] := numeral_ne_nil decimalDigit hcount
  obtain ⟨c, digits, hdigits⟩ := List.exists_cons_of_ne_nil hnonempty
  refine ⟨c, digits, hdigits, decimal_digits count c ?_⟩
  rw [hdigits]
  exact List.mem_cons_self

/-- The text behind the width. -/
structure BehindWidth (rest : List Byte) : Prop where
  not_flag : peek rest ∉ flagChars
  not_digit : isDigit (peek rest) = false
  not_star : peek rest ≠ ch '*'

/-- The number and the flag that a width from the arguments stands for. -/
theorem negated_width {value : BitVec 32} (hvalue : value ≠ BitVec.intMin 32) :
    ∃ width, (if value.toInt < 0 then negated value else some value) = some width ∧
      width.toNat = value.toInt.natAbs := by
  have htoNat := BitVec.toInt_eq_toNat_cond value
  by_cases hnegative : value.toInt < 0
  · refine ⟨-value, ?_, ?_⟩
    · rw [if_pos hnegative, negated, if_neg hvalue]
    · have hneg := BitVec.toNat_neg value
      omega
  · refine ⟨value, if_neg hnegative, ?_⟩
    omega

theorem parseWidth_star {s : Specifier w} {value : BitVec 32} {rest : List Byte}
    {args : List (Arg w)} (hformat : s.format = ch '*' :: rest)
    (hargs : s.args = .int value :: args) :
    parseWidth s =
      (orUndefined (if value.toInt < 0 then negated value else some value)).bind
        fun width => (advance (ch '*' :: rest)).bind fun format => .ok
          { flags := if value.toInt < 0 then { s.flags with left := true } else s.flags
            width := width.toNat
            precision := s.precision
            format
            args } := by
  have hnotdigit : ¬isDigit (peek (ch '*' :: rest)) = true := by
    change ¬isDigit (ch '*') = true
    decide
  have hisstar : peek (ch '*' :: rest) = ch '*' := rfl
  rw [parseWidth, hformat, hargs, if_neg hnotdigit, if_pos hisstar]
  rfl

/-- A width from the format or from the arguments; a negative one asks for the
left side. -/
theorem parseWidth_text (width : Width) (hdefined : width.Defined) {s : Specifier w}
    {rest : List Byte} {args : List (Arg w)} (hwidth : s.width = 0)
    (hformat : s.format = width.text ++ rest) (hargs : s.args = width.args ++ args)
    (hnonempty : rest ≠ [] ∨ ∀ value, width ≠ .star value) (hrest : BehindWidth rest) :
    parseWidth s = .ok
      { s with
        flags := { s.flags with left := s.flags.left || width.left }
        width := width.count
        format := rest
        args := args } := by
  obtain ⟨-, hdigit, hstar⟩ := hrest
  cases width with
  | absent =>
      rw [Width.text, List.nil_append] at hformat
      rw [Width.args, List.nil_append] at hargs
      rw [parseWidth, hformat, hdigit, if_neg (by decide), if_neg hstar]
      cases s
      cases hformat
      cases hargs
      cases hwidth
      simp only [Width.left, Width.count, Bool.or_false]
      rfl
  | given count positive bounded =>
      obtain ⟨c, digits, hdecimal, hc⟩ := decimal_cons (by omega : count ≠ 0)
      have hpeek : isDigit (peek s.format) = true := by
        rw [hformat, Width.text, hdecimal]
        exact hc
      have hatou := atou_decimal bounded 0 hdigit
      rw [List.replicate_zero, List.nil_append] at hatou
      rw [parseWidth, if_pos hpeek, hformat, Width.text, hatou]
      cases s
      cases hargs
      simp only [Width.left, Width.count, Bool.or_false]
      rfl
  | star value =>
      obtain ⟨width, hnegated, htoNat⟩ := negated_width hdefined
      have hpeek : s.format = ch '*' :: rest := hformat
      have hvalue : s.args = .int value :: args := hargs
      rw [parseWidth_star hpeek hvalue, hnegated,
        advance_cons _ (hnonempty.resolve_right fun hnot => hnot value rfl)]
      change Except.ok _ = Except.ok _
      rw [htoNat]
      by_cases hnegative : value.toInt < 0
      · simp [hnegative, Width.left, Width.count]
      · simp [hnegative, Width.left, Width.count]

theorem advanceDigits_decimal {digits : List Byte}
    (hdigits : ∀ c ∈ digits, isDigit c = true)
    (c : Byte) {rest : List Byte} (hnonempty : rest ≠ [])
    (hrest : isDigit (peek rest) = false) :
    advanceDigits (c :: (digits ++ rest)) = .ok rest := by
  induction digits generalizing c with
  | nil =>
      obtain ⟨next, rest, rfl⟩ := List.exists_cons_of_ne_nil hnonempty
      rw [List.nil_append, advanceDigits,
        if_neg (by rw [show isDigit next = false from hrest]; decide)]
  | cons d digits ih =>
      rw [List.cons_append, advanceDigits, if_pos (hdigits d List.mem_cons_self)]
      exact ih (fun c hc => hdigits c (List.mem_cons_of_mem _ hc)) d

theorem ok_bind {A B : Type} (value : A) (next : A → Except Stop B) :
    (do let found ← Except.ok value; next found) = next value := rfl

/-- The text behind the width and the precision. -/
structure Behind (rest : List Byte) : Prop where
  nonempty : rest ≠ []
  letter : Letter (peek rest)

theorem parsePrecision_digit {s : Specifier w} {text : List Byte}
    (hformat : s.format = ch '.' :: text) (hdigit : isDigit (peek text) = true) :
    parsePrecision s = .ok
      { s with
        flags := { s.flags with precision := true }
        precision := (atou 0 text).1
        format := (atou 0 text).2 } := by
  have hisdot : peek (ch '.' :: text) = ch '.' := rfl
  have hnonempty : text ≠ [] := by
    rintro rfl
    exact absurd hdigit (by decide)
  have hnotminus : peek text ≠ ch '-' := by
    intro hminus
    rw [hminus] at hdigit
    exact absurd hdigit (by decide)
  rw [parsePrecision, hformat, if_pos hisdot, advance_cons _ hnonempty, ok_bind,
    if_neg hnotminus, if_pos hdigit]
  rfl

theorem parsePrecision_minus {s : Specifier w} {text : List Byte}
    (hformat : s.format = ch '.' :: ch '-' :: text) :
    parsePrecision s = (advanceDigits (ch '-' :: text)).bind fun rest =>
      .ok { s with flags := { s.flags with precision := false }, format := rest } := by
  have hisdot : peek (ch '.' :: ch '-' :: text) = ch '.' := rfl
  have hisminus : peek (ch '-' :: text) = ch '-' := rfl
  rw [parsePrecision, hformat, if_pos hisdot, advance_cons _ (List.cons_ne_nil _ _),
    ok_bind, if_pos hisminus]
  rfl

/-- A precision from the format or from the arguments; a negative one is as good
as none. -/
theorem parsePrecision_text (precision : Precision) {s : Specifier w} {rest : List Byte}
    {args : List (Arg w)} (hprecision : s.precision = 0)
    (hflag : s.flags.precision = false)
    (hformat : s.format = precision.text ++ rest)
    (hargs : s.args = precision.args ++ args) (hrest : Behind rest) :
    parsePrecision s = .ok
      { s with
        flags := { s.flags with precision := precision.value.isSome }
        precision := precision.value.getD 0
        format := rest
        args := args } := by
  obtain ⟨hnonempty, hnotflag, hdigit, hstar, hdot⟩ := hrest
  have hminus : peek rest ≠ ch '-' := by
    intro hminus
    rw [hminus] at hnotflag
    exact hnotflag (by decide)
  cases precision with
  | absent =>
      rw [Precision.text, List.nil_append] at hformat
      change s.args = args at hargs
      rw [parsePrecision, hformat, if_neg hdot]
      cases s
      cases hformat
      cases hargs
      cases hprecision
      change Except.ok _ = Except.ok _
      simp only [Precision.value, Option.isSome_none, ← hflag, Option.getD_none]
  | given zeros count bounded =>
      have hatou := atou_decimal bounded zeros hdigit
      have hdigits : ∀ c ∈ List.replicate zeros (decimalDigit 0) ++ decimal count,
          isDigit c = true := digits_given zeros count
      have hpeek :
          s.format = ch '.' :: (List.replicate zeros (decimalDigit 0) ++ decimal count ++
          rest) := hformat
      generalize List.replicate zeros (decimalDigit 0) ++ decimal count = digits
        at hpeek hdigits hatou
      cases digits with
      | nil =>
          have hisdot : peek (ch '.' :: rest) = ch '.' := rfl
          rw [List.nil_append] at hpeek hatou
          rw [parsePrecision, hpeek, if_pos hisdot, advance_cons _ hnonempty, ok_bind]
          have hnone : atou 0 rest = (0, rest) := by
            obtain ⟨c, rest, rfl⟩ := List.exists_cons_of_ne_nil hnonempty
            rw [atou, if_neg (by rw [show isDigit c = false from hdigit]; decide)]
          rw [hnone] at hatou
          cases hatou
          rw [if_neg hminus, if_neg (by rw [hdigit]; decide), if_neg hstar]
          cases s
          cases hargs
          cases hprecision
          rfl
      | cons d digits =>
          have hd : isDigit d = true := hdigits d List.mem_cons_self
          rw [parsePrecision_digit hpeek hd, hatou]
          cases s
          cases hargs
          rfl
  | minus count =>
      rw [parsePrecision_minus hformat]
      change (advanceDigits (ch '-' :: (decimal count ++ rest))).bind _ = _
      rw [advanceDigits_decimal (decimal_digits count) _ hnonempty hdigit]
      cases s
      cases hargs
      cases hprecision
      rfl
  | star value =>
      have hpeek : s.format = ch '.' :: ch '*' :: rest := hformat
      have hisdot : peek (ch '.' :: ch '*' :: rest) = ch '.' := rfl
      have hisstar : peek (ch '*' :: rest) = ch '*' := rfl
      have hnotminus : peek (ch '*' :: rest) ≠ ch '-' := by
        change ch '*' ≠ ch '-'
        decide
      have hnotdigit : ¬isDigit (peek (ch '*' :: rest)) = true := by
        change ¬isDigit (ch '*') = true
        decide
      rw [parsePrecision, hpeek, if_pos hisdot, advance_cons _ (List.cons_ne_nil _ _),
        ok_bind]
      rw [if_neg hnotminus, if_neg hnotdigit, if_pos hisstar, hargs]
      change (do
        let format ← advance (ch '*' :: rest)
        return _) = _
      rw [advance_cons _ hnonempty]
      change Except.ok _ = Except.ok _
      by_cases hnegative : value.toInt < 0
      · simp [hnegative, Precision.value, hprecision]
      · simp [hnegative, Precision.value]

/-! ## Length -/

def Length.set (w : ℕ) (flags : Flags) : Length → Flags
  | .char => { flags with short := true, char := true }
  | .short => { flags with short := true }
  | .int => flags
  | .long => { flags with long := true }
  | .longLong => { flags with long := true, longLong := true }
  | .size => pointerSized w flags
  | .difference => pointerSized w flags
  | .maximum => maximumSized w flags

theorem parseLength_text (length : Length) {s : Specifier w} {c : Byte} {rest : List Byte}
    (hformat : s.format = length.text ++ c :: rest) (hc : c ∉ lengthChars) :
    parseLength s =
      .ok { s with flags := Length.set w s.flags length, format := c :: rest } := by
  simp only [lengthChars, List.mem_cons, List.not_mem_nil, or_false, not_or] at hc
  obtain ⟨hl, hL, hh, ht, hj, hz⟩ := hc
  rw [parseLength, hformat]
  cases length with
  | char => rfl
  | short =>
      change (if c = ch 'h' then _ else _) = _
      rw [if_neg hh]
      rfl
  | int =>
      rw [Length.text, List.nil_append, peek, if_neg hl, if_neg hL, if_neg hh,
        if_neg (not_or.mpr ⟨ht, hz⟩), if_neg hj]
      cases s
      cases hformat
      rfl
  | long =>
      change (if c = ch 'l' then _ else _) = _
      rw [if_neg hl]
      rfl
  | longLong => rfl
  | size => rfl
  | difference => rfl
  | maximum => rfl

/-! ## The whole of it -/

/-- The flags behind the precision. -/
def parsed (layout : Layout) : Flags where
  zeropad := layout.has .zero
  left := layout.left
  plus := layout.has .plus
  space := layout.has .space
  hash := layout.has .hash
  precision := layout.precision.value.isSome

/-- The locals at the specifier. -/
def scanned (layout : Layout) (length : Length) (format : List Byte)
    (args : List (Arg w)) :
    Specifier w where
  flags := Length.set w (parsed layout) length
  width := layout.width.count
  precision := layout.precision.value.getD 0
  format := format
  args := args

theorem behind_length (length : Length) {c : Byte} (hc : Letter c) (rest : List Byte) :
    Behind (length.text ++ c :: rest) := by
  cases length with
  | int => exact ⟨List.cons_ne_nil _ _, hc⟩
  | char | short | long | longLong | size | difference | maximum =>
      refine ⟨List.cons_ne_nil _ _, ?_⟩
      change Letter (ch _)
      decide

/-- The first digit of a positive number is not a flag. -/
theorem peek_decimal {count : ℕ} (hcount : count ≠ 0) (rest : List Byte) :
    peek (decimal count ++ rest) ∉ flagChars := by
  have hnonempty : Nat.digits 10 count ≠ [] := Nat.digits_ne_nil_iff_ne_zero.mpr hcount
  have hfirst : peek (decimal count ++ rest) =
      decimalDigit ((Nat.digits 10 count).getLast hnonempty) := by
    rw [decimal, numeral]
    nth_rewrite 1 [← List.dropLast_append_getLast hnonempty]
    rw [List.map_append, List.reverse_append]
    rfl
  have hlast : (Nat.digits 10 count).getLast hnonempty ≠ 0 :=
    Nat.getLast_digit_ne_zero 10 hcount
  have hbelow : (Nat.digits 10 count).getLast hnonempty < 10 :=
    Nat.digits_lt_base (by decide) (List.getLast_mem hnonempty)
  have hflags : ∀ d < 10, d ≠ 0 → decimalDigit d ∉ flagChars := by decide
  rw [hfirst]
  exact hflags _ hbelow hlast

/-- The locals behind the width. -/
def scannedWidth (flags : List FlagChar) (width : Width) (format : List Byte)
    (args : List (Arg w)) : Specifier w where
  flags :=
    { zeropad := flags.contains .zero
      left := flags.contains .left || width.left
      plus := flags.contains .plus
      space := flags.contains .space
      hash := flags.contains .hash }
  width := width.count
  precision := 0
  format := format
  args := args

theorem peek_width (width : Width) {rest : List Byte} (hrest : peek rest ∉ flagChars) :
    peek (width.text ++ rest) ∉ flagChars := by
  cases width with
  | absent => exact hrest
  | given count positive => exact peek_decimal (by omega) rest
  | star =>
      change ch '*' ∉ flagChars
      decide

theorem parseSpecifier_width (flags : List FlagChar) {width : Width}
    (hdefined : width.Defined) {rest : List Byte}
    (hrest : BehindWidth rest)
    (hinside : flags.map FlagChar.char ++ (width.text ++ rest) ≠ [])
    (hnonempty : rest ≠ [] ∨ ∀ value, width ≠ .star value) (args : List (Arg w)) :
    parseSpecifier (ch '%' :: (flags.map FlagChar.char ++ (width.text ++ rest)))
      (width.args ++ args) =
      (do
        let s ← parsePrecision (scannedWidth flags width rest args)
        parseLength s) := by
  rw [parseSpecifier, advance_cons _ hinside, ok_bind,
    parseFlags_append _ _ (peek_width width hrest.not_flag), foldl_set]
  dsimp only
  rw [parseWidth_text width hdefined rfl rfl rfl hnonempty hrest, ok_bind]
  simp [scannedWidth]

theorem behindWidth_precision (precision : Precision) {rest : List Byte}
    (hrest : Behind rest) :
    BehindWidth (precision.text ++ rest) := by
  obtain ⟨-, hnotflag, hdigit, hstar, -⟩ := hrest
  cases precision with
  | absent => exact ⟨hnotflag, hdigit, hstar⟩
  | given | minus | star =>
      have hdot : ch '.' ∉ flagChars ∧ isDigit (ch '.') = false ∧ ch '.' ≠ ch '*' := by
        decide
      exact ⟨hdot.1, hdot.2.1, hdot.2.2⟩

theorem parseSpecifier_layout (layout : Layout) (hdefined : layout.width.Defined)
    {rest : List Byte} (hrest : Behind rest) (args : List (Arg w)) :
    parseSpecifier (ch '%' :: (layout.text ++ rest)) (layout.args ++ args) =
      parseLength (scanned layout .int rest args) := by
  have hnonempty : layout.precision.text ++ rest ≠ [] :=
    List.append_ne_nil_of_right_ne_nil _ hrest.nonempty
  have hinside : layout.flags.map FlagChar.char ++
      (layout.width.text ++ (layout.precision.text ++ rest)) ≠ [] :=
    List.append_ne_nil_of_right_ne_nil _ (List.append_ne_nil_of_right_ne_nil _ hnonempty)
  rw [Layout.text, Layout.args, List.append_assoc, List.append_assoc, List.append_assoc,
    parseSpecifier_width layout.flags hdefined (behindWidth_precision _ hrest) hinside
      (.inl hnonempty),
    parsePrecision_text layout.precision rfl rfl rfl rfl hrest, ok_bind]
  rfl

/-- A directive is scanned into its flags, width, precision and length, and the loop goes
on at its letter. -/
theorem parseSpecifier_text (layout : Layout) (hdefined : layout.width.Defined)
    (length : Length) {c : Byte} (hletter : Letter c) (hlength : c ∉ lengthChars)
    (rest : List Byte) (args : List (Arg w)) :
    parseSpecifier (ch '%' :: (layout.text ++ (length.text ++ c :: rest)))
      (layout.args ++ args) =
      .ok (scanned layout length (c :: rest) args) := by
  rw [parseSpecifier_layout layout hdefined (behind_length length hletter rest),
    parseLength_text length rfl hlength]
  rfl

end Rvem.Scanning
