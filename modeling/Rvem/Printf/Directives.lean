import Rvem.Printf.FormatLoop
import Rvem.Printf.Text

/-!
# Formats as C reads them

A format is a list of directives.  A directive has a text, the arguments it consumes and
the characters that C asks for.  The width and the precision may come from the
arguments, with the meaning that a negative number has for each.  A plain directive is
one on which `printf` does what C asks for; the conditions name the directives on which
it does not.
-/

namespace Rvem.Directives

open Rvem.Arch
open Rvem.Gadget
open Rvem.FormatLoop
open Rvem.Text (justify Radix IntegerForm)
open Rvem.Library.Numeral

variable {w : ℕ}

def decimalDigit (digit : ℕ) : Byte :=
  ch '0' + BitVec.ofNat 8 digit

/-- The digits of `count`, none for zero. -/
def decimal (count : ℕ) : List Byte :=
  numeral 10 decimalDigit count

/-! ## Flags, width and precision -/

inductive FlagChar
  | zero
  | left
  | plus
  | space
  | hash
  deriving DecidableEq

def FlagChar.char : FlagChar → Byte
  | .zero => ch '0'
  | .left => ch '-'
  | .plus => ch '+'
  | .space => ch ' '
  | .hash => ch '#'

/-- A width in the format does not start with a zero, which is a flag there. -/
inductive Width
  | absent
  | given (count : ℕ) (positive : 0 < count) (bounded : count < 2 ^ 32)
  | star (value : BitVec 32)

def Width.text : Width → List Byte
  | .absent => []
  | .given count _ _ => decimal count
  | .star _ => [ch '*']

def Width.args : Width → List (Arg w)
  | .absent => []
  | .given _ _ _ => []
  | .star value => [.int value]

/-- A negative width is a flag and a width. -/
def Width.left : Width → Bool
  | .star value => value.toInt < 0
  | _ => false

def Width.count : Width → ℕ
  | .absent => 0
  | .given count _ _ => count
  | .star value => value.toInt.natAbs

/-- Not the smallest `int`, which has no negation. -/
def Width.Defined : Width → Prop
  | .star value => value ≠ BitVec.intMin 32
  | _ => True

instance Width.Defined.decidable : (width : Width) → Decidable width.Defined
  | .absent => inferInstanceAs (Decidable True)
  | .given _ _ _ => inferInstanceAs (Decidable True)
  | .star value => inferInstanceAs (Decidable (value ≠ BitVec.intMin 32))

/-- The smallest `int` as a width does not fit into an `int`. -/
theorem Width.defined_of_count {width : Width}
    (hcount : width.count ≤ maxPossibleBufferSize) :
    width.Defined := by
  cases width with
  | absent => trivial
  | given => trivial
  | star value =>
      rintro rfl
      exact absurd hcount (by decide)

/-- A precision; without digits it is zero.  A negative one counts as none. -/
inductive Precision
  | absent
  | given (zeros count : ℕ) (bounded : count < 2 ^ 32)
  | minus (count : ℕ)
  | star (value : BitVec 32)

def Precision.text : Precision → List Byte
  | .absent => []
  | .given zeros count _ =>
      ch '.' :: (List.replicate zeros (decimalDigit 0) ++ decimal count)
  | .minus count => ch '.' :: ch '-' :: decimal count
  | .star _ => [ch '.', ch '*']

def Precision.args : Precision → List (Arg w)
  | .star value => [.int value]
  | _ => []

def Precision.value : Precision → Option ℕ
  | .absent => none
  | .given _ count _ => some count
  | .minus _ => none
  | .star value => if value.toInt < 0 then none else some value.toNat

/-- `[flags][width][.precision]` -/
structure Layout where
  flags : List FlagChar
  width : Width
  precision : Precision

namespace Layout

def text (layout : Layout) : List Byte :=
  layout.flags.map FlagChar.char ++ (layout.width.text ++ layout.precision.text)

def args (layout : Layout) : List (Arg w) :=
  layout.width.args ++ layout.precision.args

def has (layout : Layout) (flag : FlagChar) : Bool :=
  layout.flags.contains flag

def left (layout : Layout) : Bool :=
  layout.has .left || layout.width.left

/-- `body` in the field of the layout. -/
def justify (layout : Layout) (body : List Byte) : List Byte :=
  Text.justify layout.left layout.width.count body

/-- The characters of a string up to the precision. -/
def cut (layout : Layout) (chars : List Byte) : List Byte :=
  match layout.precision.value with
  | none => chars
  | some most => chars.take most

end Layout

/-! ## Integer conversions -/

inductive Length
  | char
  | short
  | int
  | long
  | longLong
  | size
  | difference
  | maximum
  deriving DecidableEq

namespace Length

def text : Length → List Byte
  | .char => [ch 'h', ch 'h']
  | .short => [ch 'h']
  | .int => []
  | .long => [ch 'l']
  | .longLong => [ch 'l', ch 'l']
  | .size => [ch 'z']
  | .difference => [ch 't']
  | .maximum => [ch 'j']

/-- The width of the type that the argument is converted to. -/
def bits (w : ℕ) : Length → ℕ
  | .char => 8
  | .short => 16
  | .int => 32
  | .long => w
  | .longLong => 64
  | .size => w
  | .difference => w
  | .maximum => 64

/-- The argument as it is passed: an `int`, a `long` or a `long long` with the low bits of
`number`. -/
def arg (number : BitVec 64) : Length → Arg w
  | .char | .short | .int => .int (number.setWidth 32)
  | .long => .long (number.setWidth w)
  | .longLong => .longLong number
  | .size | .difference =>
      if w = 32 then .int (number.setWidth 32) else .long (number.setWidth w)
  | .maximum => if w = 64 then .long (number.setWidth w) else .longLong number

end Length

inductive IntegerLetter
  | d
  | i
  | u
  | x
  | X
  | o
  | b
  deriving DecidableEq

namespace IntegerLetter

def char : IntegerLetter → Byte
  | .d => ch 'd'
  | .i => ch 'i'
  | .u => ch 'u'
  | .x => ch 'x'
  | .X => ch 'X'
  | .o => ch 'o'
  | .b => ch 'b'

def radix : IntegerLetter → Radix
  | .d | .i | .u => .decimal
  | .x | .X => .hex
  | .o => .octal
  | .b => .binary

def signed (letter : IntegerLetter) : Bool :=
  letter == .d || letter == .i

theorem decimal_of_signed {letter : IntegerLetter} (hsigned : letter.signed = true) :
    letter.radix = .decimal := by
  cases letter with
  | d => rfl
  | i => rfl
  | u | x | X | o | b => cases hsigned

end IntegerLetter

structure IntegerConversion where
  layout : Layout
  length : Length
  letter : IntegerLetter
  number : BitVec 64

namespace IntegerConversion

/-- The argument with the type of the conversion. -/
def value (w : ℕ) (conversion : IntegerConversion) : ℤ :=
  let converted := conversion.number.setWidth (conversion.length.bits w)
  if conversion.letter.signed then converted.toInt else converted.toNat

def form (conversion : IntegerConversion) : IntegerForm where
  radix := conversion.letter.radix
  upper := conversion.letter == .X
  signed := conversion.letter.signed
  left := conversion.layout.left
  zero := conversion.layout.has .zero
  plus := conversion.layout.has .plus
  space := conversion.layout.has .space
  alternative := conversion.layout.has .hash
  precision := conversion.layout.precision.value
  width := conversion.layout.width.count
  decimal_of_signed := IntegerLetter.decimal_of_signed

def negative (w : ℕ) (conversion : IntegerConversion) : Bool :=
  conversion.value w < 0

def magnitude (w : ℕ) (conversion : IntegerConversion) : ℕ :=
  (conversion.value w).natAbs

def body (w : ℕ) (conversion : IntegerConversion) : List Byte :=
  conversion.form.body (conversion.negative w) (conversion.magnitude w)

def output (w : ℕ) (conversion : IntegerConversion) : List Byte :=
  conversion.form.text (conversion.negative w) (conversion.magnitude w)

/-- What keeps an integer conversion from being printed as C asks: a width or a value
that cannot be negated, a body longer than the conversion buffer, and the zero that
`%#.b` prefixes. -/
structure Plain (w : ℕ) (conversion : IntegerConversion) : Prop where
  width : conversion.layout.width.Defined
  negatable : conversion.value w ≠ -2 ^ 63
  fits : (conversion.body w).length ≤ PrintInteger.integerBufferSize
  nonzero : conversion.letter = .b → conversion.layout.has .hash →
    conversion.layout.precision.value.isSome → conversion.magnitude w ≠ 0

end IntegerConversion

/-! ## Directives -/

/-- A string whose length is an `int`. -/
structure Chars where
  string : CString
  bounded : string.chars.length ≤ maxPossibleBufferSize

/-- An address in hexadecimal, all digits of it. -/
def pointerForm (w : ℕ) (left : Bool) : IntegerForm where
  radix := .hex
  upper := false
  signed := false
  left := left
  zero := true
  plus := false
  space := false
  alternative := true
  precision := none
  width := w / 4 + 2
  decimal_of_signed := nofun

/-- `(null)` is not padded in a field of zeros. -/
def nullOutput (layout : Layout) : List Byte :=
  if layout.has .zero && !layout.left then nullText.reverse
  else layout.justify nullText.reverse

/-- `(nil)` is only padded on the right. -/
def pointerOutput (left : Bool) (address : BitVec w) : List Byte :=
  if address = 0 then
    if left then Text.justify true (w / 4 + 2) nilText.reverse else nilText.reverse
  else (pointerForm w left).text false address.toNat

def flagChars : List Byte := [ch '0', ch '-', ch '+', ch ' ', ch '#']

def lengthChars : List Byte := [ch 'l', ch 'L', ch 'h', ch 't', ch 'j', ch 'z']

/-- A character after which a flag, a width or a precision does not go on. -/
def Letter (c : Byte) : Prop :=
  c ∉ flagChars ∧ isDigit c = false ∧ c ≠ ch '*' ∧ c ≠ ch '.'

instance Letter.decidable (c : Byte) : Decidable (Letter c) :=
  inferInstanceAs (Decidable (_ ∧ _ ∧ _ ∧ _))

/-- The specifiers of this configuration. -/
def specifiers : List Byte :=
  [ch 'd', ch 'i', ch 'u', ch 'x', ch 'X', ch 'o', ch 'b', ch 'c', ch 's', ch 'p', ch '%']

/-- A character that is not a specifier of this configuration, those of the
floating-point conversions among them. -/
structure Unknown where
  char : Byte
  nonzero : char ≠ 0
  letter : Letter char
  not_length : char ∉ lengthChars
  not_specifier : char ∉ specifiers

inductive Directive (w : ℕ)
  | literal (c : Byte) (nonzero : c ≠ 0) (not_percent : c ≠ ch '%')
  | percent
  | integer (conversion : IntegerConversion)
  | char (layout : Layout) (value : BitVec 32)
  | string (layout : Layout) (chars : Chars) (beyond : List Byte)
  | null (layout : Layout)
  | pointer (left : Bool) (address : BitVec w)
  | unknown (layout : Layout) (letter : Unknown)

namespace Directive

def text : Directive w → List Byte
  | .literal c _ _ => [c]
  | .percent => [ch '%', ch '%']
  | .integer conversion =>
      ch '%' ::
        (conversion.layout.text ++ (conversion.length.text ++ [conversion.letter.char]))
  | .char layout _ => ch '%' :: (layout.text ++ [ch 'c'])
  | .string layout _ _ => ch '%' :: (layout.text ++ [ch 's'])
  | .null layout => ch '%' :: (layout.text ++ [ch 's'])
  | .pointer left _ => ch '%' :: ((if left then [ch '-'] else []) ++ [ch 'p'])
  | .unknown layout letter => ch '%' :: (layout.text ++ [letter.char])

def args : Directive w → List (Arg w)
  | .literal _ _ _ => []
  | .percent => []
  | .integer conversion =>
      conversion.layout.args ++ [conversion.length.arg conversion.number]
  | .char layout value => layout.args ++ [.int value]
  | .string layout chars beyond =>
      layout.args ++ [.string (some (chars.string.chars ++ 0 :: beyond))]
  | .null layout => layout.args ++ [.string none]
  | .pointer _ address => [.pointer address]
  | .unknown layout _ => layout.args

/-- An unknown specifier stands for itself. -/
def output : Directive w → List Byte
  | .literal c _ _ => [c]
  | .percent => [ch '%']
  | .integer conversion => conversion.output w
  | .char layout value => layout.justify [value.setWidth 8]
  | .string layout chars _ => layout.justify (layout.cut chars.string.chars)
  | .null layout => nullOutput layout
  | .pointer left address => pointerOutput left address
  | .unknown _ letter => [letter.char]

/-- The directives that are printed as C asks. -/
def Plain : Directive w → Prop
  | .integer conversion => conversion.Plain w
  | .char layout _ => layout.width.Defined
  | .string layout _ _ => layout.width.Defined
  | .null layout => layout.width.Defined
  | .unknown layout _ => layout.width.Defined
  | .literal _ _ _ | .percent | .pointer _ _ => True

end Directive

/-! ## Formats -/

abbrev Format (w : ℕ) := List (Directive w)

namespace Format

def text (format : Format w) : List Byte :=
  format.flatMap Directive.text

def args (format : Format w) : List (Arg w) :=
  format.flatMap Directive.args

def output (format : Format w) : List Byte :=
  format.flatMap Directive.output

def Plain (format : Format w) : Prop :=
  ∀ directive ∈ format, directive.Plain

end Format

/-! ## The format as a string -/

theorem decimal_nonzero (count : ℕ) : 0 ∉ decimal count := by
  intro hzero
  rw [decimal, numeral, List.mem_reverse, List.mem_map] at hzero
  obtain ⟨d, hd, hchar⟩ := hzero
  have hnonzero : ∀ d < 10, decimalDigit d ≠ 0 := by decide
  exact hnonzero d (Nat.digits_lt_base (by decide) hd) hchar

theorem nonzero_append {left right : List Byte} (hleft : 0 ∉ left) (hright : 0 ∉ right) :
    0 ∉ left ++ right := by
  rw [List.mem_append, not_or]
  exact ⟨hleft, hright⟩

theorem nonzero_cons {c : Byte} {rest : List Byte} (hc : c ≠ 0) (hrest : 0 ∉ rest) :
    0 ∉ c :: rest := by
  rw [List.mem_cons, not_or]
  exact ⟨hc.symm, hrest⟩

theorem Layout.text_nonzero (layout : Layout) : 0 ∉ layout.text := by
  obtain ⟨flags, width, precision⟩ := layout
  have hflags : 0 ∉ flags.map FlagChar.char := by
    intro hzero
    obtain ⟨flag, -, hchar⟩ := List.mem_map.mp hzero
    cases flag <;> cases hchar
  have hwidth : 0 ∉ width.text := by
    cases width with
    | absent => exact List.not_mem_nil
    | given count => exact decimal_nonzero count
    | star => change 0 ∉ [ch '*']; decide
  have hprecision : 0 ∉ precision.text := by
    cases precision with
    | absent => exact List.not_mem_nil
    | given zeros count =>
        have hzeros : 0 ∉ List.replicate zeros (decimalDigit 0) := by
          intro hzero
          exact absurd (List.eq_of_mem_replicate hzero) (by decide)
        exact nonzero_cons (by decide) (nonzero_append hzeros (decimal_nonzero count))
    | minus count =>
        exact nonzero_cons (by decide) (nonzero_cons (by decide) (decimal_nonzero count))
    | star => change 0 ∉ [ch '.', ch '*']; decide
  exact nonzero_append hflags (nonzero_append hwidth hprecision)

theorem Directive.text_nonzero (directive : Directive w) : 0 ∉ directive.text := by
  have hpercent : ∀ {layout : Layout} {rest : List Byte}, 0 ∉ rest →
      0 ∉ ch '%' :: (layout.text ++ rest) := fun hrest =>
    nonzero_cons (by decide) (nonzero_append (Layout.text_nonzero _) hrest)
  cases directive with
  | literal c nonzero _ => exact fun hzero => nonzero (List.mem_singleton.mp hzero).symm
  | percent => change 0 ∉ [ch '%', ch '%']; decide
  | integer conversion =>
      refine hpercent ?_
      cases conversion.length <;> cases conversion.letter <;> decide
  | char layout => exact hpercent (by decide)
  | string layout => exact hpercent (by decide)
  | null layout => exact hpercent (by decide)
  | pointer left =>
      cases left with
      | true => change 0 ∉ [ch '%', ch '-', ch 'p']; decide
      | false => change 0 ∉ [ch '%', ch 'p']; decide
  | unknown layout letter =>
      exact hpercent fun hzero => letter.nonzero (List.mem_singleton.mp hzero).symm

namespace Format

def string (format : Format w) : CString where
  chars := format.text
  nonzero := by
    intro hzero
    obtain ⟨directive, -, hdirective⟩ := List.mem_flatMap.mp hzero
    exact directive.text_nonzero hdirective

/-- Every directive has a character. -/
theorem length_le (format : Format w) : format.length ≤ format.string.chars.length := by
  induction format with
  | nil => exact le_refl 0
  | cons directive format ih =>
      have hpos : 0 < directive.text.length := by
        cases directive with
        | literal | percent | integer | char | string | null | pointer | unknown =>
            exact Nat.succ_pos _
      change format.length + 1 ≤ (directive.text ++ Format.text format).length
      rw [List.length_append]
      change format.length ≤ (Format.text format).length at ih
      omega

end Format

end Rvem.Directives
