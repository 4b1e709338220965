import Rvem.Library.Numeral
import Rvem.Printf.Gadget

/-!
# What C asks of an integer conversion

The text of a conversion by the rules of the language: a sign, a prefix, zeros, digits,
and spaces up to the width.  The radix and the flags decide the prefix, and the
precision the least number of digits.  Nothing here refers to the library: it is the
text that `print_integer` is compared with.
-/

namespace Rvem.Text

open Rvem.Arch
open Rvem.Gadget (ch)
open Rvem.Library.Numeral

/-- `body` in a field of `width` characters. -/
def justify (left : Bool) (width : ℕ) (body : List Byte) : List Byte :=
  let spaces := List.replicate (width - body.length) (ch ' ')
  if left then body ++ spaces else spaces ++ body

/-- A field is at least as wide as asked. -/
theorem le_length_justify (left : Bool) (width : ℕ) (body : List Byte) :
    width ≤ (justify left width body).length := by
  cases left with
  | true =>
      change _ ≤ (body ++ List.replicate (width - body.length) (ch ' ')).length
      rw [List.length_append, List.length_replicate]
      omega
  | false =>
      change _ ≤ (List.replicate (width - body.length) (ch ' ') ++ body).length
      rw [List.length_append, List.length_replicate]
      omega

inductive Radix
  | decimal
  | octal
  | hex
  | binary
  deriving DecidableEq

def Radix.base : Radix → ℕ
  | .decimal => 10
  | .octal => 8
  | .hex => 16
  | .binary => 2

/-- `0` to `9`, then letters. -/
def digitChar (upper : Bool) (digit : ℕ) : Byte :=
  if digit < 10 then ch '0' + BitVec.ofNat 8 digit
  else (if upper then ch 'A' else ch 'a') + BitVec.ofNat 8 (digit - 10)

/-- An integer conversion; only signed ones have a sign. -/
structure IntegerForm where
  radix : Radix
  upper : Bool
  signed : Bool
  left : Bool
  zero : Bool
  plus : Bool
  space : Bool
  alternative : Bool
  precision : Option ℕ
  width : ℕ
  decimal_of_signed : signed = true → radix = .decimal
  deriving DecidableEq

namespace IntegerForm

variable (form : IntegerForm) (negative : Bool) (value : ℕ)

def numeral (form : IntegerForm) (value : ℕ) : List Byte :=
  Library.Numeral.numeral form.radix.base (digitChar form.upper) value

/-- The least number of digits: the precision, and for the alternative octal form one
more than there are. -/
def leastDigits (form : IntegerForm) (value : ℕ) : ℕ :=
  let least := form.precision.getD 1
  if form.alternative ∧ form.radix = .octal then
    max least ((form.numeral value).length + 1)
  else least

def digits (form : IntegerForm) (value : ℕ) : List Byte :=
  List.replicate (form.leastDigits value - (form.numeral value).length) (ch '0')
    ++ form.numeral value

def sign (form : IntegerForm) (negative : Bool) : List Byte :=
  if ¬form.signed then []
  else if negative then [ch '-']
  else if form.plus then [ch '+']
  else if form.space then [ch ' ']
  else []

/-- The prefix of the alternative form, which zero does not have. -/
def radixPrefix (form : IntegerForm) (value : ℕ) : List Byte :=
  if form.alternative ∧ value ≠ 0 then
    match form.radix with
    | .hex => [ch '0', if form.upper then ch 'X' else ch 'x']
    | .binary => [ch '0', ch 'b']
    | .decimal | .octal => []
  else []

/-- A precision turns the flag off, and so does justification to the left. -/
def zeroPadded (form : IntegerForm) : Bool :=
  form.zero && !form.left && form.precision.isNone

/-- The text without the spaces around it. -/
def body (form : IntegerForm) (negative : Bool) (value : ℕ) : List Byte :=
  let head := form.sign negative ++ form.radixPrefix value
  let digits := form.digits value
  let zeros := if form.zeroPadded then form.width - (head.length + digits.length) else 0
  head ++ (List.replicate zeros (ch '0') ++ digits)

def text (form : IntegerForm) (negative : Bool) (value : ℕ) : List Byte :=
  justify form.left form.width (form.body negative value)

end IntegerForm

end Rvem.Text
