import Rvem.Printf.PrintInteger

/-!
# The format string of `printf`

`format_string_loop` (`printf.c`) as `printf_config.h` builds it: no floating-point
specifiers, no `%n`.  The format pointer is the list of the characters up to the
terminator, so `*format` is the first of them or `'\0'`.  `w` is the width of `long` and
of a pointer: 32 under `ilp32`, 64 under `lp64`.
-/

namespace Rvem.FormatLoop

open Rvem.Arch
open Rvem.Gadget
open Rvem.PrintInteger
open Rvem.Library.Transcript

/-- A string: its characters up to the terminator. -/
structure CString where
  chars : List Byte
  nonzero : 0 ∉ chars

/-- An argument with the type it was passed as.  A string is the array from its pointer to
the end of the object, or `NULL`. -/
inductive Arg (w : ℕ)
  | int (value : BitVec 32)
  | long (value : BitVec w)
  | longLong (value : BitVec 64)
  | string (chars : Option (List Byte))
  | pointer (value : BitVec w)
  deriving DecidableEq

variable {w : ℕ}

/-! ## `va_arg`

Undefined if the next argument has another type. -/

def vaInt : List (Arg w) → Option (BitVec 32 × List (Arg w))
  | .int value :: args => some (value, args)
  | _ => none

def vaLong : List (Arg w) → Option (BitVec w × List (Arg w))
  | .long value :: args => some (value, args)
  | _ => none

def vaLongLong : List (Arg w) → Option (BitVec 64 × List (Arg w))
  | .longLong value :: args => some (value, args)
  | _ => none

def vaString : List (Arg w) → Option (Option (List Byte) × List (Arg w))
  | .string chars :: args => some (chars, args)
  | _ => none

def vaPointer : List (Arg w) → Option (BitVec w × List (Arg w))
  | .pointer value :: args => some (value, args)
  | _ => none

/-! ## Scanning -/

/-- `*format` -/
def peek : List Byte → Byte
  | [] => 0
  | c :: _ => c

/-- Why scanning a specifier ends early: the pointer has left the string, an argument is
missing or cannot be negated, or `ADVANCE_IN_FORMAT_STRING` has met the terminator and
returned. -/
inductive Stop
  | undefined
  | returned
  deriving DecidableEq

/-- `ADVANCE_IN_FORMAT_STRING(format)` -/
def advance : List Byte → Except Stop (List Byte)
  | [] => .error .undefined
  | [_] => .error .returned
  | _ :: c :: format => .ok (c :: format)

def isDigit (c : Byte) : Bool :=
  ch '0' ≤ c && c ≤ ch '9'

/-- The number and the rest of the string. -/
def atou (i : ℕ) : List Byte → ℕ × List Byte
  | [] => (i, [])
  | c :: format =>
      if isDigit c then atou ((i * 10 + (c - ch '0').toNat) % 2 ^ 32) format
      else (i, c :: format)

def parseFlags (flags : Flags) : List Byte → Flags × List Byte
  | [] => (flags, [])
  | c :: format =>
      if c = ch '0' then parseFlags { flags with zeropad := true } format
      else if c = ch '-' then parseFlags { flags with left := true } format
      else if c = ch '+' then parseFlags { flags with plus := true } format
      else if c = ch ' ' then parseFlags { flags with space := true } format
      else if c = ch '#' then parseFlags { flags with hash := true } format
      else (flags, c :: format)

/-- The locals of the loop body, with the pointers `format` and `args`. -/
structure Specifier (w : ℕ) where
  flags : Flags
  width : ℕ
  precision : ℕ
  format : List Byte
  args : List (Arg w)

def orUndefined {A : Type} : Option A → Except Stop A
  | some value => .ok value
  | none => .error .undefined

/-- The negation of a signed integer; it overflows for the smallest one, which has no
counterpart, and is undefined there. -/
def negated {n : ℕ} (value : BitVec n) : Option (BitVec n) :=
  if value = BitVec.intMin n then none else some (-value)

/-- evaluate width field -/
def parseWidth (s : Specifier w) : Except Stop (Specifier w) := do
  if isDigit (peek s.format) then
    let (width, format) := atou 0 s.format
    return { s with width, format }
  else if peek s.format = ch '*' then
    let (value, args) ← orUndefined (vaInt s.args)
    let flags := if value.toInt < 0 then { s.flags with left := true } else s.flags
    let width ← orUndefined (if value.toInt < 0 then negated value else some value)
    let format ← advance s.format
    return { s with flags, width := width.toNat, format, args }
  else return s

/-- `do { ADVANCE_IN_FORMAT_STRING(format); } while (is_digit_(*format));` -/
def advanceDigits : List Byte → Except Stop (List Byte)
  | [] => .error .undefined
  | [_] => .error .returned
  | _ :: c :: format =>
      if isDigit c then advanceDigits (c :: format) else .ok (c :: format)

/-- evaluate precision field -/
def parsePrecision (s : Specifier w) : Except Stop (Specifier w) := do
  if peek s.format = ch '.' then
    let flags := { s.flags with precision := true }
    let format ← advance s.format
    if peek format = ch '-' then
      let format ← advanceDigits format
      return { s with format, flags := { flags with precision := false } }
    else if isDigit (peek format) then
      let (precision, format) := atou 0 format
      return { s with flags, precision, format }
    else if peek format = ch '*' then
      let (value, args) ← orUndefined (vaInt s.args)
      let flags := if value.toInt < 0 then { flags with precision := false } else flags
      let precision := if value.toInt < 0 then s.precision else value.toNat
      let format ← advance format
      return { flags, width := s.width, precision, format, args }
    else return { s with flags, format }
  else return s

/-- `ptrdiff_t` and `size_t` are no wider than `int`, or as wide as `long`. -/
def pointerSized (w : ℕ) (flags : Flags) : Flags :=
  if w ≤ 32 then { flags with int := true } else { flags with long := true }

/-- `intmax_t` has 64 bits. -/
def maximumSized (w : ℕ) (flags : Flags) : Flags :=
  if w = 64 then { flags with long := true } else { flags with longLong := true }

/-- evaluate length field -/
def parseLength (s : Specifier w) : Except Stop (Specifier w) := do
  if peek s.format = ch 'l' then
    let flags := { s.flags with long := true }
    let format ← advance s.format
    if peek format = ch 'l' then
      let format ← advance format
      return { s with format, flags := { flags with longLong := true } }
    else return { s with flags, format }
  else if peek s.format = ch 'L' then
    let format ← advance s.format
    return { s with format, flags := { s.flags with longDouble := true } }
  else if peek s.format = ch 'h' then
    let flags := { s.flags with short := true }
    let format ← advance s.format
    if peek format = ch 'h' then
      let format ← advance format
      return { s with format, flags := { flags with char := true } }
    else return { s with flags, format }
  else if peek s.format = ch 't' ∨ peek s.format = ch 'z' then
    let format ← advance s.format
    return { s with format, flags := pointerSized w s.flags }
  else if peek s.format = ch 'j' then
    let format ← advance s.format
    return { s with format, flags := maximumSized w s.flags }
  else return s

/-- `%[flags][width][.precision][length]`, from the `%` up to the specifier -/
def parseSpecifier (format : List Byte) (args : List (Arg w)) :
    Except Stop (Specifier w) := do
  let format ← advance format
  let (flags, format) := parseFlags {} format
  let s ← parseWidth { flags, width := 0, precision := 0, format, args }
  let s ← parsePrecision s
  parseLength s

/-! ## Conversions -/

/-- `ABS_FOR_PRINTING` after the promotion to `long long`; the macro negates before it
converts to the unsigned type. -/
def absForPrinting (value : BitVec 64) : Option ℕ :=
  (if 0 < value.toInt then some value else negated value).map BitVec.toNat

def isIntegerSpecifier (specifier : Byte) : Bool :=
  [ch 'd', ch 'i', ch 'u', ch 'x', ch 'X', ch 'o', ch 'b'].contains specifier

def specifierBase (specifier : Byte) : ℕ :=
  if specifier = ch 'x' ∨ specifier = ch 'X' then baseHex
  else if specifier = ch 'o' then baseOctal
  else if specifier = ch 'b' then baseBinary
  else baseDecimal

/-- The flags as the integer specifiers leave them. -/
def integerFlags (specifier : Byte) (flags : Flags) : Flags :=
  let flags :=
    if specifier = ch 'd' ∨ specifier = ch 'i' then { flags with signed := true }
    else flags
  -- decimal integers have no alternative presentation
  let flags :=
    if specifierBase specifier = baseDecimal then { flags with hash := false } else flags
  let flags := if specifier = ch 'X' then { flags with uppercase := true } else flags
  -- ignore '0' flag when precision is given
  if flags.precision then { flags with zeropad := false } else flags

/-- A signed specifier -/
def convertSigned (s : Specifier w) (base : ℕ) (flags : Flags) :
    Print (List (Arg w)) := do
  if flags.longLong then
    let (value, args) ← StateT.lift (vaLongLong s.args)
    let magnitude ← StateT.lift (absForPrinting value)
    printInteger magnitude (value.slt 0) base s.precision s.width flags
    return args
  else if flags.long then
    let (value, args) ← StateT.lift (vaLong s.args)
    let magnitude ← StateT.lift (absForPrinting (value.signExtend 64))
    printInteger magnitude (value.slt 0) base s.precision s.width flags
    return args
  else
    let (value, args) ← StateT.lift (vaInt s.args)
    let value :=
      if flags.char then (value.setWidth 8).signExtend 32
      else if flags.short then (value.setWidth 16).signExtend 32
      else value
    let magnitude ← StateT.lift (absForPrinting (value.signExtend 64))
    printInteger magnitude (value.slt 0) base s.precision s.width flags
    return args

/-- An unsigned specifier -/
def convertUnsigned (s : Specifier w) (base : ℕ) (flags : Flags) :
    Print (List (Arg w)) := do
  let flags := { flags with plus := false, space := false }
  if flags.longLong then
    let (value, args) ← StateT.lift (vaLongLong s.args)
    printInteger value.toNat false base s.precision s.width flags
    return args
  else if flags.long then
    let (value, args) ← StateT.lift (vaLong s.args)
    printInteger value.toNat false base s.precision s.width flags
    return args
  else
    let (value, args) ← StateT.lift (vaInt s.args)
    let value :=
      if flags.char then (value.setWidth 8).setWidth 32
      else if flags.short then (value.setWidth 16).setWidth 32
      else value
    printInteger value.toNat false base s.precision s.width flags
    return args

def convertChar (s : Specifier w) : Print (List (Arg w)) := do
  -- pre padding
  if !s.flags.left then
    putSpaces (s.width - 1)
  -- char output
  let (value, args) ← StateT.lift (vaInt s.args)
  putcharViaGadget (value.setWidth 8)
  -- post padding
  if s.flags.left then
    putSpaces (s.width - 1)
  return args

/-- The length of the string, limited by `maxsize`; undefined where it reads past the end
of the object. -/
def strnlenS : List Byte → ℕ → Option ℕ
  | [], _ => none
  | c :: chars, maxsize =>
      if c ≠ 0 ∧ maxsize ≠ 0 then (strnlenS chars (maxsize - 1)).map (· + 1) else some 0

/-- `while ((*p != 0) && (!(flags & FLAGS_PRECISION) || precision))` -/
def putString (flags : Flags) : List Byte → ℕ → Print Unit
  | [], _ => undefined
  | c :: chars, precision => do
      if c ≠ 0 ∧ (¬flags.precision ∨ precision ≠ 0) then
        putcharViaGadget c
        putString flags chars (precision - 1)

/-- `")llun("` -/
def nullText : List Byte := [ch ')', ch 'l', ch 'l', ch 'u', ch 'n', ch '(']

/-- `")lin("` -/
def nilText : List Byte := [ch ')', ch 'l', ch 'i', ch 'n', ch '(']

def convertString (s : Specifier w) : Print (List (Arg w)) := do
  let (p, args) ← StateT.lift (vaString s.args)
  match p with
  | none => outRev nullText 6 s.width s.flags
  | some chars =>
      let l ← StateT.lift
        (strnlenS chars (if s.precision ≠ 0 then s.precision else maxPossibleBufferSize))
      -- pre padding
      let l :=
        if s.flags.precision then (if l < s.precision then l else s.precision) else l
      if !s.flags.left then
        putSpaces (s.width - l)
      -- string output
      putString s.flags chars s.precision
      -- post padding
      if s.flags.left then
        putSpaces (s.width - l)
  return args

def convertPointer (s : Specifier w) : Print (List (Arg w)) := do
  let width := w / 8 * 2 + 2
  let flags := { s.flags with zeropad := true, pointer := true }
  let (value, args) ← StateT.lift (vaPointer s.args)
  if value = 0 then
    outRev nilText 5 width flags
  else
    printInteger value.toNat false baseHex s.precision width flags
  return args

/-- evaluate specifier; the step of the format pointer that ends every case is taken by
the loop. -/
def convert (s : Specifier w) : Print (List (Arg w)) := do
  let specifier := peek s.format
  if isIntegerSpecifier specifier then
    let flags := integerFlags specifier s.flags
    if flags.signed then
      convertSigned s (specifierBase specifier) flags
    else
      convertUnsigned s (specifierBase specifier) flags
  else if specifier = ch 'c' then convertChar s
  else if specifier = ch 's' then convertString s
  else if specifier = ch 'p' then convertPointer s
  else if specifier = ch '%' then
    putcharViaGadget (ch '%')
    return s.args
  else
    putcharViaGadget specifier
    return s.args

/-! ## The loop -/

/-- `format++`, undefined at the terminator -/
def next : List Byte → Option (List Byte)
  | [] => none
  | _ :: format => some format

/-- Every pass consumes a character, so `fuel` need not exceed the length of
the format. -/
def formatStringLoop : ℕ → List Byte → List (Arg w) → Print Unit
  | _, [], _ => return
  | 0, _ :: _, _ => undefined
  | fuel + 1, c :: format, args => do
      if c ≠ ch '%' then
        -- A regular content character
        putcharViaGadget c
        formatStringLoop fuel format args
      else
        match parseSpecifier (c :: format) args with
        | .error .undefined => undefined
        | .error .returned => return
        | .ok s =>
            let args ← convert s
            let format ← StateT.lift (next s.format)
            formatStringLoop fuel format args

def vsnprintfImpl (format : CString) (args : List (Arg w)) : Print ℤ := do
  formatStringLoop format.chars.length format.chars args
  -- termination
  appendTerminationWithGadget
  -- return written chars without terminating \0
  return (← get).pos.toInt

/-! ## The functions of the library -/

/-- What was printed with `putchar_`, and the result. -/
def vprintf (format : CString) (args : List (Arg w)) : Option (List Byte × ℤ) := do
  let (result, gadget) ← vsnprintfImpl format args externPutcharGadget
  return (gadget.called, result)

/-- The buffer after the call, and the result. -/
def vsnprintf (s : Option (List Byte)) (n : ℕ) (format : CString) (args : List (Arg w)) :
    Option (Option (List Byte) × ℤ) := do
  let (result, gadget) ← vsnprintfImpl format args (bufferGadget s n)
  return (gadget.buffer, result)

def vsprintf (s : Option (List Byte)) (format : CString) (args : List (Arg w)) :
    Option (Option (List Byte) × ℤ) :=
  vsnprintf s maxPossibleBufferSize format args

/-- The characters `out` was called with, and the result; `out` is whether it is set. -/
def vfctprintf (out : Bool) (format : CString) (args : List (Arg w)) :
    Option (List Byte × ℤ) :=
  if out then do
    let (result, gadget) ← vsnprintfImpl format args functionGadget
    return (gadget.called, result)
  else some ([], 0)

end Rvem.FormatLoop
