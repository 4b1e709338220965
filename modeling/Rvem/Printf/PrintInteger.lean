import Rvem.Printf.Gadget

/-!
# Integers of `printf`

`out_rev_`, `print_integer` and `print_integer_finalization` (`printf.c`).  The buffer of
a conversion is the list of its first `len` characters; it is only written at `len` and
only read below.  The width and the precision are numbers below `2 ^ 32`.
-/

namespace Rvem.PrintInteger

open Rvem.Arch
open Rvem.Gadget

/-- `printf_flags_t`, a bit each; those of the floating-point specifiers are never
tested in this configuration. -/
structure Flags where
  zeropad : Bool := false
  left : Bool := false
  plus : Bool := false
  space : Bool := false
  hash : Bool := false
  uppercase : Bool := false
  char : Bool := false
  short : Bool := false
  int : Bool := false
  long : Bool := false
  longLong : Bool := false
  precision : Bool := false
  pointer : Bool := false
  signed : Bool := false
  longDouble : Bool := false
  deriving DecidableEq

/-- `count` times `putchar_via_gadget(output, ' ')` -/
def putSpaces : ℕ → Print Unit
  | 0 => return
  | count + 1 => do
      putcharViaGadget (ch ' ')
      putSpaces count

/-- `while (len) putchar_via_gadget(output, buf[--len]);` -/
def putReversed (buf : List Byte) : ℕ → Print Unit
  | 0 => return
  | len + 1 => do
      let c ← StateT.lift buf[len]?
      putcharViaGadget c
      putReversed buf len

/-- The last loop prints until `pos - start_pos` is the width; every character raises it
by one. -/
def outRev (buf : List Byte) (len width : ℕ) (flags : Flags) : Print Unit := do
  let startPos := (← get).pos
  -- pad spaces up to given width
  if !flags.left && !flags.zeropad then
    putSpaces (width - len)
  -- reverse string
  putReversed buf len
  -- append pad spaces up to given width
  if flags.left then
    let written := (← get).pos - startPos
    putSpaces (width - written.toNat)

/-! ## The conversion buffer -/

/-- `PRINTF_INTEGER_BUFFER_SIZE` -/
def integerBufferSize : ℕ := 32

/-- `buf[len++] = c` -/
def push (buf : List Byte) (c : Byte) : Option (List Byte) :=
  if buf.length < integerBufferSize then some (buf ++ [c]) else none

/-- `if (len < PRINTF_INTEGER_BUFFER_SIZE) buf[len++] = c;` -/
def pushIfRoom (buf : List Byte) (c : Byte) : Option (List Byte) :=
  if buf.length < integerBufferSize then push buf c else some buf

/-- `while ((len < limit) && (len < PRINTF_INTEGER_BUFFER_SIZE)) buf[len++] = '0';` by
the number of passes left. -/
def pushZeros (buf : List Byte) : ℕ → Option (List Byte)
  | 0 => some buf
  | passes + 1 => do
      if buf.length < integerBufferSize then
        pushZeros (← push buf (ch '0')) passes
      else return buf

/-- `digit < 10 ? '0' + digit : (flags & FLAGS_UPPERCASE ? 'A' : 'a') + digit - 10` -/
def digitChar (flags : Flags) (digit : ℕ) : Byte :=
  if digit < 10 then ch '0' + BitVec.ofNat 8 digit
  else (if flags.uppercase then ch 'A' else ch 'a') + BitVec.ofNat 8 digit - 10

/-- The `do` loop over the digits, by the room left in the buffer. -/
def pushDigits (base : ℕ) (flags : Flags) : ℕ → ℕ → List Byte → Option (List Byte)
  | 0, _, buf => some buf
  | room + 1, value, buf => do
      let buf ← push buf (digitChar flags (value % base))
      let value := value / base
      if value ≠ 0 ∧ buf.length < integerBufferSize then
        pushDigits base flags room value buf
      else return buf

def baseBinary : ℕ := 2
def baseOctal : ℕ := 8
def baseDecimal : ℕ := 10
def baseHex : ℕ := 16

/-- pad with leading zeros; also the width and the flags after it -/
def padZeros (buf : List Byte) (negative : Bool) (base precision width : ℕ)
    (flags : Flags) :
    Option (List Byte × ℕ × Flags) := do
  let unpaddedLen := buf.length
  let (buf, width) ←
    if !flags.left then do
      let width :=
        if width ≠ 0 ∧ flags.zeropad ∧ (negative ∨ flags.plus ∨ flags.space) then
          width - 1
        else width
      let buf ← if flags.zeropad then pushZeros buf (width - buf.length) else some buf
      pure (buf, width)
    else some (buf, width)
  let buf ← pushZeros buf (precision - buf.length)
  let flags :=
    if base = baseOctal ∧ unpaddedLen < buf.length then { flags with hash := false }
    else flags
  return (buf, width, flags)

/-- Let's take back some padding digits to fit in what will eventually be the
format-specific prefix -/
def takeBack (buf : List Byte) (unpaddedLen base precision width : ℕ) (flags : Flags) :
    List Byte :=
  if ¬flags.precision ∧ buf.length ≠ 0 ∧
    (buf.length = precision ∨ buf.length = width) then
    -- This should suffice for BASE_OCTAL
    let buf := if unpaddedLen < buf.length then buf.dropLast else buf
    -- ... and an extra one for 0x or 0b
    if buf.length ≠ 0 ∧ (base = baseHex ∨ base = baseBinary) ∧
      unpaddedLen < buf.length then
      buf.dropLast
    else buf
  else buf

def pushRadix (buf : List Byte) (base : ℕ) (flags : Flags) : Option (List Byte) :=
  if base = baseHex ∧ ¬flags.uppercase ∧ buf.length < integerBufferSize then
    push buf (ch 'x')
  else if base = baseHex ∧ flags.uppercase ∧ buf.length < integerBufferSize then
    push buf (ch 'X')
  else if base = baseBinary ∧ buf.length < integerBufferSize then
    push buf (ch 'b')
  else some buf

/-- handle hash -/
def pushPrefix (buf : List Byte) (unpaddedLen base precision width : ℕ) (flags : Flags) :
    Option (List Byte) := do
  if flags.hash ∨ flags.pointer then
    let buf ← pushRadix (takeBack buf unpaddedLen base precision width flags) base flags
    pushIfRoom buf (ch '0')
  else return buf

def pushSign (buf : List Byte) (negative : Bool) (flags : Flags) : Option (List Byte) :=
  if negative then pushIfRoom buf (ch '-')
  else if flags.plus then pushIfRoom buf (ch '+')
  else if flags.space then pushIfRoom buf (ch ' ')
  else some buf

def printIntegerFinalization (buf : List Byte) (negative : Bool)
    (base precision width : ℕ) (flags : Flags) : Print Unit := do
  let unpaddedLen := buf.length
  let (buf, width, flags) ←
    StateT.lift (padZeros buf negative base precision width flags)
  let buf ← StateT.lift (pushPrefix buf unpaddedLen base precision width flags)
  let buf ← StateT.lift (pushSign buf negative flags)
  outRev buf buf.length width flags

/-- An internal itoa-like function -/
def printInteger (value : ℕ) (negative : Bool) (base precision width : ℕ)
    (flags : Flags) :
    Print Unit := do
  if value = 0 then
    if ¬flags.precision then
      let buf ← StateT.lift (push [] (ch '0'))
      printIntegerFinalization buf negative base precision width
        { flags with hash := false }
    else if base = baseHex then
      printIntegerFinalization [] negative base precision width
        { flags with hash := false }
    else printIntegerFinalization [] negative base precision width flags
  else
    let buf ← StateT.lift (pushDigits base flags integerBufferSize value [])
    printIntegerFinalization buf negative base precision width flags

end Rvem.PrintInteger
