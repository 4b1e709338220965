import Rvem.Library.Transcript
import Rvem.Model.Arch

/-!
# The output gadget of `printf`

`output_gadget_t` and the functions on it (`printf.c`).  A program that prints is a
program over the gadget.  It is undefined where the C code would write outside a buffer
or through a null pointer, read behind the end of an array, take an argument of another
type, or overflow a signed type; the last happens only where the library negates, the
width of `*` and the operand of `ABS_FOR_PRINTING`.  `pos` wraps at `2 ^ 32`; no other
`printf_size_t` does.
-/

namespace Rvem.Gadget

open Rvem.Arch
open Rvem.Library

def ch (c : Char) : Byte := BitVec.ofNat 8 c.toNat

/-- `INT_MAX` -/
def maxPossibleBufferSize : ℕ := 2 ^ 31 - 1

/-- `function` is whether the function pointer is set, `called` the characters it was
called with; the buffer is the array from its pointer on, or `NULL`. -/
structure OutputGadget where
  function : Bool
  called : List Byte
  buffer : Option (List Byte)
  pos : BitVec 32
  maxChars : ℕ
  deriving DecidableEq

abbrev Print := StateT OutputGadget Option

/-- `buffer[position] = c` -/
def storeChar (buffer : Option (List Byte)) (position : ℕ) (c : Byte) :
    Option (List Byte) := do
  let chars ← buffer
  if position < chars.length then some (chars.set position c) else none

def putcharViaGadget (c : Byte) : Print Unit := fun gadget => do
  let writePos := gadget.pos
  let gadget := { gadget with pos := gadget.pos + 1 }
  if gadget.maxChars ≤ writePos.toNat then
    return ((), gadget)
  if gadget.function then
    return ((), { gadget with called := gadget.called ++ [c] })
  else
    let chars ← storeChar gadget.buffer writePos.toNat c
    return ((), { gadget with buffer := some chars })

def appendTerminationWithGadget : Print Unit := fun gadget => do
  if gadget.function ∨ gadget.maxChars = 0 then
    return ((), gadget)
  if gadget.buffer = none then
    return ((), gadget)
  let nullCharPos :=
    if gadget.pos.toNat < gadget.maxChars then gadget.pos.toNat else gadget.maxChars - 1
  let chars ← storeChar gadget.buffer nullCharPos 0
  return ((), { gadget with buffer := some chars })

def discardingGadget : OutputGadget where
  function := false
  called := []
  buffer := none
  pos := 0
  maxChars := 0

def bufferGadget (buffer : Option (List Byte)) (bufferSize : ℕ) : OutputGadget :=
  let usableBufferSize :=
    if maxPossibleBufferSize < bufferSize then maxPossibleBufferSize else bufferSize
  if buffer ≠ none then
    { discardingGadget with buffer, maxChars := usableBufferSize }
  else discardingGadget

/-- A gadget for a function that is not `NULL`. -/
def functionGadget : OutputGadget :=
  { discardingGadget with function := true, maxChars := maxPossibleBufferSize }

/-- The function is `putchar_wrapper`, which passes its character to `putchar_`. -/
def externPutcharGadget : OutputGadget := functionGadget

end Rvem.Gadget
