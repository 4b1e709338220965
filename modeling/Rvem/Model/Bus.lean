import Rvem.Model.State

/-!
# ROM, RAM and the bus

`rom_read`, `ram_read`, `ram_write` (`cpu.h`) and `bus_read`, `bus_write`
(`bus.h`).  A read takes the old contents of `*val` and returns the new ones,
since a case that is not compiled in, or no case at all, leaves `*val` alone.
-/

namespace Rvem.Bus

open Rvem.Arch
open Rvem.State
open Rvem.Library

variable {w : ℕ}

/-- The `switch` shared by `rom_read` and `ram_read`, which differ only in the
array indexed: `byte offset` is `cpu.rom[paddr + offset]` or
`cpu.ram[paddr + offset]`. -/
def memRead (byte : ℕ → Option Byte) (s : Machine w) (addr : BitVec w)
    (op : Byte) (val : BitVec w) : Option (Machine w × BitVec w) :=
  if op = memB then do
    return (s, (← byte 0).signExtend w)
  else if op = memBU then do
    return (s, (← byte 0).setWidth w)
  else if op = memH then do
    let s := perfModelMemory s 2 addr
    let b1 ← byte 1
    let b0 ← byte 0
    let int := b1.setWidth 32 <<< 8 ||| b0.setWidth 32
    return (s, (int.setWidth 16).signExtend w)
  else if op = memHU then do
    let s := perfModelMemory s 2 addr
    let b1 ← byte 1
    let b0 ← byte 0
    let int := b1.setWidth 32 <<< 8 ||| b0.setWidth 32
    return (s, int.signExtend w)
  else if op = memW then do
    let s := perfModelMemory s 4 addr
    let word ← readWord byte
    return (s, word.signExtend w)
  else if w = 64 ∧ op = memWU then do
    let s := perfModelMemory s 4 addr
    let word ← readWord byte
    return (s, word.setWidth w)
  else if w = 64 ∧ op = memD then do
    let s := perfModelMemory s 8 addr
    let b7 ← byte 7
    let b6 ← byte 6
    let b5 ← byte 5
    let b4 ← byte 4
    let b3 ← byte 3
    let b2 ← byte 2
    let b1 ← byte 1
    let b0 ← byte 0
    let dword := b7.setWidth 64 <<< 56 ||| b6.setWidth 64 <<< 48
      ||| b5.setWidth 64 <<< 40 ||| b4.setWidth 64 <<< 32
      ||| b3.setWidth 64 <<< 24 ||| b2.setWidth 64 <<< 16
      ||| b1.setWidth 64 <<< 8 ||| b0.setWidth 64
    return (s, dword.signExtend w)
  else some (s, val)
where
  /-- The `uint32_t` that `MEM_W` and `MEM_WU` assemble. -/
  readWord (byte : ℕ → Option Byte) : Option Word := do
    let b3 ← byte 3
    let b2 ← byte 2
    let b1 ← byte 1
    let b0 ← byte 0
    return b3.setWidth 32 <<< 24 ||| b2.setWidth 32 <<< 16
      ||| b1.setWidth 32 <<< 8 ||| b0.setWidth 32

def romRead (s : Machine w) (addr : BitVec w) (op : Byte) (val : BitVec w) :
    Option (Machine w × BitVec w) :=
  let paddr := addr - BitVec.ofNat w romStart
  memRead (fun offset => CArray.index s.cpu.rom (paddr + BitVec.ofNat w offset).toNat)
    s addr op val

def ramRead (s : Machine w) (addr : BitVec w) (op : Byte) (val : BitVec w) :
    Option (Machine w × BitVec w) :=
  let paddr := addr - BitVec.ofNat w ramStart
  memRead (fun offset => CArray.index s.cpu.ram (paddr + BitVec.ofNat w offset).toNat)
    s addr op val

/-- The assignments `cpu.ram[paddr + i] = (uint8_t) (val >> 8 * i)` for
`i = 0, ..., count - 1`, in this order. -/
def storeBytes (ram : Fin ramSize → Byte) (paddr val : BitVec w) :
    ℕ → Option (Fin ramSize → Byte)
  | 0 => some ram
  | count + 1 => do
      let ram ← storeBytes ram paddr val count
      CArray.store ram (paddr + BitVec.ofNat w count).toNat
        ((val >>> (8 * count)).setWidth 8)

def ramWrite (s : Machine w) (addr : BitVec w) (op : Byte) (val : BitVec w) :
    Option (Machine w) :=
  let paddr := addr - BitVec.ofNat w ramStart
  let assign (s : Machine w) (count : ℕ) : Option (Machine w) := do
    let ram ← storeBytes s.cpu.ram paddr val count
    return { s with cpu := { s.cpu with ram } }
  if op = memB then assign s 1
  else if op = memH then assign (perfModelMemory s 2 addr) 2
  else if op = memW then assign (perfModelMemory s 4 addr) 4
  else if w = 64 ∧ op = memD then assign (perfModelMemory s 8 addr) 8
  else some s

/-- The local `range` of both bus functions: the access width in bytes minus one. -/
def busRange (w : ℕ) (op : Byte) : ℕ :=
  if op = memH ∨ op = memHU then 1
  else if op = memW then 3
  else if w = 64 ∧ op = memWU then 3
  else if w = 64 ∧ op = memD then 7
  else 0

/-- `bus_read`: RAM first, then ROM; anything else is reported and keeps `val`. -/
def busRead (s : Machine w) (addr : BitVec w) (op : Byte) (val : BitVec w) :
    Option (Machine w × BitVec w) :=
  let range := busRange w op
  if BitVec.ofNat w ramStart ≤ addr
      ∧ addr < BitVec.ofNat w (ramStart + ramSize - range) then
    ramRead s addr op val
  else if addr < BitVec.ofNat w (romSize - range) then
    romRead s addr op val
  else
    some (print s (.unmappedRead addr.toNat), val)

/-- `bus_write`: RAM first; ROM and anything else is reported and ignored. -/
def busWrite (s : Machine w) (addr : BitVec w) (op : Byte) (val : BitVec w) :
    Option (Machine w) :=
  let range := busRange w op
  if BitVec.ofNat w ramStart ≤ addr
      ∧ addr < BitVec.ofNat w (ramStart + ramSize - range) then
    ramWrite s addr op val
  else if addr < BitVec.ofNat w (romSize - range) then
    some (print s (.romWrite addr.toNat))
  else
    some (print s (.unmappedWrite addr.toNat))

end Rvem.Bus
