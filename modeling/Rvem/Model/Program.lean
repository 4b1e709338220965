import Rvem.Model.Main

/-!
# The program

`load_rom_binary` and the whole of `main` (`main.c`).  The host's files are a function
from names to contents; the loop is bounded by `fuel`.  Only the host time in the report
is left out.  A file that cannot be opened and a command line that names none end the
program before the loop; what follows the loop is its report and its status.
-/

namespace Rvem.Program

open Rvem.Arch
open Rvem.State
open Rvem.Main

/-- Everything the program prints, those of `main` and `load_rom_binary` first. -/
inductive Line
  | usage (path : String)
  | openFailed (filename : String)
  | loaded (bytesRead : ℕ)
  | output (line : Output)
  deriving DecidableEq, Repr

/-- The characters each call site produces. -/
def Line.text : Line → String
  | .usage path => "usage: " ++ path ++ " <binary rom>\n"
  | .openFailed filename => "[err] failed to open " ++ filename ++ ".\n"
  | .loaded bytesRead => "[info] loaded " ++ toString bytesRead ++ " bytes into ROM.\n"
  | .output line => line.text

/-- `cpu.rom` after `fread(cpu.rom, 1, ROM_SIZE, f)`: the bytes behind the end of the file
are zero, as `cpu` is static. -/
def loadedRom (bytes : List Byte) : Fin romSize → Byte :=
  fun i => bytes.getD i 0

/-- The ROM, if the file can be opened, and what is printed. -/
def loadRomBinary (fopen : String → Option (List Byte)) (filename : String) :
    Option (Fin romSize → Byte) × List Line :=
  match fopen filename with
  | none => (none, [.openFailed filename])
  | some bytes => (some (loadedRom bytes), [.loaded (min bytes.length romSize)])

/-- The value `main` returns and everything printed. -/
structure Returned where
  status : ℕ
  lines : List Line
  deriving DecidableEq, Repr

/-- `return 1` from inside the loop, `return 0` behind it. -/
def status {w : ℕ} : MainState w → ℕ
  | .loop _ _ => 0
  | .failed _ => 1

/-- `main` with `argv[0]` and the other arguments.  The inner `none` says that the loop
needs more iterations. -/
def main (b : Build) (fopen : String → Option (List Byte)) (path : String)
    (args : List String) (fuel : ℕ) : Option (Option Returned) :=
  match args with
  | [filename] =>
      match loadRomBinary fopen filename with
      | (none, lines) => some (some ⟨1, lines⟩)
      | (some rom, lines) => do
          let c ← runLoop b.mExt fuel (initMain b.xlen rom)
          if c.looping then
            return none
          else
            return some ⟨status c, lines ++ (c.machine.stdout ++ report c).map .output⟩
  | _ => some (some ⟨1, [.usage path]⟩)

end Rvem.Program
