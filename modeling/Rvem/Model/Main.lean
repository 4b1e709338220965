import Rvem.Model.Core

/-!
# The main loop

`main` (`main.c`) from the point where the ROM is loaded.  The loop is a step
function on `MainState`; the report printed after the loop is read off the state
the loop is left in.  Only the host time in the report is left out.
-/

namespace Rvem.Main

open Rvem.Arch
open Rvem.State
open Rvem.Bus
open Rvem.Core

variable {w : ℕ}

/-- Where `main` is: at the head of its loop with the local `instr_loop`, or
returned from inside the loop by the `return 1` for a zero word. -/
inductive MainState (w : ℕ)
  | loop (instrLoop : Bool) (s : Machine w)
  | failed (s : Machine w)

def MainState.machine : MainState w → Machine w
  | .loop _ s => s
  | .failed s => s

/-- The globals as C initialises them, with `rom` loaded. -/
def initMachine (w : ℕ) (rom : Fin romSize → Byte) : Machine w where
  cpu :=
    { rom
      ram := fun _ => 0
      regfile := fun _ => 0
      pc := 0 }
  perfModel := PerfModel.init
  mcycle := 4
  minstret := 0
  stdout := []

def initMain (w : ℕ) (rom : Fin romSize → Byte) : MainState w :=
  .loop true (initMachine w rom)

/-- `reg_t bus_val = 0; bus_read(cpu.pc, MEM_W, &bus_val);` and the conversion of
`bus_val` to `instr`. -/
def fetch (s : Machine w) : Option (Machine w × Word) := do
  let (s, busVal) ← busRead s s.cpu.pc memW 0
  return (s, busVal.setWidth 32)

/-- The fetch and the call of `process_instr` in the loop body. -/
def fetchExecute (m : Bool) (s : Machine w) : Option (Machine w × Bool) := do
  let (s, instr) ← fetch s
  processInstr m s instr

/-- `n` times `fetchExecute`, whatever the loop condition says. -/
def runSteps (m : Bool) : ℕ → Machine w → Option (Machine w)
  | 0, s => some s
  | n + 1, s => do
      let (s, _) ← fetchExecute m s
      runSteps m n s

/-- The loop condition. -/
def loopGuard (instrLoop : Bool) (s : Machine w) : Bool :=
  instrLoop && s.mcycle.toNat < maxCycles

/-- One evaluation of the loop body; a state that has left the loop stays. -/
def loopStep (m : Bool) : MainState w → Option (MainState w)
  | .loop instrLoop s =>
      if loopGuard instrLoop s then do
        let (s, instr) ← fetch s
        if instr = 0 then
          return .failed s
        let (s, instrLoop) ← processInstr m s instr
        return .loop instrLoop s
      else some (.loop instrLoop s)
  | .failed s => some (.failed s)

/-- The state of `main` after `n` evaluations of its loop body. -/
def runLoop (m : Bool) : ℕ → MainState w → Option (MainState w)
  | 0, c => some c
  | n + 1, c => do runLoop m n (← loopStep m c)

/-- Whether `main` is still in its loop. -/
def MainState.looping : MainState w → Bool
  | .loop instrLoop s => loopGuard instrLoop s
  | .failed _ => false

/-- What `main` prints after the loop. -/
def report : MainState w → List Output
  | .loop _ s =>
      if s.mcycle.toNat < maxCycles then [.totalCycles s.mcycle.toNat]
      else [.hitCycleLimit]
  | .failed _ => []

end Rvem.Main
