import Rvem.Timing.Transparent
import Rvem.Timing.Counters
import Rvem.Isa.Refinement
import Rvem.Isa.ManualExtension
import Rvem.Isa.WordForms
import Rvem.Isa.Reserved
import Rvem.Host.Report
import Rvem.Sdk.CounterRead
import Rvem.Sdk.Startup
import Rvem.Semantics.Frame
import Rvem.Arith.Division
import Rvem.Arith.Definedness
import Rvem.Arith.Shift
import Rvem.Timing.BranchHazard
import Rvem.Timing.Pipeline
import Rvem.Semantics.RunInvariant
import Rvem.Memory.Bounds
import Rvem.Semantics.Run
import Rvem.Model.Main
import Rvem.Printf.RoundTrip
import Rvem.Host.Execution
