import Rvem.Isa.Encodings
import Rvem.Model.State

/-!
# The machine of the four builds

The instruction set as the manual states it for RV32 and RV64, with and without the M
extension, the reads of the counters, and the two environment calls of the SDK.
Registers hold numbers below `2 ^ XLEN`; what a run shows to its user is the list of its
events.
-/

namespace Rvem.Manual

open Rvem.Arch (Build)
open Rvem.Encodings (regOps wordRegOps wordImmOps)
open Rvem.Library.LittleEndian
open Rvem.Reference
  (Hart signExtend bits opcode funct3 funct7 rd rs1 rs2 immI immS immB immU immJ
    RegOp ImmOp BranchOp)

/-! ## Numbers -/

section Numbers

variable (w : ℕ)

/-- The `w`-bit pattern of an integer. -/
def wrap (value : ℤ) : ℕ :=
  (value % 2 ^ w).toNat

/-- The signed value of a register. -/
def signed (value : ℕ) : ℤ :=
  signExtend w value

def div (x y : ℕ) : ℕ :=
  if y = 0 then 2 ^ w - 1
  else if signed w x = -2 ^ (w - 1) ∧ signed w y = -1 then 2 ^ (w - 1)
  else wrap w ((signed w x).tdiv (signed w y))

def rem (x y : ℕ) : ℕ :=
  if y = 0 then x
  else if signed w x = -2 ^ (w - 1) ∧ signed w y = -1 then 0
  else wrap w ((signed w x).tmod (signed w y))

/-- The register operations at `XLEN = w`. -/
def regValue (op : RegOp) (x y : ℕ) : ℕ :=
  match op with
  | .add => (x + y) % 2 ^ w
  | .sub => wrap w (x - y)
  | .sll => x * 2 ^ (y % w) % 2 ^ w
  | .slt => if signed w x < signed w y then 1 else 0
  | .sltu => if x < y then 1 else 0
  | .xor => x ^^^ y
  | .srl => x / 2 ^ (y % w)
  | .sra => wrap w (signed w x / 2 ^ (y % w))
  | .or => x ||| y
  | .and => x &&& y
  | .mul => x * y % 2 ^ w
  | .mulh => wrap w (signed w x * signed w y / 2 ^ w)
  | .mulhsu => wrap w (signed w x * y / 2 ^ w)
  | .mulhu => x * y / 2 ^ w
  | .div => div w x y
  | .divu => if y = 0 then 2 ^ w - 1 else x / y
  | .rem => rem w x y
  | .remu => if y = 0 then x else x % y

/-- A W form: the 32-bit operation on the low halves, sign-extended. -/
def wordValue (op : RegOp) (x y : ℕ) : ℕ :=
  wrap w (signExtend 32 (op.eval (x % 2 ^ 32) (y % 2 ^ 32)))

def branches (op : BranchOp) (x y : ℕ) : Bool :=
  match op with
  | .beq => x = y
  | .bne => x ≠ y
  | .blt => signed w x < signed w y
  | .bge => signed w y ≤ signed w x
  | .bltu => x < y
  | .bgeu => y ≤ x

end Numbers

/-! ## Loads and stores -/

inductive LoadOp
  | lb | lh | lw | ld | lbu | lhu | lwu
  deriving DecidableEq, Repr

inductive StoreOp
  | sb | sh | sw | sd
  deriving DecidableEq, Repr

def LoadOp.size : LoadOp → ℕ
  | .lb | .lbu => 1
  | .lh | .lhu => 2
  | .lw | .lwu => 4
  | .ld => 8

def LoadOp.funct3 : LoadOp → ℕ
  | .lb => 0b000
  | .lh => 0b001
  | .lw => 0b010
  | .ld => 0b011
  | .lbu => 0b100
  | .lhu => 0b101
  | .lwu => 0b110

/-- The register value for the bytes loaded. -/
def LoadOp.extend (w : ℕ) (op : LoadOp) (value : ℕ) : ℕ :=
  match op with
  | .lb | .lh | .lw | .ld => wrap w (signExtend (8 * op.size) value)
  | .lbu | .lhu | .lwu => value

def StoreOp.size : StoreOp → ℕ
  | .sb => 1
  | .sh => 2
  | .sw => 4
  | .sd => 8

def StoreOp.funct3 : StoreOp → ℕ
  | .sb => 0b000
  | .sh => 0b001
  | .sw => 0b010
  | .sd => 0b011

def loadOps (w : ℕ) : List LoadOp :=
  [.lb, .lh, .lw, .lbu, .lhu] ++ if w = 64 then [.ld, .lwu] else []

def storeOps (w : ℕ) : List StoreOp :=
  [.sb, .sh, .sw] ++ if w = 64 then [.sd] else []

/-! ## Counters -/

/-- The two counters as an instruction sees them. -/
structure Counts where
  cycle : ℕ
  instret : ℕ

/-- The counter CSRs, the upper halves among them. -/
inductive Counter
  | cycle | instret | cycleh | instreth
  deriving DecidableEq, Repr

/-- The CSR numbers of the counters: `mcycle` and `cycle`, and so on. -/
def counters (w : ℕ) : List (ℕ × Counter) :=
  [(0xB00, .cycle), (0xC00, .cycle), (0xB02, .instret), (0xC02, .instret)] ++
    if w = 32 then
      [(0xB80, .cycleh), (0xC80, .cycleh), (0xB82, .instreth), (0xC82, .instreth)]
    else []

def Counter.value (w : ℕ) (counts : Counts) : Counter → ℕ
  | .cycle => counts.cycle % 2 ^ w
  | .instret => counts.instret % 2 ^ w
  | .cycleh => counts.cycle / 2 ^ 32 % 2 ^ w
  | .instreth => counts.instret / 2 ^ 32 % 2 ^ w

/-! ## Instructions -/

inductive Instr
  | reg (op : RegOp) (rd rs1 rs2 : Fin 32)
  | imm (op : ImmOp) (rd rs1 : Fin 32) (imm : ℤ)
  | regw (op : RegOp) (rd rs1 rs2 : Fin 32)
  | immw (op : ImmOp) (rd rs1 : Fin 32) (imm : ℤ)
  | load (op : LoadOp) (rd rs1 : Fin 32) (imm : ℤ)
  | store (op : StoreOp) (rs1 rs2 : Fin 32) (imm : ℤ)
  | branch (op : BranchOp) (rs1 rs2 : Fin 32) (imm : ℤ)
  | lui (rd : Fin 32) (imm : ℤ)
  | auipc (rd : Fin 32) (imm : ℤ)
  | jal (rd : Fin 32) (imm : ℤ)
  | jalr (rd rs1 : Fin 32) (imm : ℤ)
  | fence
  | ecall
  | ebreak
  | csrr (rd : Fin 32) (counter : Counter)
  deriving DecidableEq, Repr

section Decode

variable (word : ℕ)

def findReg (ops : List RegOp) : Option RegOp :=
  ops.find? fun op => op.funct7 = funct7 word ∧ op.funct3 = funct3 word

/-- A shift has its function code above the `shamt` bits of its amount. -/
def findImm (ops : List ImmOp) (shamt : ℕ) : Option ImmOp :=
  ops.find? fun op => op.funct3 = funct3 word ∧
    ∀ code ∈ op.funct7, code * 2 ^ 5 / 2 ^ shamt = bits word 31 (20 + shamt)

/-- The immediate of an operation, for a shift its amount. -/
def operand (op : ImmOp) (shamt : ℕ) : ℤ :=
  if op.funct7.isSome then bits word (19 + shamt) 20 else immI word

/-- The width of a shift amount. -/
def shamt (w : ℕ) : ℕ := if w = 64 then 6 else 5

/-- The counter an access to a CSR reads without writing to it: `csrrs` or `csrrc` with
`x0`, `csrrsi` or `csrrci` with zero. -/
def findCounter (w : ℕ) : Option Counter :=
  if opcode word = 0b1110011 ∧ funct3 word ∈ [0b010, 0b011, 0b110, 0b111] ∧
      rs1 word = 0 then
    ((counters w).find? fun entry => entry.1 = bits word 31 20).map Prod.snd
  else none

/-- The instruction a word encodes, if the build defines one; other accesses to CSRs are
left out. -/
def decode (b : Build) : Option Instr :=
  if opcode word = 0b0110011 then
    (findReg word (regOps b.mExt)).map fun op => .reg op (rd word) (rs1 word) (rs2 word)
  else if opcode word = 0b0010011 then
    (findImm word ImmOp.all (shamt b.xlen)).map fun op =>
      .imm op (rd word) (rs1 word) (operand word op (shamt b.xlen))
  else if b.xlen = 64 ∧ opcode word = 0b0111011 then
    (findReg word (wordRegOps b.mExt)).map fun op =>
      .regw op (rd word) (rs1 word) (rs2 word)
  else if b.xlen = 64 ∧ opcode word = 0b0011011 then
    (findImm word wordImmOps 5).map fun op =>
      .immw op (rd word) (rs1 word) (operand word op 5)
  else if opcode word = 0b0000011 then
    ((loadOps b.xlen).find? fun op => op.funct3 = funct3 word).map fun op =>
      .load op (rd word) (rs1 word) (immI word)
  else if opcode word = 0b0100011 then
    ((storeOps b.xlen).find? fun op => op.funct3 = funct3 word).map fun op =>
      .store op (rs1 word) (rs2 word) (immS word)
  else if opcode word = 0b1100011 then
    (BranchOp.all.find? fun op => op.funct3 = funct3 word).map fun op =>
      .branch op (rs1 word) (rs2 word) (immB word)
  else if opcode word = 0b0110111 then
    some (.lui (rd word) (signExtend 32 (immU word)))
  else if opcode word = 0b0010111 then
    some (.auipc (rd word) (signExtend 32 (immU word)))
  else if opcode word = 0b1101111 then some (.jal (rd word) (immJ word))
  else if opcode word = 0b1100111 ∧ funct3 word = 0 then
    some (.jalr (rd word) (rs1 word) (immI word))
  else if opcode word = 0b0001111 ∧ funct3 word = 0 then some .fence
  else if word = 0x00000073 then some .ecall
  else if word = 0x00100073 then some .ebreak
  else (findCounter word b.xlen).map fun counter => .csrr (rd word) counter

end Decode

/-! ## Execution -/

section Execution

variable (w : ℕ) (counts : Counts) (h : Hart)

def next : ℕ := (h.pc + 4) % 2 ^ w

/-- The sum of a register and an immediate as an address. -/
def address (r : Fin 32) (imm : ℤ) : ℕ := wrap w (h.read r + imm)

/-- One instruction, `counts` being what it finds in the counters. -/
def execute : Instr → Hart
  | .reg op rd rs1 rs2 =>
      (h.write rd (regValue w op (h.read rs1) (h.read rs2))).jump (next w h)
  | .imm op rd rs1 imm =>
      (h.write rd (regValue w op.regOp (h.read rs1) (wrap w imm))).jump (next w h)
  | .regw op rd rs1 rs2 =>
      (h.write rd (wordValue w op (h.read rs1) (h.read rs2))).jump (next w h)
  | .immw op rd rs1 imm =>
      (h.write rd (wordValue w op.regOp (h.read rs1) (wrap w imm))).jump (next w h)
  | .load op rd rs1 imm =>
      (h.write rd (op.extend w (load h.mem (address w h rs1 imm) op.size))).jump
        (next w h)
  | .store op rs1 rs2 imm =>
      { h with
        mem := store h.mem (address w h rs1 imm) op.size (h.read rs2)
        pc := next w h }
  | .branch op rs1 rs2 imm =>
      h.jump (if branches w op (h.read rs1) (h.read rs2) then wrap w (h.pc + imm)
        else next w h)
  | .lui rd imm => (h.write rd (wrap w imm)).jump (next w h)
  | .auipc rd imm => (h.write rd (wrap w (h.pc + imm))).jump (next w h)
  | .jal rd imm => (h.write rd (next w h)).jump (wrap w (h.pc + imm))
  | .jalr rd rs1 imm =>
      (h.write rd (next w h)).jump (address w h rs1 imm - address w h rs1 imm % 2)
  | .fence | .ecall | .ebreak => h.jump (next w h)
  | .csrr rd counter => (h.write rd (counter.value w counts)).jump (next w h)

def Instr.readsCounter : Instr → Bool
  | .csrr _ _ => true
  | _ => false

/-- Only a read of a counter depends on the counters. -/
theorem execute_counts {counts counts' : Counts} {instr : Instr}
    (hreads : instr.readsCounter = false) :
    execute w counts h instr = execute w counts' h instr := by
  cases instr
  case csrr => cases hreads
  all_goals rfl

/-- What a run shows to its user. -/
inductive Event
  | char (c : ℕ)
  | exit
  | breakpoint
  deriving DecidableEq, Repr

/-- The event of an instruction; `ecall` prints the character in `a1` or exits, by the
number in `a0`. -/
def event : Instr → Option Event
  | .ecall =>
      if h.read 10 = 10 then some .exit
      else if h.read 10 = 11 then some (.char (h.read 11 % 256))
      else none
  | .ebreak => some .breakpoint
  | _ => none

def Event.stops : Event → Bool
  | .char _ => false
  | .exit | .breakpoint => true

/-- The memory accesses of an instruction: address and width. -/
def loads : Instr → Option (ℕ × ℕ)
  | .load op _ rs1 imm => some (address w h rs1 imm, op.size)
  | _ => none

def stores : Instr → Option (ℕ × ℕ)
  | .store op rs1 _ imm => some (address w h rs1 imm, op.size)
  | _ => none

end Execution

/-! ## Runs -/

structure Run where
  hart : Hart
  events : List Event
  running : Bool

namespace Run

/-- One instruction; a run that has stopped, or meets a word that encodes none, stays. -/
def step (b : Build) (counts : Counts) (r : Run) : Run :=
  if r.running then
    match decode r.hart.fetch b with
    | some instr =>
        { hart := execute b.xlen counts r.hart instr
          events := r.events ++ (event r.hart instr).toList
          running := !(event r.hart instr).any Event.stops }
    | none => r
  else r

theorem step_of_decode {b : Build} {counts : Counts} {r : Run} {instr : Instr}
    (hrunning : r.running = true) (hdecode : decode r.hart.fetch b = some instr) :
    r.step b counts =
      { hart := execute b.xlen counts r.hart instr
        events := r.events ++ (event r.hart instr).toList
        running := !(event r.hart instr).any Event.stops } := by
  rw [step, if_pos hrunning, hdecode]

theorem step_of_stopped {b : Build} {counts : Counts} {r : Run}
    (hstopped : r.running = false) : r.step b counts = r := by
  rw [step, hstopped, if_neg Bool.false_ne_true]

/-- A step that reads no counter is the same with all counters. -/
theorem step_counts {b : Build} {counts counts' : Counts} {r : Run}
    (hreads : (decode r.hart.fetch b).any Instr.readsCounter = false) :
    r.step b counts = r.step b counts' := by
  rw [step, step]
  cases hdecode : decode r.hart.fetch b with
  | none => rfl
  | some instr =>
      rw [hdecode, Option.any_some] at hreads
      have hsame :
          execute b.xlen counts r.hart instr = execute b.xlen counts' r.hart instr :=
        execute_counts b.xlen r.hart hreads
      simp only [hsame]

/-- The run has stopped, or its next step stays inside `readable` and `writable`
memory. -/
structure Permitted (readable writable : ℕ → ℕ → Prop) (b : Build) (r : Run) : Prop where
  fetch : r.running = true → readable r.hart.pc 4
  decode : r.running = true → (decode r.hart.fetch b).isSome
  load : r.running = true → ∀ instr ∈ Manual.decode r.hart.fetch b,
    ∀ access ∈ loads b.xlen r.hart instr, readable access.1 access.2
  store : r.running = true → ∀ instr ∈ Manual.decode r.hart.fetch b,
    ∀ access ∈ stores b.xlen r.hart instr, writable access.1 access.2

instance decidablePermitted (readable writable : ℕ → ℕ → Prop)
    [∀ a n, Decidable (readable a n)] [∀ a n, Decidable (writable a n)] (b : Build)
    (r : Run) :
    Decidable (r.Permitted readable writable b) :=
  decidable_of_iff
    ((r.running = true → readable r.hart.pc 4) ∧
      (r.running = true → (Manual.decode r.hart.fetch b).isSome) ∧
      (r.running = true → ∀ instr ∈ Manual.decode r.hart.fetch b,
        ∀ access ∈ loads b.xlen r.hart instr, readable access.1 access.2) ∧
      (r.running = true → ∀ instr ∈ Manual.decode r.hart.fetch b,
        ∀ access ∈ stores b.xlen r.hart instr, writable access.1 access.2))
    ⟨fun ⟨hfetch, hdecode, hload, hstore⟩ => ⟨hfetch, hdecode, hload, hstore⟩,
      fun hpermitted => ⟨hpermitted.fetch, hpermitted.decode, hpermitted.load,
        hpermitted.store⟩⟩

end Run

end Rvem.Manual
