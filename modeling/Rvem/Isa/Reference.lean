import Rvem.Library.LittleEndian

/-!
# RV32IM reference machine

The instruction set as the manual states it, over mathematical integers and one
flat byte memory.  Registers and the pc hold numbers below `2 ^ 32`; an
instruction is decoded by searching the table of its opcode for the operation
with the function codes of the word.
-/

namespace Rvem.Reference

open Rvem.Library.LittleEndian

/-! ## Numbers -/

/-- The 32-bit pattern of an integer. -/
def wrap (value : ℤ) : ℕ :=
  (value % 2 ^ 32).toNat

/-- The integer an `n`-bit pattern denotes in two's complement. -/
def signExtend (n value : ℕ) : ℤ :=
  if value < 2 ^ (n - 1) then value else (value : ℤ) - 2 ^ n

/-- The signed value of a register. -/
def signed (value : ℕ) : ℤ :=
  signExtend 32 value

/-- Division of signed integers by the manual's rules for zero and overflow. -/
def div (x y : ℕ) : ℕ :=
  if y = 0 then 2 ^ 32 - 1
  else if signed x = -2 ^ 31 ∧ signed y = -1 then 2 ^ 31
  else wrap ((signed x).tdiv (signed y))

def rem (x y : ℕ) : ℕ :=
  if y = 0 then x
  else if signed x = -2 ^ 31 ∧ signed y = -1 then 0
  else wrap ((signed x).tmod (signed y))

/-! ## Operations -/

inductive RegOp
  | add | sub | sll | slt | sltu | xor | srl | sra | or | and
  | mul | mulh | mulhsu | mulhu | div | divu | rem | remu
  deriving DecidableEq, Repr

inductive ImmOp
  | addi | slti | sltiu | xori | ori | andi | slli | srli | srai
  deriving DecidableEq, Repr

inductive LoadOp
  | lb | lh | lw | lbu | lhu
  deriving DecidableEq, Repr

inductive StoreOp
  | sb | sh | sw
  deriving DecidableEq, Repr

inductive BranchOp
  | beq | bne | blt | bge | bltu | bgeu
  deriving DecidableEq, Repr

def RegOp.eval (op : RegOp) (x y : ℕ) : ℕ :=
  match op with
  | .add => (x + y) % 2 ^ 32
  | .sub => wrap (x - y)
  | .sll => x * 2 ^ (y % 32) % 2 ^ 32
  | .slt => if signed x < signed y then 1 else 0
  | .sltu => if x < y then 1 else 0
  | .xor => x ^^^ y
  | .srl => x / 2 ^ (y % 32)
  | .sra => wrap (signed x / 2 ^ (y % 32))
  | .or => x ||| y
  | .and => x &&& y
  | .mul => x * y % 2 ^ 32
  | .mulh => wrap (signed x * signed y / 2 ^ 32)
  | .mulhsu => wrap (signed x * y / 2 ^ 32)
  | .mulhu => x * y / 2 ^ 32
  | .div => Reference.div x y
  | .divu => if y = 0 then 2 ^ 32 - 1 else x / y
  | .rem => Reference.rem x y
  | .remu => if y = 0 then x else x % y

/-- The register operation an immediate operation applies to its sign-extended
immediate or its shift amount. -/
def ImmOp.regOp : ImmOp → RegOp
  | .addi => .add
  | .slti => .slt
  | .sltiu => .sltu
  | .xori => .xor
  | .ori => .or
  | .andi => .and
  | .slli => .sll
  | .srli => .srl
  | .srai => .sra

def LoadOp.size : LoadOp → ℕ
  | .lb | .lbu => 1
  | .lh | .lhu => 2
  | .lw => 4

/-- The register value for the bytes loaded. -/
def LoadOp.extend (op : LoadOp) (value : ℕ) : ℕ :=
  match op with
  | .lb | .lh | .lw => wrap (signExtend (8 * op.size) value)
  | .lbu | .lhu => value

def StoreOp.size : StoreOp → ℕ
  | .sb => 1
  | .sh => 2
  | .sw => 4

def BranchOp.eval (op : BranchOp) (x y : ℕ) : Bool :=
  match op with
  | .beq => x = y
  | .bne => x ≠ y
  | .blt => signed x < signed y
  | .bge => signed y ≤ signed x
  | .bltu => x < y
  | .bgeu => y ≤ x

/-! ## Encodings -/

def RegOp.all : List RegOp :=
  [.add, .sub, .sll, .slt, .sltu, .xor, .srl, .sra, .or, .and,
    .mul, .mulh, .mulhsu, .mulhu, .div, .divu, .rem, .remu]

def RegOp.funct7 : RegOp → ℕ
  | .sub | .sra => 0b0100000
  | .mul | .mulh | .mulhsu | .mulhu | .div | .divu | .rem | .remu => 0b0000001
  | _ => 0b0000000

def RegOp.funct3 : RegOp → ℕ
  | .add | .sub | .mul => 0b000
  | .sll | .mulh => 0b001
  | .slt | .mulhsu => 0b010
  | .sltu | .mulhu => 0b011
  | .xor | .div => 0b100
  | .srl | .sra | .divu => 0b101
  | .or | .rem => 0b110
  | .and | .remu => 0b111

def ImmOp.all : List ImmOp :=
  [.addi, .slti, .sltiu, .xori, .ori, .andi, .slli, .srli, .srai]

/-- The shifts have a function code in the upper part of their immediate. -/
def ImmOp.funct7 : ImmOp → Option ℕ
  | .slli | .srli => some 0b0000000
  | .srai => some 0b0100000
  | _ => none

def ImmOp.funct3 : ImmOp → ℕ
  | .addi => 0b000
  | .slli => 0b001
  | .slti => 0b010
  | .sltiu => 0b011
  | .xori => 0b100
  | .srli | .srai => 0b101
  | .ori => 0b110
  | .andi => 0b111

def LoadOp.all : List LoadOp := [.lb, .lh, .lw, .lbu, .lhu]

def LoadOp.funct3 : LoadOp → ℕ
  | .lb => 0b000
  | .lh => 0b001
  | .lw => 0b010
  | .lbu => 0b100
  | .lhu => 0b101

def StoreOp.all : List StoreOp := [.sb, .sh, .sw]

def StoreOp.funct3 : StoreOp → ℕ
  | .sb => 0b000
  | .sh => 0b001
  | .sw => 0b010

def BranchOp.all : List BranchOp := [.beq, .bne, .blt, .bge, .bltu, .bgeu]

def BranchOp.funct3 : BranchOp → ℕ
  | .beq => 0b000
  | .bne => 0b001
  | .blt => 0b100
  | .bge => 0b101
  | .bltu => 0b110
  | .bgeu => 0b111

/-- The bits `[high:low]` of a word. -/
def bits (word high low : ℕ) : ℕ :=
  word / 2 ^ low % 2 ^ (high + 1 - low)

def opcode (word : ℕ) : ℕ := bits word 6 0
def funct3 (word : ℕ) : ℕ := bits word 14 12
def funct7 (word : ℕ) : ℕ := bits word 31 25

/-- A five-bit register field. -/
def regField (word low : ℕ) : Fin 32 :=
  ⟨bits word (low + 4) low, lt_of_lt_of_eq (Nat.mod_lt _ (by positivity)) (by
    rw [show low + 4 + 1 - low = 5 by omega]
    norm_num)⟩

def rd (word : ℕ) : Fin 32 := regField word 7
def rs1 (word : ℕ) : Fin 32 := regField word 15
def rs2 (word : ℕ) : Fin 32 := regField word 20

def immI (word : ℕ) : ℤ :=
  signExtend 12 (bits word 31 20)

def immS (word : ℕ) : ℤ :=
  signExtend 12 (bits word 31 25 * 2 ^ 5 + bits word 11 7)

def immB (word : ℕ) : ℤ :=
  signExtend 13 (bits word 31 31 * 2 ^ 12 + bits word 7 7 * 2 ^ 11
    + bits word 30 25 * 2 ^ 5 + bits word 11 8 * 2)

def immU (word : ℕ) : ℕ :=
  bits word 31 12 * 2 ^ 12

def immJ (word : ℕ) : ℤ :=
  signExtend 21 (bits word 31 31 * 2 ^ 20 + bits word 19 12 * 2 ^ 12
    + bits word 20 20 * 2 ^ 11 + bits word 30 21 * 2)

inductive Instr
  | reg (op : RegOp) (rd rs1 rs2 : Fin 32)
  | imm (op : ImmOp) (rd rs1 : Fin 32) (imm : ℤ)
  | load (op : LoadOp) (rd rs1 : Fin 32) (imm : ℤ)
  | store (op : StoreOp) (rs1 rs2 : Fin 32) (imm : ℤ)
  | branch (op : BranchOp) (rs1 rs2 : Fin 32) (imm : ℤ)
  | lui (rd : Fin 32) (imm : ℕ)
  | auipc (rd : Fin 32) (imm : ℕ)
  | jal (rd : Fin 32) (imm : ℤ)
  | jalr (rd rs1 : Fin 32) (imm : ℤ)
  | fence
  deriving DecidableEq, Repr

/-- The instruction a word encodes, if it is an RV32IM encoding other than
SYSTEM. -/
def decode (word : ℕ) : Option Instr :=
  if opcode word = 0b0110011 then
    (RegOp.all.find? fun op => op.funct7 = funct7 word ∧ op.funct3 = funct3 word).map
      fun op => .reg op (rd word) (rs1 word) (rs2 word)
  else if opcode word = 0b0010011 then
    (ImmOp.all.find? fun op =>
        op.funct3 = funct3 word ∧ ∀ code ∈ op.funct7, code = funct7 word).map
      fun op => .imm op (rd word) (rs1 word)
        (if op.funct7.isSome then bits word 24 20 else immI word)
  else if opcode word = 0b0000011 then
    (LoadOp.all.find? fun op => op.funct3 = funct3 word).map
      fun op => .load op (rd word) (rs1 word) (immI word)
  else if opcode word = 0b0100011 then
    (StoreOp.all.find? fun op => op.funct3 = funct3 word).map
      fun op => .store op (rs1 word) (rs2 word) (immS word)
  else if opcode word = 0b1100011 then
    (BranchOp.all.find? fun op => op.funct3 = funct3 word).map
      fun op => .branch op (rs1 word) (rs2 word) (immB word)
  else if opcode word = 0b0110111 then some (.lui (rd word) (immU word))
  else if opcode word = 0b0010111 then some (.auipc (rd word) (immU word))
  else if opcode word = 0b1101111 then some (.jal (rd word) (immJ word))
  else if opcode word = 0b1100111 ∧ funct3 word = 0 then
    some (.jalr (rd word) (rs1 word) (immI word))
  else if opcode word = 0b0001111 ∧ funct3 word = 0 then some .fence
  else none

/-! ## Execution -/

structure Hart where
  pc : ℕ
  reg : Fin 32 → ℕ
  mem : ℕ → ℕ

/-- Reads of `x0` give zero. -/
def Hart.read (h : Hart) (r : Fin 32) : ℕ :=
  if r = 0 then 0 else h.reg r

/-- Writes to `x0` are dropped. -/
def Hart.write (h : Hart) (r : Fin 32) (value : ℕ) : Hart :=
  if r = 0 then h else { h with reg := Function.update h.reg r value }

/-- Goes on at `target`. -/
def Hart.jump (h : Hart) (target : ℕ) : Hart :=
  { h with pc := target }

def Hart.next (h : Hart) : ℕ :=
  (h.pc + 4) % 2 ^ 32

/-- The sum of a register and an immediate as an address. -/
def Hart.address (h : Hart) (r : Fin 32) (imm : ℤ) : ℕ :=
  wrap (h.read r + imm)

/-- The address and width of an instruction's load, if it is a load. -/
def Instr.loads (h : Hart) : Instr → Option (ℕ × ℕ)
  | .load op _ rs1 offset => some (h.address rs1 offset, op.size)
  | _ => none

/-- The address and width of an instruction's store, if it is a store. -/
def Instr.stores (h : Hart) : Instr → Option (ℕ × ℕ)
  | .store op rs1 _ offset => some (h.address rs1 offset, op.size)
  | _ => none

def Hart.execute (h : Hart) : Instr → Hart
  | .reg op rd rs1 rs2 =>
      (h.write rd (op.eval (h.read rs1) (h.read rs2))).jump h.next
  | .imm op rd rs1 offset =>
      (h.write rd (op.regOp.eval (h.read rs1) (wrap offset))).jump h.next
  | .load op rd rs1 offset =>
      (h.write rd (op.extend (load h.mem (h.address rs1 offset) op.size))).jump h.next
  | .store op rs1 rs2 offset =>
      { h with
        mem := store h.mem (h.address rs1 offset) op.size (h.read rs2)
        pc := h.next }
  | .branch op rs1 rs2 offset =>
      h.jump (if op.eval (h.read rs1) (h.read rs2) then wrap (h.pc + offset) else h.next)
  | .lui rd offset => (h.write rd offset).jump h.next
  | .auipc rd offset => (h.write rd ((h.pc + offset) % 2 ^ 32)).jump h.next
  | .jal rd offset => (h.write rd h.next).jump (wrap (h.pc + offset))
  | .jalr rd rs1 offset =>
      (h.write rd h.next).jump (h.address rs1 offset - h.address rs1 offset % 2)
  | .fence => h.jump h.next

/-- The word at the pc. -/
def Hart.fetch (h : Hart) : ℕ :=
  load h.mem h.pc 4

/-- One instruction; a word that encodes none leaves the machine as it is. -/
def Hart.step (h : Hart) : Hart :=
  ((decode h.fetch).map h.execute).getD h

theorem Hart.step_of_decode {h : Hart} {instr : Instr}
    (hdecode : decode h.fetch = some instr) : h.step = h.execute instr := by
  rw [Hart.step, hdecode, Option.map_some, Option.getD_some]

/-- A step whose fetch and load stay inside `readable` memory and whose store
stays inside `writable` memory. -/
structure Hart.Permitted (readable writable : ℕ → ℕ → Prop) (h : Hart) : Prop where
  fetch : readable h.pc 4
  decode : (decode h.fetch).isSome
  load : ∀ instr ∈ Reference.decode h.fetch, ∀ access ∈ instr.loads h,
    readable access.1 access.2
  store : ∀ instr ∈ Reference.decode h.fetch, ∀ access ∈ instr.stores h,
    writable access.1 access.2

instance (readable writable : ℕ → ℕ → Prop) [∀ a n, Decidable (readable a n)]
    [∀ a n, Decidable (writable a n)] (h : Hart) :
    Decidable (h.Permitted readable writable) :=
  decidable_of_iff
    (readable h.pc 4 ∧ (decode h.fetch).isSome ∧
      (∀ instr ∈ decode h.fetch, ∀ access ∈ instr.loads h,
        readable access.1 access.2) ∧
      ∀ instr ∈ decode h.fetch, ∀ access ∈ instr.stores h,
        writable access.1 access.2)
    ⟨fun ⟨hfetch, hdecode, hload, hstore⟩ => ⟨hfetch, hdecode, hload, hstore⟩,
      fun hpermitted => ⟨hpermitted.fetch, hpermitted.decode, hpermitted.load,
        hpermitted.store⟩⟩

end Rvem.Reference
