import Rvem.Guest.Code
import Rvem.Isa.Manual

/-!
# RV32IM within the four builds

The machine of the four builds extends the reference machine of RV32IM: it decodes and
executes what that one does, and adds the environment calls and the counters.  A step of
that machine, and what is permitted to it, are therefore a step of this one and
permitted to it.  The refinement of RV32IM follows from that of the four builds.
-/

namespace Rvem.ManualExtension

open Rvem.Code (rv32im)
open Rvem.Manual
open Rvem.Reference (Hart RegOp ImmOp BranchOp)

/-! ## Instructions -/

def embedLoad : Reference.LoadOp → LoadOp
  | .lb => .lb
  | .lh => .lh
  | .lw => .lw
  | .lbu => .lbu
  | .lhu => .lhu

def embedStore : Reference.StoreOp → StoreOp
  | .sb => .sb
  | .sh => .sh
  | .sw => .sw

/-- An instruction of the reference machine as one of the four builds. -/
def embed : Reference.Instr → Instr
  | .reg op rd rs1 rs2 => .reg op rd rs1 rs2
  | .imm op rd rs1 imm => .imm op rd rs1 imm
  | .load op rd rs1 imm => .load (embedLoad op) rd rs1 imm
  | .store op rs1 rs2 imm => .store (embedStore op) rs1 rs2 imm
  | .branch op rs1 rs2 imm => .branch op rs1 rs2 imm
  | .lui rd imm => .lui rd (Reference.signExtend 32 imm)
  | .auipc rd imm => .auipc rd (Reference.signExtend 32 imm)
  | .jal rd imm => .jal rd imm
  | .jalr rd rs1 imm => .jalr rd rs1 imm
  | .fence => .fence

/-! ## Decoding -/

theorem findLoad (word : ℕ) :
    ((loadOps 32).find? fun op => op.funct3 = Reference.funct3 word) =
      (Reference.LoadOp.all.find? fun op => op.funct3 = Reference.funct3 word).map
        embedLoad := by
  have hops : loadOps 32 = Reference.LoadOp.all.map embedLoad := rfl
  have hcode : ∀ op, (embedLoad op).funct3 = op.funct3 := by
    intro op
    cases op <;> rfl
  rw [hops, List.find?_map]
  simp only [Function.comp_def, hcode]

theorem findStore (word : ℕ) :
    ((storeOps 32).find? fun op => op.funct3 = Reference.funct3 word) =
      (Reference.StoreOp.all.find? fun op => op.funct3 = Reference.funct3 word).map
        embedStore := by
  have hops : storeOps 32 = Reference.StoreOp.all.map embedStore := rfl
  have hcode : ∀ op, (embedStore op).funct3 = op.funct3 := by
    intro op
    cases op <;> rfl
  rw [hops, List.find?_map]
  simp only [Function.comp_def, hcode]

/-- With a `shamt` of five bits the function code of a shift is the whole field. -/
theorem findImm_five (word : ℕ) :
    findImm word ImmOp.all 5 = ImmOp.all.find? fun op =>
      op.funct3 = Reference.funct3 word ∧
        ∀ code ∈ op.funct7, code = Reference.funct7 word := by
  have hcode : ∀ code : ℕ, code * 2 ^ 5 / 2 ^ 5 = code := by
    intro code
    exact Nat.mul_div_cancel code (by positivity)
  simp only [findImm, hcode]
  rfl

/-- A word that the reference machine decodes is decoded to the same instruction; the
word forms are absent from a 32-bit build. -/
theorem decode_embed {word : ℕ} {instr : Reference.Instr}
    (hdecode : Reference.decode word = some instr) :
    decode word rv32im = some (embed instr) := by
  have hxlen : ¬rv32im.xlen = 64 := by decide
  rw [Reference.decode] at hdecode
  rw [decode]
  rcases ite_eq_iff.mp hdecode with ⟨hreg, hdecode⟩ | ⟨hreg, hdecode⟩
  · obtain ⟨op, hfind, rfl⟩ := Option.map_eq_some_iff.mp hdecode
    rw [if_pos hreg]
    exact congrArg _ hfind
  rw [if_neg hreg]
  rcases ite_eq_iff.mp hdecode with ⟨himm, hdecode⟩ | ⟨himm, hdecode⟩
  · obtain ⟨op, hfind, rfl⟩ := Option.map_eq_some_iff.mp hdecode
    rw [if_pos himm]
    exact congrArg _ ((findImm_five word).trans hfind)
  rw [if_neg himm, if_neg (not_and.mpr fun h => absurd h hxlen),
    if_neg (not_and.mpr fun h => absurd h hxlen)]
  rcases ite_eq_iff.mp hdecode with ⟨hload, hdecode⟩ | ⟨hload, hdecode⟩
  · obtain ⟨op, hfind, rfl⟩ := Option.map_eq_some_iff.mp hdecode
    rw [if_pos hload]
    exact congrArg _ ((findLoad word).trans (congrArg _ hfind))
  rw [if_neg hload]
  rcases ite_eq_iff.mp hdecode with ⟨hstore, hdecode⟩ | ⟨hstore, hdecode⟩
  · obtain ⟨op, hfind, rfl⟩ := Option.map_eq_some_iff.mp hdecode
    rw [if_pos hstore]
    exact congrArg _ ((findStore word).trans (congrArg _ hfind))
  rw [if_neg hstore]
  rcases ite_eq_iff.mp hdecode with ⟨hbranch, hdecode⟩ | ⟨hbranch, hdecode⟩
  · obtain ⟨op, hfind, rfl⟩ := Option.map_eq_some_iff.mp hdecode
    rw [if_pos hbranch]
    exact congrArg _ hfind
  rw [if_neg hbranch]
  rcases ite_eq_iff.mp hdecode with ⟨hlui, hdecode⟩ | ⟨hlui, hdecode⟩
  · obtain rfl := Option.some.inj hdecode
    exact if_pos hlui
  rw [if_neg hlui]
  rcases ite_eq_iff.mp hdecode with ⟨hauipc, hdecode⟩ | ⟨hauipc, hdecode⟩
  · obtain rfl := Option.some.inj hdecode
    exact if_pos hauipc
  rw [if_neg hauipc]
  rcases ite_eq_iff.mp hdecode with ⟨hjal, hdecode⟩ | ⟨hjal, hdecode⟩
  · obtain rfl := Option.some.inj hdecode
    exact if_pos hjal
  rw [if_neg hjal]
  rcases ite_eq_iff.mp hdecode with ⟨hjalr, hdecode⟩ | ⟨hjalr, hdecode⟩
  · obtain rfl := Option.some.inj hdecode
    exact if_pos hjalr
  rw [if_neg hjalr]
  rcases ite_eq_iff.mp hdecode with ⟨hfence, hdecode⟩ | ⟨-, hdecode⟩
  · obtain rfl := Option.some.inj hdecode
    exact if_pos hfence
  cases hdecode

/-! ## Execution -/

theorem regValue_eq (op : RegOp) (x y : ℕ) : regValue 32 op x y = op.eval x y := by
  cases op <;> rfl

theorem branches_eq (op : BranchOp) (x y : ℕ) : branches 32 op x y = op.eval x y := by
  cases op <;> rfl

theorem embedLoad_extend (op : Reference.LoadOp) (value : ℕ) :
    (embedLoad op).extend 32 value = op.extend value := by
  cases op <;> rfl

theorem embedLoad_size (op : Reference.LoadOp) : (embedLoad op).size = op.size := by
  cases op <;> rfl

theorem embedStore_size (op : Reference.StoreOp) : (embedStore op).size = op.size := by
  cases op <;> rfl

/-- The upper immediate, as a signed number and as the pattern it is. -/
theorem wrap_add_upper (x imm : ℕ) :
    wrap 32 (x + Reference.signExtend 32 imm) = (x + imm) % 2 ^ 32 := by
  rw [wrap, Reference.signExtend]
  split
  · omega
  · omega

/-- At 32 bits the operations of the two machines are the same, and the counters play no
part. -/
theorem execute_embed (counts : Counts) (h : Hart) (instr : Reference.Instr)
    (hupper : ∀ rd imm, instr = .lui rd imm → imm < 2 ^ 32) :
    execute 32 counts h (embed instr) = h.execute instr := by
  cases instr with
  | reg op rd rs1 rs2 => simp only [embed, execute, regValue_eq]; rfl
  | imm op rd rs1 imm => simp only [embed, execute, regValue_eq]; rfl
  | load op rd rs1 imm =>
      simp only [embed, execute, embedLoad_extend, embedLoad_size]
      rfl
  | store op rs1 rs2 imm =>
      simp only [embed, execute, embedStore_size]
      rfl
  | branch op rs1 rs2 imm => simp only [embed, execute, branches_eq]; rfl
  | lui rd imm =>
      have hvalue : wrap 32 (Reference.signExtend 32 imm) = imm := by
        have hsum := wrap_add_upper 0 imm
        rw [Nat.cast_zero, zero_add, Nat.zero_add,
          Nat.mod_eq_of_lt (hupper rd imm rfl)] at hsum
        exact hsum
      simp only [embed, execute, hvalue]
      rfl
  | auipc rd imm =>
      simp only [embed, execute, wrap_add_upper]
      rfl
  | jal rd imm => rfl
  | jalr rd rs1 imm => rfl
  | fence => rfl

/-- The immediate of `lui` fits a register. -/
theorem upper_lt {word imm : ℕ} {rd : Fin 32}
    (hdecode : Reference.decode word = some (.lui rd imm)) : imm < 2 ^ 32 := by
  have hfits : Reference.immU word < 2 ^ 32 := by
    rw [Reference.immU, Reference.bits]
    omega
  rw [Reference.decode] at hdecode
  split_ifs at hdecode <;>
    simp only [Option.map_eq_some_iff, reduceCtorEq, and_false, exists_false,
      Option.some.injEq, Reference.Instr.lui.injEq] at hdecode
  rwa [← hdecode.2]

/-- Where the reference machine of RV32IM makes a step, this machine makes the same, with
any counters, and shows nothing. -/
theorem step_rv32im (counts : Counts) {r : Run} (hrunning : r.running = true)
    (hdecode : (Reference.decode r.hart.fetch).isSome) :
    r.step rv32im counts = { r with hart := r.hart.step } := by
  obtain ⟨instr, hinstr⟩ := Option.isSome_iff_exists.mp hdecode
  have hevent : event r.hart (embed instr) = none := by
    cases instr <;> rfl
  have hexecute :
      execute rv32im.xlen counts r.hart (embed instr) = r.hart.execute instr :=
    execute_embed counts r.hart instr fun rd imm hlui => upper_lt (hlui ▸ hinstr)
  rw [Run.step_of_decode hrunning (decode_embed hinstr), hexecute, hevent,
    Hart.step_of_decode hinstr, hrunning]
  exact congrArg (Run.mk _ · true) (List.append_nil _)

theorem loads_embed (h : Hart) (instr : Reference.Instr) :
    loads 32 h (embed instr) = instr.loads h := by
  cases instr with
  | load op rd rs1 imm =>
      rw [embed, loads, embedLoad_size]
      rfl
  | _ => rfl

theorem stores_embed (h : Hart) (instr : Reference.Instr) :
    stores 32 h (embed instr) = instr.stores h := by
  cases instr with
  | store op rs1 rs2 imm =>
      rw [embed, stores, embedStore_size]
      rfl
  | _ => rfl

/-- A step that is permitted to the reference machine of RV32IM is permitted to this
machine. -/
theorem permitted_rv32im {readable writable : ℕ → ℕ → Prop} {r : Run}
    (hpermitted : r.hart.Permitted readable writable) :
    r.Permitted readable writable rv32im := by
  obtain ⟨instr, hinstr⟩ := Option.isSome_iff_exists.mp hpermitted.decode
  have hdecode := decode_embed hinstr
  refine ⟨fun _ => hpermitted.fetch, fun _ => Option.isSome_of_eq_some hdecode, ?_, ?_⟩
  · intro _ instr' hinstr' access haccess
    obtain rfl := Option.some.inj (hdecode.symm.trans hinstr')
    rw [show rv32im.xlen = 32 from rfl, loads_embed] at haccess
    exact hpermitted.load instr hinstr access haccess
  · intro _ instr' hinstr' access haccess
    obtain rfl := Option.some.inj (hdecode.symm.trans hinstr')
    rw [show rv32im.xlen = 32 from rfl, stores_embed] at haccess
    exact hpermitted.store instr hinstr access haccess

end Rvem.ManualExtension
