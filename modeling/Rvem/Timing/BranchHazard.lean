import Rvem.Guest.Code
import Rvem.Timing.Counters

/-!
# Stalls of a branch behind the producer of its operand

The hazard record after an instruction decides what the next branch is charged.
Every producer of a register is recorded as one, except a CSR read: `OP_SYS` leaves
`is_reg_write` unset, and a branch right behind it is charged only for a load that
stands before it.
-/

namespace Rvem.BranchHazard

open Rvem.Arch
open Rvem.State
open Rvem.Core
open Rvem.Main
open Rvem.Fields
open Rvem.StepEffect
open Rvem.Run
open Rvem.Code
open Rvem.Counters

variable {w : ℕ}

/-! ## Producers and consumers -/

/-- The word writes its destination register, and that is not `x0`. -/
def WritesRd (w : ℕ) (word : Word) : Prop :=
  rd word ≠ 0 ∧
    match opClass w (getOpcode word) with
    | .rtype | .imm | .rtypew | .immw | .load | .auipc | .lui | .jal | .jalr => True
    | .sys => getFunct3 word ∈ [csrRw, csrRs, csrRc, csrRwi, csrRsi, csrRci]
    | .store | .branch | .fence | .unrecognized => False

/-- The word is a conditional branch or a JALR that reads `r`. -/
def BranchesOn (w : ℕ) (word : Word) (r : Fin 32) : Prop :=
  match opClass w (getOpcode word) with
  | .branch => rs1 word = r ∨ rs2 word = r
  | .jalr => rs1 word = r
  | _ => False

/-- The flush of a branch that is taken, or of a jump. -/
def takenPenalty (cpu : Cpu w) (word : Word) : ℕ :=
  match opClass w (getOpcode word) with
  | .branch => (taken cpu word).toNat
  | .jal | .jalr => 1
  | _ => 0

theorem takenPenalty_le (cpu : Cpu w) (word : Word) : takenPenalty cpu word ≤ 1 := by
  rw [takenPenalty]
  split
  · exact Bool.toNat_le _
  · exact le_refl 1
  · exact le_refl 1
  · exact Nat.zero_le 1

/-- The call in state `t` is charged at least one cycle beyond its base cycle and the
flush. -/
def Stalled (m : Bool) (t : Machine w) (word : Word) : Prop :=
  ∃ t' execContinue, processInstr m t word = some (t', execContinue) ∧
    2 + takenPenalty t.cpu word ≤ (t'.mcycle - t.mcycle).toNat

/-! ## Hazards -/

theorem register_eq_iff {left right : Byte} {i j : Fin 32} (hleft : left.toNat = i)
    (hright : right.toNat = j) : (left == right) = decide (i = j) := by
  rw [Bool.beq_eq_decide_eq, decide_eq_decide, BitVec.toNat_eq, hleft, hright,
    Fin.ext_iff]

/-- The sources the hazard tests compare are those of the instruction. -/
theorem BranchesOn.sources {producer word : Word}
    (hbranches : BranchesOn w word (rd producer)) :
    ((decoded w word).rs1 == getRd producer || (decoded w word).rs2 == getRd producer) =
      true := by
  have hfirst := register_eq_iff (i := rs1 word) (j := rd producer) (toNat_getRs1 word)
    (toNat_getRd producer)
  have hsecond := register_eq_iff (i := rs2 word) (j := rd producer) (toNat_getRs2 word)
    (toNat_getRd producer)
  rw [BranchesOn] at hbranches
  cases hclass : opClass w (getOpcode word) <;> rw [hclass] at hbranches <;>
    simp only [decoded, hclass, noInstr]
  case branch =>
    rw [hfirst, hsecond, Bool.or_eq_true, decide_eq_true_iff, decide_eq_true_iff]
    exact hbranches
  case jalr =>
    rw [hfirst, Bool.or_eq_true, decide_eq_true_iff]
    exact .inl hbranches
  all_goals cases hbranches

theorem branches_class {word : Word} {r : Fin 32} (hbranches : BranchesOn w word r) :
    opClass w (getOpcode word) = .branch ∨ opClass w (getOpcode word) = .jalr := by
  rw [BranchesOn] at hbranches
  cases hclass : opClass w (getOpcode word) <;> rw [hclass] at hbranches
  case branch => exact .inl rfl
  case jalr => exact .inr rfl
  all_goals cases hbranches

/-- What the record two instructions back is tested for is what the record one
instruction back was tested for one instruction earlier. -/
theorem memoryBranchHazard_after (model : PerfModel) (producer instr : Instr) :
    memoryBranchHazard (PerfModel.after model producer) instr =
      dataHazard model instr := by
  simp only [memoryBranchHazard, dataHazard, PerfModel.after, Bool.and_comm]

/-- Every producer but a CSR read is recorded as a register write. -/
theorem isRegWrite_of_writesRd {word : Word} (hwrites : WritesRd w word)
    (hsys : opClass w (getOpcode word) ≠ .sys) :
    (decoded w word).isRegWrite = true ∧ (decoded w word).rd = getRd word := by
  have hclass := hwrites.2
  cases hcase : opClass w (getOpcode word) <;> rw [hcase] at hclass <;>
    simp only [decoded, hcase, and_self]
  case sys => exact absurd hcase hsys
  all_goals cases hclass

/-- The stalls of a branch right behind a producer of its operand. -/
theorem branchStalls_pos_iff {producer word : Word} (model : PerfModel)
    (hwrites : WritesRd w producer) (hbranches : BranchesOn w word (rd producer)) :
    1 ≤ branchStalls (PerfModel.after model (decoded w producer)) (decoded w word) ↔
      opClass w (getOpcode producer) ≠ .sys ∨ dataHazard model (decoded w word) =
        true := by
  have hsources := hbranches.sources
  have hrd : (getRd producer != 0) = true := by
    rw [bne_iff_ne]
    exact fun hzero => hwrites.1 ((getRd_eq_zero_iff producer).mp hzero)
  rw [branchStalls, memoryBranchHazard_after]
  by_cases hsys : opClass w (getOpcode producer) = .sys
  · have hwrite : writeHazard (PerfModel.after model (decoded w producer))
        (decoded w word) = false := by
      simp only [writeHazard, PerfModel.after, decoded, hsys, noInstr, Bool.and_false,
        Bool.false_and]
    have hdata : dataHazard (PerfModel.after model (decoded w producer))
        (decoded w word) = false := by
      simp only [dataHazard, PerfModel.after, decoded, hsys, noInstr, Bool.false_and]
    rw [hwrite, hdata]
    cases dataHazard model (decoded w word) <;> simp [hsys]
  · obtain ⟨hregWrite, hdest⟩ := isRegWrite_of_writesRd hwrites hsys
    have hwrite : writeHazard (PerfModel.after model (decoded w producer))
        (decoded w word) = true := by
      simp only [writeHazard, PerfModel.after, hregWrite, hdest, hrd, hsources,
        Bool.and_self]
    rw [hwrite]
    simp [hsys]
    omega

/-! ## The charge of a call -/

/-- A branch or `jalr` stalls for its hazards and once more if it is taken. -/
theorem effect_stalls_branch (m : Bool) (t : Machine w) {word : Word} {r : Fin 32}
    (hbranches : BranchesOn w word r) :
    (effect m t word).stalls =
      branchStalls t.perfModel (decoded w word) + takenPenalty t.cpu word := by
  rcases branches_class hbranches with hclass | hclass
  · simp only [effect, takenPenalty, hclass]
  · simp only [effect, takenPenalty, hclass]

/-- The stall charged for the hazard can be told from the total cost of the call. -/
theorem stalled_iff (hw : w = 32 ∨ w = 64) (m : Bool) (t : Machine w) {word : Word}
    {r : Fin 32} (hbranches : BranchesOn w word r) :
    Stalled m t word ↔ 1 ≤ branchStalls t.perfModel (decoded w word) := by
  have hstalls := branchStalls_le t.perfModel (decoded w word)
  have hpenalty := takenPenalty_le t.cpu word
  have hcharge : (((effect m t word).apply t word).mcycle - t.mcycle).toNat =
      branchStalls t.perfModel (decoded w word) + takenPenalty t.cpu word + 1 := by
    change (t.mcycle + BitVec.ofNat 64 ((effect m t word).stalls + 1) - t.mcycle).toNat =
      _
    rw [effect_stalls_branch m t hbranches, BitVec.add_comm, BitVec.add_sub_cancel,
      BitVec.toNat_ofNat]
    omega
  constructor
  · rintro ⟨t', execContinue, hcode, hcharged⟩
    rw [processInstr_eq hw] at hcode
    obtain ⟨rfl, -⟩ := Prod.mk.inj (Option.some.inj hcode)
    omega
  · intro hpos
    exact ⟨_, _, processInstr_eq hw m t word, by omega⟩

/-! ## Runs -/

/-- The state of the call after a call. -/
theorem nextCall_loopNext (m : Bool) {c : MainState w} {s t : Machine w}
    {producer word : Word} (hfirst : nextCall c = some (s, producer))
    (hsecond : nextCall (loopNext m c) = some (t, word)) :
    t.perfModel = PerfModel.after s.perfModel (decoded w producer) := by
  rcases loopNext_cases m c with
    ⟨u, rfl, -, hnext, hstep⟩ | ⟨u, rfl, -, -, hnext, -⟩ | ⟨-, hnext, -⟩ <;>
    rw [nextCall, hnext] at hfirst
  · obtain ⟨rfl, rfl⟩ := Prod.mk.inj (Option.some.inj hfirst)
    rw [hstep, nextCall] at hsecond
    obtain ⟨v, -, hv⟩ := Option.map_eq_some_iff.mp hsecond
    obtain ⟨rfl, -⟩ := Prod.mk.inj hv
    exact step_perfModel rfl
  · cases hfirst
  · cases hfirst

/-- In every run, a branch executed right behind a producer of its operand is stalled
exactly when the producer is no CSR read or the record at the producer's call is that
of a load of a register the branch reads. -/
theorem branch_hazard_charged (b : Build) (rom : Fin romSize → Byte) (k : ℕ)
    {c d : MainState b.xlen} {s t : Machine b.xlen} {producer word : Word}
    (hc : runLoop b.mExt k (initMain b.xlen rom) = some c)
    (hd : runLoop b.mExt (k + 1) (initMain b.xlen rom) = some d)
    (hfirst : nextCall c = some (s, producer)) (hsecond : nextCall d = some (t, word))
    (hwrites : WritesRd b.xlen producer)
    (hbranches : BranchesOn b.xlen word (rd producer)) :
    Stalled b.mExt t word ↔
      opClass b.xlen (getOpcode producer) ≠ .sys ∨
        dataHazard s.perfModel (decoded b.xlen word) = true := by
  rw [runLoop_main, Option.some.injEq] at hc hd
  subst hc hd
  rw [mainAfter_succ] at hsecond
  rw [stalled_iff b.xlen_eq b.mExt t hbranches, nextCall_loopNext b.mExt hfirst hsecond]
  exact branchStalls_pos_iff s.perfModel hwrites hbranches

/-! ## Two runs -/

theorem nextCall_of_nextWord {c : MainState w} {word : Word}
    (hword : nextWord c = some word) :
    nextCall c = some (afterFetch c.machine, word) := by
  rw [nextCall, hword]
  rfl

/-- `addi t0, x0, 1; beq t0, x0, 8` -/
def addiRom : Fin romSize → Byte :=
  romOfWords [0x00100293, 0x00028463]

theorem branch_hazard_charged_addi :
    Stalled true (afterFetch (mainAfter rv32im addiRom 1).machine) 0x00028463 ↔
      opClass 32 (getOpcode 0x00100293) ≠ .sys ∨
        dataHazard (afterFetch (mainAfter rv32im addiRom 0).machine).perfModel
          (decoded 32 0x00028463) = true := by
  have hfirst : nextWord (mainAfter rv32im addiRom 0) = some 0x00100293 := by
    decide +kernel
  have hsecond : nextWord (mainAfter rv32im addiRom 1) = some 0x00028463 := by
    decide +kernel
  exact branch_hazard_charged rv32im addiRom 0 (runLoop_main _ _ _) (runLoop_main _ _ _)
    (nextCall_of_nextWord hfirst) (nextCall_of_nextWord hsecond) ⟨by decide, trivial⟩
    (.inl rfl)

/-- `csrr t0, mcycle; beq t0, x0, 8` -/
def csrRom : Fin romSize → Byte :=
  romOfWords [0xB00022F3, 0x00028463]

/-- A branch right behind the CSR read that produces its operand is not stalled. -/
theorem csr_read_not_charged : ∃ c d s t producer word,
    runLoop true 0 (initMain 32 csrRom) = some c ∧
      runLoop true 1 (initMain 32 csrRom) = some d ∧
      nextCall c = some (s, producer) ∧ nextCall d = some (t, word) ∧
      WritesRd 32 producer ∧ BranchesOn 32 word (rd producer) ∧ ¬Stalled true t word := by
  have hfirst : nextWord (mainAfter rv32im csrRom 0) = some 0xB00022F3 := by
    decide +kernel
  have hsecond : nextWord (mainAfter rv32im csrRom 1) = some 0x00028463 := by
    decide +kernel
  have hwrites : WritesRd 32 0xB00022F3 :=
    ⟨by decide, show getFunct3 0xB00022F3 ∈ _ by decide⟩
  have hbranches : BranchesOn 32 0x00028463 (rd 0xB00022F3) := .inl rfl
  have hrecord : (afterFetch (mainAfter rv32im csrRom 1).machine).perfModel =
      PerfModel.after (afterFetch (mainAfter rv32im csrRom 0).machine).perfModel
        (decoded 32 0xB00022F3) :=
    nextCall_loopNext true (nextCall_of_nextWord hfirst) (nextCall_of_nextWord hsecond)
  refine ⟨_, _, _, _, _, _, runLoop_main rv32im csrRom 0, runLoop_main rv32im csrRom 1,
    nextCall_of_nextWord hfirst, nextCall_of_nextWord hsecond, hwrites, hbranches, ?_⟩
  rw [stalled_iff (.inl rfl) true _ hbranches, hrecord,
    branchStalls_pos_iff _ hwrites hbranches]
  decide

end Rvem.BranchHazard
