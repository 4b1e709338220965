import Rvem.Isa.ManualExtension
import Rvem.Isa.Decoding
import Rvem.Library.IssueTime
import Rvem.Timing.BranchHazard

/-!
# The cycle counter and the pipeline

The pipeline has full forwarding and resolves branches in ID.  An instruction waits as
long as the slowest of its operands needs; `perf_model` adds its three hazard
conditions up.  The two agree on every instruction but some branches.
-/

namespace Rvem.Pipeline

open Rvem.Arch
open Rvem.State
open Rvem.Core
open Rvem.Main
open Rvem.Assembly
open Rvem.Fields
open Rvem.FlatMap
open Rvem.StepEffect
open Rvem.Run
open Rvem.Code
open Rvem.Values
open Rvem.Decoding
open Rvem.BranchHazard
open Rvem.Library.IssueTime
open Rvem.Reference (LoadOp StoreOp)

/-! ## Charges and waits -/

section Charges

variable {R : Type*} [DecidableEq R]

/-- The stalls of `PERF_MODEL_BRANCH_HAZARD` for a branch, of `PERF_MODEL_HAZARD` for
another consumer. -/
def charge (prev2 prev slot : Slot R) : ℕ :=
  if slot.branch then
    (decide (prev.Feeds slot)).toNat + (decide (prev2.LoadFeeds slot)).toNat
      + (decide (prev.LoadFeeds slot)).toNat
  else (decide (prev.LoadFeeds slot)).toNat

/-- An instruction behind the load `prev` waits: for the load, or as a branch for a load
before it that did not hold up `prev` already. -/
def Waits (prev2 prev slot : Slot R) : Prop :=
  prev.Feeds slot ∨
    slot.branch = true ∧ prev2.LoadFeeds slot ∧ ¬prev2.LoadFeeds prev

instance (prev2 prev slot : Slot R) : Decidable (Waits prev2 prev slot) :=
  inferInstanceAs (Decidable (_ ∨ _ ∧ _ ∧ ¬_))

/-- A branch behind the jump that writes its operand, whose wait the flush covers, or
behind a load of its operand that is two back while the instruction between them makes
it wait anyway. -/
def Overcharged (prev3 prev2 prev slot : Slot R) : Prop :=
  slot.branch = true ∧
    (prev.Feeds slot ∧ prev.taken = true ∨
      prev2.LoadFeeds slot ∧
        (prev.Feeds slot ∨ prev.taken = true ∨ Waits prev3 prev2 prev))

instance (prev3 prev2 prev slot : Slot R) :
    Decidable (Overcharged prev3 prev2 prev slot) :=
  inferInstanceAs (Decidable (_ ∧ (_ ∧ _ ∨ _ ∧ (_ ∨ _ ∨ _))))

variable (slots : ℕ → Slot R)

/-- The charge of the `i`-th instruction. -/
def chargeAt (i : ℕ) : ℕ :=
  charge (previous (previous slots) i) (previous slots i) (slots i)

/-- `Overcharged` for instruction `i` of a sequence and the three before it. -/
def OverchargedAt (i : ℕ) : Prop :=
  Overcharged (previous (previous (previous slots)) i) (previous (previous slots) i)
    (previous slots i) (slots i)

instance (i : ℕ) : Decidable (OverchargedAt slots i) :=
  inferInstanceAs (Decidable (Overcharged _ _ _ _))

variable {slots}

omit [DecidableEq R] in
theorem not_idle_feeds (slot : Slot R) : ¬Slot.idle.Feeds slot := by
  rintro ⟨r, -, hdest⟩
  cases hdest

variable (slots) in
theorem chargeAt_zero : chargeAt slots 0 = 0 := by
  have hfeeds := not_idle_feeds (slots 0)
  have hload : ¬Slot.idle.LoadFeeds (slots 0) := fun h => hfeeds h.2
  rw [chargeAt, charge]
  simp only [previous, hfeeds, hload, decide_false, Bool.toNat_false, ite_self]

/-- An instruction that is no branch waits for the load right before it only. -/
theorem delay_of_not_branch {i : ℕ} (hbranch : (slots i).branch = false) :
    delay slots i = (decide ((previous slots i).LoadFeeds (slots i))).toNat := by
  cases i with
  | zero =>
      have hload : ¬Slot.idle.LoadFeeds (slots 0) := fun h => not_idle_feeds _ h.2
      simp only [delay, previous, hload, decide_false, Bool.toNat_false]
  | succ i =>
      have hexposed : ¬(previous slots i).Exposed (slots i) (slots (i + 1)) := by
        rintro ⟨-, htrue, -⟩
        exact absurd (htrue.symm.trans hbranch) (by decide)
      rw [delay_succ, hbranch, if_neg (fun h => hexposed h.1 : ¬(_ ∧ _)), Nat.max_zero]
      change _ = (decide ((slots i).LoadFeeds (slots (i + 1)))).toNat
      by_cases hfeeds : (slots i).Feeds (slots (i + 1))
      · rw [if_pos hfeeds]
        cases hload : (slots i).load with
        | false => simp [Slot.LoadFeeds, hload]
        | true =>
            have htaken := ((slots i).load_alone hload).2
            simp [Slot.LoadFeeds, hload, hfeeds, htaken]
      · simp [Slot.LoadFeeds, hfeeds]

/-- Behind a load an instruction is delayed exactly if it waits. -/
theorem delay_eq_zero_iff {i : ℕ} (hload : (previous slots i).load = true) :
    delay slots i = 0 ↔
      ¬Waits (previous (previous slots) i) (previous slots i) (slots i) := by
  cases i with
  | zero => cases hload
  | succ i =>
      have hload : (slots i).load = true := hload
      obtain ⟨hbranch, htaken⟩ := (slots i).load_alone hload
      have hdelay : delay slots i = 0 ↔ ¬(previous slots i).LoadFeeds (slots i) := by
        rw [delay_of_not_branch hbranch, Bool.toNat_eq_zero, decide_eq_false_iff_not]
      change delay slots (i + 1) = 0 ↔
        ¬Waits (previous slots i) (slots i) (slots (i + 1))
      rw [← Nat.le_zero, delay_window, Waits, hload, htaken, hdelay]
      by_cases hfeeds : (slots i).Feeds (slots (i + 1))
      · simp [hfeeds]
      · have hpast := feedsPast_iff (previous slots i) hfeeds
        simp only [hfeeds, false_or, Slot.Exposed, hpast, htaken, false_implies, true_and,
          Nat.le_zero, Nat.one_ne_zero, Slot.LoadFeeds]
        tauto

/-- A branch right behind a producer of its operand. -/
theorem delay_of_feeds {i : ℕ} (hbranch : (slots (i + 1)).branch = true)
    (hfeeds : (slots i).Feeds (slots (i + 1))) :
    delay slots (i + 1) =
      if (slots i).taken then 0 else 1 + (slots i).load.toNat := by
  have hexposed : (if (previous slots i).Exposed (slots i) (slots (i + 1)) ∧
      delay slots i = 0 then 1 else 0) ≤ 1 - (slots i).taken.toNat := by
    rw [ite_zero_le_iff]
    rintro ⟨⟨-, -, htaken, -⟩, -⟩
    rw [htaken]
    exact le_refl 1
  rw [delay_succ, if_pos hfeeds, hbranch]
  cases htaken : (slots i).taken with
  | false =>
      rw [htaken] at hexposed
      simp only [Bool.toNat_true, Bool.toNat_false, Bool.false_eq_true,
        if_false] at hexposed ⊢
      omega
  | true =>
      have hload : (slots i).load = false := by
        by_contra hload
        rw [Bool.not_eq_false] at hload
        exact absurd (htaken.symm.trans ((slots i).load_alone hload).2) (by decide)
      rw [htaken] at hexposed
      rw [hload]
      simp only [Bool.toNat_true, Bool.toNat_false, if_true] at hexposed ⊢
      omega

/-- A branch whose operands the instruction before leaves alone. -/
theorem delay_of_not_feeds {i : ℕ} (hbranch : (slots (i + 1)).branch = true)
    (hfeeds : ¬(slots i).Feeds (slots (i + 1))) :
    delay slots (i + 1) =
      if (previous slots i).LoadFeeds (slots (i + 1)) ∧ (slots i).taken = false ∧
        ¬Waits (previous (previous slots) i) (previous slots i) (slots i) then 1
      else 0 := by
  rw [delay_succ, if_neg hfeeds, Nat.zero_max]
  refine if_congr ?_ rfl rfl
  rw [Slot.Exposed, feedsPast_iff _ hfeeds, Slot.LoadFeeds]
  constructor
  · rintro ⟨⟨hload, -, htaken, hpast⟩, hdelay⟩
    exact ⟨⟨hload, hpast⟩, htaken, (delay_eq_zero_iff hload).mp hdelay⟩
  · rintro ⟨⟨hload, hpast⟩, htaken, hwaits⟩
    exact ⟨⟨hload, hbranch, htaken, hpast⟩, (delay_eq_zero_iff hload).mpr hwaits⟩

/-- The charge of a branch, by the load two back and the producer right before. -/
theorem charge_of_branch {i : ℕ} (hbranch : (slots (i + 1)).branch = true) :
    chargeAt slots (i + 1) =
      (decide ((previous slots i).LoadFeeds (slots (i + 1)))).toNat +
      if (slots i).Feeds (slots (i + 1)) then 1 + (slots i).load.toNat else 0 := by
  change charge (previous slots i) (slots i) (slots (i + 1)) = _
  rw [charge, hbranch, if_pos rfl]
  by_cases hfeeds : (slots i).Feeds (slots (i + 1))
  · have hload : decide ((slots i).LoadFeeds (slots (i + 1))) = (slots i).load := by
      simp only [Slot.LoadFeeds, hfeeds, and_true, Bool.decide_eq_true]
    rw [hload, if_pos hfeeds, decide_eq_true hfeeds, Bool.toNat_true]
    omega
  · have hload : ¬(slots i).LoadFeeds (slots (i + 1)) := fun h => hfeeds h.2
    rw [decide_eq_false hload, decide_eq_false hfeeds, if_neg hfeeds]
    simp

variable (slots) in
omit [DecidableEq R] in
theorem not_overchargedAt_zero : ¬OverchargedAt slots 0 := by
  rintro ⟨-, ⟨hfeeds, -⟩ | ⟨⟨-, hfeeds⟩, -⟩⟩
  · exact not_idle_feeds _ hfeeds
  · exact not_idle_feeds _ hfeeds

omit [DecidableEq R] in
theorem overchargedAt_succ_iff {i : ℕ} (hbranch : (slots (i + 1)).branch = true) :
    OverchargedAt slots (i + 1) ↔
      (slots i).Feeds (slots (i + 1)) ∧ (slots i).taken = true ∨
        (previous slots i).LoadFeeds (slots (i + 1)) ∧
          ((slots i).Feeds (slots (i + 1)) ∨ (slots i).taken = true ∨
            Waits (previous (previous slots) i) (previous slots i) (slots i)) :=
  and_iff_right hbranch

variable (slots) in
/-- The charge is never below the delay, and it is the delay exactly if the instruction
is not overcharged. -/
theorem charge_spec (i : ℕ) :
    (delay slots i ≤ chargeAt slots i ∧ chargeAt slots i ≤ delay slots i + 3) ∧
      (chargeAt slots i = delay slots i ↔ ¬OverchargedAt slots i) := by
  cases hbranch : (slots i).branch with
  | false =>
      have hcharge : chargeAt slots i = delay slots i := by
        rw [delay_of_not_branch hbranch, chargeAt, charge, hbranch]
        rfl
      refine ⟨by omega, iff_of_true hcharge ?_⟩
      rintro ⟨htrue, -⟩
      exact absurd (htrue.symm.trans hbranch) (by decide)
  | true =>
      cases i with
      | zero =>
          have hcharge := chargeAt_zero slots
          rw [hcharge, delay]
          exact ⟨⟨le_refl 0, Nat.zero_le 3⟩,
            iff_of_true rfl (not_overchargedAt_zero slots)⟩
      | succ i =>
          have hcharge := charge_of_branch hbranch
          have hload := Bool.toNat_le (slots i).load
          rw [overchargedAt_succ_iff hbranch]
          by_cases hfeeds : (slots i).Feeds (slots (i + 1))
          · have hdelay := delay_of_feeds hbranch hfeeds
            rw [if_pos hfeeds] at hcharge
            rw [hcharge, hdelay]
            by_cases hpast : (previous slots i).LoadFeeds (slots (i + 1)) <;>
              cases htaken : (slots i).taken <;>
              simp [hfeeds, hpast] <;> omega
          · have hdelay := delay_of_not_feeds hbranch hfeeds
            rw [if_neg hfeeds, Nat.add_zero] at hcharge
            rw [hcharge, hdelay]
            by_cases hpast : (previous slots i).LoadFeeds (slots (i + 1)) <;>
              by_cases hwaits :
                Waits (previous (previous slots) i) (previous slots i) (slots i) <;>
              cases htaken : (slots i).taken <;>
              simp [hfeeds, hpast, hwaits]

end Charges

/-! ## The instructions of the emulator -/

/-- The registers among `used` that hold a value. -/
def nonzero (used : Finset (Fin 32)) : Finset (Fin 32) :=
  used.erase 0

def destOf (rd : Fin 32) : Option (Fin 32) :=
  if rd = 0 then none else some rd

/-- Reads `used`, writes `rd` and goes on as `branch` and `taken` say. -/
def control (used : Finset (Fin 32)) (rd : Fin 32) (branch taken : Bool) :
    Slot (Fin 32) where
  sources := nonzero used
  dest := destOf rd
  load := false
  branch := branch
  taken := taken
  load_alone := nofun

def operation (used : Finset (Fin 32)) (rd : Fin 32) : Slot (Fin 32) :=
  control used rd false false

def loading (used : Finset (Fin 32)) (rd : Fin 32) : Slot (Fin 32) where
  sources := nonzero used
  dest := destOf rd
  load := true
  branch := false
  taken := false
  load_alone := fun _ => ⟨rfl, rfl⟩

/-- What the schedule depends on of an instruction that executes with the registers
`regfile`. -/
def slotOf (regfile : Fin 32 → BitVec 32) : Reference.Instr → Slot (Fin 32)
  | .reg _ rd rs1 rs2 => operation {rs1, rs2} rd
  | .imm _ rd rs1 _ => operation {rs1} rd
  | .load _ rd rs1 _ => loading {rs1} rd
  | .store _ rs1 rs2 _ => operation {rs1, rs2} 0
  | .branch op rs1 rs2 _ =>
      control {rs1, rs2} 0 true (op.eval (regfile rs1).toNat (regfile rs2).toNat)
  | .lui rd _ | .auipc rd _ => operation ∅ rd
  | .jal rd _ => control ∅ rd false true
  | .jalr rd rs1 _ => control {rs1} rd true true
  | .fence => Slot.idle

/-- The address and width of the data access. -/
def dataAccess (regfile : Fin 32 → BitVec 32) : Reference.Instr → Option (ℕ × ℕ)
  | .load op _ rs1 imm => some ((regfile rs1 + BitVec.ofInt 32 imm).toNat, op.size)
  | .store op rs1 _ imm => some ((regfile rs1 + BitVec.ofInt 32 imm).toNat, op.size)
  | _ => none

/-- The data access of the instruction, if it has one, is aligned. -/
def AlignedData (regfile : Fin 32 → BitVec 32) (instr : Reference.Instr) : Prop :=
  ∀ access ∈ dataAccess regfile instr, access.1 % access.2 = 0

instance (regfile : Fin 32 → BitVec 32) (instr : Reference.Instr) :
    Decidable (AlignedData regfile instr) :=
  inferInstanceAs
    (Decidable (∀ access ∈ dataAccess regfile instr, access.1 % access.2 = 0))

/-- `perf_model` after the instructions `prev2` and `prev`. -/
def record (prev2 prev : Instr) : PerfModel where
  prevRd := prev.rd
  prev2Rd := prev2.rd
  prevMemLoad := prev.isMemLoad
  prev2MemLoad := prev2.isMemLoad
  prevRegWrite := prev.isRegWrite

/-- The fields the performance model looks at are those of the slot. -/
structure Shows (instr : Instr) (slot : Slot (Fin 32)) : Prop where
  sources : ∀ r : Fin 32,
    r ∈ slot.sources ↔ r ≠ 0 ∧ (instr.rs1.toNat = r ∨ instr.rs2.toNat = r)
  rd_lt : instr.rd.toNat < 32
  dest : ∀ r : Fin 32, slot.dest = some r ↔ r ≠ 0 ∧ instr.rd.toNat = r
  write : slot.dest ≠ none → instr.isRegWrite = true
  load : slot.load = instr.isMemLoad

theorem shows_idle : Shows noInstr Slot.idle where
  sources := by
    intro r
    refine iff_of_false (Finset.notMem_empty r) ?_
    rintro ⟨hne, hzero | hzero⟩ <;> exact hne (Fin.ext hzero.symm)
  rd_lt := by decide
  dest := by
    intro r
    refine iff_of_false nofun ?_
    rintro ⟨hne, hzero⟩
    exact hne (Fin.ext hzero.symm)
  write := fun h => absurd rfl h
  load := rfl

section Hazards

variable {producer consumer : Instr} {p c : Slot (Fin 32)}

/-- The comparison of the hazard conditions. -/
theorem feeds_eq (hproducer : Shows producer p) (hconsumer : Shows consumer c) :
    (producer.rd != 0 && (consumer.rs1 == producer.rd || consumer.rs2 == producer.rd)) =
      decide (p.Feeds c) := by
  rw [Bool.eq_iff_iff, decide_eq_true_iff]
  simp only [Bool.and_eq_true, Bool.or_eq_true, bne_iff_ne, beq_iff_eq, BitVec.toNat_eq,
    ne_eq]
  constructor
  · rintro ⟨hne, hsources⟩
    have hnonzero : (⟨producer.rd.toNat, hproducer.rd_lt⟩ : Fin 32) ≠ 0 :=
      fun hzero => hne (Fin.mk.inj hzero)
    exact ⟨_, (hconsumer.sources _).mpr ⟨hnonzero, hsources⟩,
      (hproducer.dest _).mpr ⟨hnonzero, rfl⟩⟩
  · rintro ⟨r, hr, hdest⟩
    obtain ⟨hne, hrd⟩ := (hproducer.dest r).mp hdest
    have hsources := ((hconsumer.sources r).mp hr).2
    rw [hrd]
    exact ⟨fun hzero => hne (Fin.ext hzero), hsources⟩

theorem loadFeeds_eq (hproducer : Shows producer p) (hconsumer : Shows consumer c) :
    (producer.isMemLoad && (producer.rd != 0 &&
      (consumer.rs1 == producer.rd || consumer.rs2 == producer.rd))) =
      decide (p.LoadFeeds c) := by
  rw [feeds_eq hproducer hconsumer, ← hproducer.load, Slot.decide_loadFeeds]

variable {prev2 : Instr} {p2 : Slot (Fin 32)}

/-- The data hazard is that of an operand loaded by the instruction before. -/
theorem dataHazard_record (hproducer : Shows producer p) (hconsumer : Shows consumer c) :
    dataHazard (record prev2 producer) consumer = decide (p.LoadFeeds c) := by
  rw [← loadFeeds_eq hproducer hconsumer, ← Bool.and_assoc]
  rfl

theorem memoryBranchHazard_record (hproducer : Shows prev2 p2)
    (hconsumer : Shows consumer c) :
    memoryBranchHazard (record prev2 producer) consumer = decide (p2.LoadFeeds c) := by
  rw [← loadFeeds_eq hproducer hconsumer, Bool.and_left_comm, ← Bool.and_assoc]
  rfl

theorem writeHazard_record (hproducer : Shows producer p) (hconsumer : Shows consumer c) :
    writeHazard (record prev2 producer) consumer = decide (p.Feeds c) := by
  have hcompare := feeds_eq hproducer hconsumer
  cases hfeeds : decide (p.Feeds c) with
  | false =>
      rw [hfeeds] at hcompare
      rw [← Bool.false_and producer.isRegWrite, ← hcompare, Bool.and_right_comm]
      rfl
  | true =>
      have hwrite : producer.isRegWrite = true := by
        obtain ⟨r, -, hdest⟩ := of_decide_eq_true hfeeds
        exact hproducer.write (by rw [hdest]; nofun)
      rw [hfeeds] at hcompare
      rw [← hcompare, writeHazard, record]
      simp only [hwrite, Bool.and_true]

/-- The stalls of the two hazard macros are the charge. -/
theorem dataStalls_record (p2 : Slot (Fin 32)) (hproducer : Shows producer p)
    (hconsumer : Shows consumer c) (hbranch : c.branch = false) :
    dataStalls (record prev2 producer) consumer = charge p2 p c := by
  rw [dataStalls, dataHazard_record hproducer hconsumer, charge, hbranch]
  rfl

/-- The hazards of a branch behind two recorded instructions are those of the pipeline's
charge. -/
theorem branchStalls_record (hproducer2 : Shows prev2 p2) (hproducer : Shows producer p)
    (hconsumer : Shows consumer c) (hbranch : c.branch = true) :
    branchStalls (record prev2 producer) consumer = charge p2 p c := by
  rw [branchStalls, writeHazard_record hproducer hconsumer,
    memoryBranchHazard_record hproducer2 hconsumer, dataHazard_record hproducer hconsumer,
    charge, hbranch]
  rfl

end Hazards

/-! ## One call -/

theorem mem_nonzero {used : Finset (Fin 32)} {r : Fin 32} :
    r ∈ nonzero used ↔ r ≠ 0 ∧ r ∈ used :=
  Finset.mem_erase

theorem destOf_eq_some_iff {rd r : Fin 32} : destOf rd = some r ↔ r ≠ 0 ∧ rd = r := by
  rw [destOf]
  split
  · next hzero =>
      refine iff_of_false nofun ?_
      rintro ⟨hne, rfl⟩
      exact hne hzero
  · next hne =>
      rw [Option.some.injEq]
      constructor
      · rintro rfl
        exact ⟨hne, rfl⟩
      · exact And.right

/-- The slot and the decoded instruction name the same registers. -/
theorem Shows.of_fields {instr : Instr} {slot : Slot (Fin 32)} {used : Finset (Fin 32)}
    {x y d : Fin 32} (hrs1 : instr.rs1.toNat = x) (hrs2 : instr.rs2.toNat = y)
    (hrd : instr.rd.toNat = d) (hused : ∀ r ≠ 0, r ∈ used ↔ x = r ∨ y = r)
    (hsources : slot.sources = nonzero used) (hdest : slot.dest = destOf d)
    (hwrite : d = 0 ∨ instr.isRegWrite = true) (hload : slot.load = instr.isMemLoad) :
    Shows instr slot where
  sources := by
    intro r
    rw [hsources, mem_nonzero, hrs1, hrs2, Fin.val_inj, Fin.val_inj]
    exact and_congr_right (hused r)
  rd_lt := hrd.trans_lt d.isLt
  dest := by
    intro r
    rw [hdest, destOf_eq_some_iff, hrd, Fin.val_inj]
  write := by
    intro hsome
    refine hwrite.resolve_left fun hd => hsome ?_
    rw [hdest, destOf, if_pos hd]
  load := hload

theorem mem_pair {x y r : Fin 32} : r ∈ ({x, y} : Finset (Fin 32)) ↔ x = r ∨ y = r := by
  rw [Finset.mem_insert, Finset.mem_singleton, eq_comm, eq_comm (a := r)]

theorem mem_single {x r : Fin 32} (hr : r ≠ 0) :
    r ∈ ({x} : Finset (Fin 32)) ↔ x = r ∨ 0 = r := by
  rw [Finset.mem_singleton, eq_comm, or_iff_left (Ne.symm hr)]

theorem mem_none {r : Fin 32} (hr : r ≠ 0) : r ∈ (∅ : Finset (Fin 32)) ↔ 0 = r ∨ 0 = r :=
  iff_of_false (Finset.notMem_empty r) fun h => h.elim hr.symm hr.symm

section Decoded

variable {raw : Word} {instr : Reference.Instr} (regfile : Fin 32 → BitVec 32)

/-- What `process_instr` records of a decoded word are its registers and its kind. -/
theorem shows_of_decodes (hdecodes : Decodes raw instr) :
    Shows (decoded 32 raw) (slotOf regfile instr) := by
  have hrs1 := toNat_getRs1 raw
  have hrs2 := toNat_getRs2 raw
  have hrd := toNat_getRd raw
  have hnone : (0 : Byte).toNat = ((0 : Fin 32) : ℕ) := rfl
  cases hdecodes with
  | reg hclass =>
      rw [decoded, hclass]
      exact .of_fields hrs1 hrs2 hrd (fun r _ => mem_pair) rfl rfl (.inr rfl) rfl
  | imm hclass =>
      rw [decoded, hclass]
      exact .of_fields hrs1 hnone hrd (fun r hr => mem_single hr) rfl rfl (.inr rfl) rfl
  | load hclass =>
      rw [decoded, hclass]
      exact .of_fields hrs1 hnone hrd (fun r hr => mem_single hr) rfl rfl (.inr rfl) rfl
  | store hclass =>
      rw [decoded, hclass]
      exact .of_fields hrs1 hrs2 hnone (fun r _ => mem_pair) rfl rfl (.inl rfl) rfl
  | branch hclass =>
      rw [decoded, hclass]
      exact .of_fields hrs1 hrs2 hnone (fun r _ => mem_pair) rfl rfl (.inl rfl) rfl
  | lui hclass =>
      rw [decoded, hclass]
      exact .of_fields hnone hnone hrd (fun r hr => mem_none hr) rfl rfl (.inr rfl) rfl
  | auipc hclass =>
      rw [decoded, hclass]
      exact .of_fields hnone hnone hrd (fun r hr => mem_none hr) rfl rfl (.inr rfl) rfl
  | jal hclass =>
      rw [decoded, hclass]
      exact .of_fields hnone hnone hrd (fun r hr => mem_none hr) rfl rfl (.inr rfl) rfl
  | jalr hclass =>
      rw [decoded, hclass]
      exact .of_fields hrs1 hnone hrd (fun r hr => mem_single hr) rfl rfl (.inr rfl) rfl
  | fence hclass =>
      rw [decoded, hclass]
      exact shows_idle

end Decoded

theorem charge_of_no_sources (p2 p : Slot (Fin 32)) {c : Slot (Fin 32)}
    (hbranch : c.branch = false) (hsources : c.sources = ∅) : charge p2 p c = 0 := by
  have hfeeds : ¬p.LoadFeeds c := by
    rintro ⟨-, r, hr, -⟩
    rw [hsources] at hr
    exact Finset.notMem_empty r hr
  rw [charge, hbranch, decide_eq_false hfeeds]
  rfl

theorem loadSize_reference (op : LoadOp) :
    loadSize 32 (BitVec.ofNat 8 op.funct3) = some op.size := by
  cases op <;> rfl

theorem storeSize_reference (op : StoreOp) :
    storeSize 32 (BitVec.ofNat 8 op.funct3) = some op.size := by
  cases op <;> rfl

/-- The stalls of a call whose data access is aligned. -/
theorem effect_stalls {s : Machine 32} {raw : Word} {instr : Reference.Instr}
    {prev2 prev : Instr} {p2 p : Slot (Fin 32)} (hdecodes : Decodes raw instr)
    (haligned : AlignedData s.cpu.regfile instr)
    (hmodel : s.perfModel = record prev2 prev)
    (hprev2 : Shows prev2 p2) (hprev : Shows prev p) :
    (effect true s raw).stalls =
      charge p2 p (slotOf s.cpu.regfile instr) +
        (slotOf s.cpu.regfile instr).taken.toNat := by
  have hshows := shows_of_decodes s.cpu.regfile hdecodes
  cases hdecodes with
  | reg hclass =>
      simp only [effect, hclass, hmodel]
      exact dataStalls_record p2 hprev hshows rfl
  | imm hclass =>
      simp only [effect, hclass, hmodel]
      exact dataStalls_record p2 hprev hshows rfl
  | @load op hclass hfunct3 =>
      have haccess : (loadAddr s.cpu raw).toNat % op.size = 0 := by
        rw [loadAddr, getSimm12_eq]
        exact haligned _ rfl
      simp only [effect, hclass, hmodel]
      rw [getFunct3_of_eq hfunct3, readStalls_of_aligned (loadSize_reference op) haccess]
      exact dataStalls_record p2 hprev hshows rfl
  | @store op hclass hfunct3 =>
      have haccess : (storeAddr s.cpu raw).toNat % op.size = 0 := by
        rw [storeAddr, getStoreImm_eq]
        exact haligned _ rfl
      simp only [effect, hclass, hmodel]
      rw [getFunct3_of_eq hfunct3,
        writeStalls_of_aligned (storeSize_reference op) haccess]
      exact dataStalls_record p2 hprev hshows rfl
  | branch hclass hfunct3 =>
      simp only [effect, hclass, hmodel]
      rw [branchStalls_record hprev2 hprev hshows rfl, taken, getFunct3_of_eq hfunct3,
        branchTaken_eq (.inl rfl), ManualExtension.branches_eq]
      rfl
  | lui hclass =>
      have hcharge := charge_of_no_sources p2 p (c := operation ∅ (rd raw)) rfl rfl
      simp only [effect, hclass]
      exact hcharge.symm
  | auipc hclass =>
      have hcharge := charge_of_no_sources p2 p (c := operation ∅ (rd raw)) rfl rfl
      simp only [effect, hclass]
      exact hcharge.symm
  | jal hclass =>
      have hcharge :=
        charge_of_no_sources p2 p (c := control ∅ (rd raw) false true) rfl rfl
      simp only [effect, hclass]
      exact congrArg (· + 1) hcharge.symm
  | jalr hclass =>
      simp only [effect, hclass, hmodel]
      rw [branchStalls_record hprev2 hprev hshows rfl]
      rfl
  | fence hclass =>
      have hcharge := charge_of_no_sources p2 p (c := Slot.idle) rfl rfl
      simp only [effect, hclass]
      exact hcharge.symm

/-! ## Sequences of calls -/

/-- Between two calls stands at most an aligned fetch. -/
def Handover (s t : Machine 32) : Prop :=
  t = s ∨ s.cpu.pc.toNat % 4 = 0 ∧ ∃ word, fetch s = some (t, word)

/-- The instruction is valid, is not SYSTEM, and its data access is aligned. -/
def ValidAligned (s : Machine 32) (word : Word) : Prop :=
  ∃ instr, Reference.decode word.toNat = some instr ∧ AlignedData s.cpu.regfile instr

instance (s : Machine 32) (word : Word) : Decidable (ValidAligned s word) :=
  inferInstanceAs (Decidable (∃ instr ∈ Reference.decode word.toNat,
    AlignedData s.cpu.regfile instr))

/-- The calls with `words 0` to `words n` from the initial counter and hazard record. -/
structure Execution (words : ℕ → Word) (before after : ℕ → Machine 32)
    (n : ℕ) : Prop where
  mcycle : (before 0).mcycle = 4
  perfModel : (before 0).perfModel = PerfModel.init
  call : ∀ i ≤ n, ∃ execContinue,
    processInstr true (before i) (words i) = some (after i, execContinue)
  handover : ∀ i < n, Handover (after i) (before (i + 1))
  valid : ∀ i ≤ n, ValidAligned (before i) (words i)

/-- The instructions executed as the schedule sees them. -/
def slotsOf (words : ℕ → Word) (before : ℕ → Machine 32) (i : ℕ) : Slot (Fin 32) :=
  ((Reference.decode (words i).toNat).map (slotOf (before i).cpu.regfile)).getD Slot.idle

theorem Handover.counters {s t : Machine 32} (hhandover : Handover s t) :
    t.mcycle = s.mcycle ∧ t.perfModel = s.perfModel := by
  rcases hhandover with rfl | ⟨haligned, word, hfetch⟩
  · exact ⟨rfl, rfl⟩
  · rw [fetch_eq (.inl rfl)] at hfetch
    obtain ⟨rfl, -⟩ := Prod.mk.inj (Option.some.inj hfetch)
    rw [afterFetch, readStalls_of_aligned loadSize_memW haligned]
    exact ⟨BitVec.add_zero _, rfl⟩

/-- `model` records the two instructions before the `i`-th. -/
def Recorded (slots : ℕ → Slot (Fin 32)) (i : ℕ) (model : PerfModel) : Prop :=
  ∃ prev2 prev, model = record prev2 prev ∧ Shows prev2 (previous (previous slots) i) ∧
    Shows prev (previous slots i)

theorem recorded_init (slots : ℕ → Slot (Fin 32)) : Recorded slots 0 PerfModel.init :=
  ⟨noInstr, noInstr, rfl, shows_idle, shows_idle⟩

/-- Recording an instruction moves the two before it on by one. -/
theorem Recorded.after {slots : ℕ → Slot (Fin 32)} {i : ℕ} {model : PerfModel}
    {instr : Instr}
    (hrecorded : Recorded slots i model) (hshows : Shows instr (slots i)) :
    Recorded slots (i + 1) (PerfModel.after model instr) := by
  obtain ⟨prev2, prev, rfl, -, hprev⟩ := hrecorded
  exact ⟨prev, instr, rfl, hprev, hshows⟩

section Calls

variable {words : ℕ → Word} {before after : ℕ → Machine 32} {n : ℕ}

/-- One call keeps the record and is charged by it. -/
theorem Execution.call_spec (hexecution : Execution words before after n) {i : ℕ}
    (hi : i ≤ n) (hrecorded : Recorded (slotsOf words before) i (before i).perfModel) :
    Recorded (slotsOf words before) (i + 1) (after i).perfModel ∧
      (after i).mcycle = (before i).mcycle +
        BitVec.ofNat 64 (chargeAt (slotsOf words before) i +
          (slotsOf words before i).taken.toNat + 1) := by
  obtain ⟨instr, hdecode, haligned⟩ := hexecution.valid i hi
  have hdecodes := decodes_of_decode hdecode
  have hslot : slotsOf words before i = slotOf (before i).cpu.regfile instr := by
    rw [slotsOf, hdecode]
    rfl
  have hshows := shows_of_decodes (before i).cpu.regfile hdecodes
  rw [← hslot] at hshows
  obtain ⟨execContinue, hcall⟩ := hexecution.call i hi
  rw [processInstr_eq (.inl rfl)] at hcall
  obtain ⟨hafter, -⟩ := Prod.mk.inj (Option.some.inj hcall)
  obtain ⟨prev2, prev, hmodel, hprev2, hprev⟩ := id hrecorded
  have hstalls := effect_stalls hdecodes haligned hmodel hprev2 hprev
  rw [← hslot] at hstalls
  rw [← hafter]
  refine ⟨?_, ?_⟩
  · exact hrecorded.after (effect_instr true (before i) (words i) ▸ hshows)
  · rw [chargeAt, ← hstalls]
    rfl

/-- Along the calls the record is that of the last two instructions, and the counter adds
the charges up. -/
theorem Execution.counters (hexecution : Execution words before after n) {i : ℕ}
    (hi : i ≤ n) :
    Recorded (slotsOf words before) (i + 1) (after i).perfModel ∧
      (after i).mcycle = BitVec.ofNat 64
        (4 + chargedIssue (slotsOf words before) (chargeAt (slotsOf words before)) i + 1 +
          (slotsOf words before i).taken.toNat) := by
  induction i with
  | zero =>
      have hstart := recorded_init (slotsOf words before)
      rw [← hexecution.perfModel] at hstart
      obtain ⟨hrecorded, hmcycle⟩ := hexecution.call_spec hi hstart
      refine ⟨hrecorded, ?_⟩
      rw [hmcycle, hexecution.mcycle, chargeAt_zero, chargedIssue]
      change BitVec.ofNat 64 4 + _ = _
      rw [← BitVec.ofNat_add]
      congr 1
      omega
  | succ i ih =>
      obtain ⟨hrecorded, hbefore⟩ := ih (by omega)
      obtain ⟨hsame, hmodel⟩ := (hexecution.handover i hi).counters
      rw [← hmodel] at hrecorded
      obtain ⟨hnext, hmcycle⟩ := hexecution.call_spec hi hrecorded
      refine ⟨hnext, ?_⟩
      rw [hmcycle, hsame, hbefore, ← BitVec.ofNat_add, chargedIssue]
      congr 1
      omega

theorem ofNat_eq_iff_modEq (a b : ℕ) :
    BitVec.ofNat 64 a = BitVec.ofNat 64 b ↔ a ≡ b [MOD 2 ^ 64] := by
  rw [BitVec.toNat_eq, BitVec.toNat_ofNat, BitVec.toNat_ofNat, Nat.ModEq]

/-- For every sequence of valid instructions other than SYSTEM with aligned accesses: the
counter is the cycle count of the pipeline after each of them if and only if none is an
overcharged branch. -/
theorem cycle_accurate_iff (words : ℕ → Word) (before after : ℕ → Machine 32) (n : ℕ)
    (hexecution : Execution words before after n) :
    (∀ i ≤ n, (after i).mcycle = BitVec.ofNat 64
      (4 + issue (slotsOf words before) i + 1 + (slotsOf words before i).taken.toNat)) ↔
      ∀ i ≤ n, ¬OverchargedAt (slotsOf words before) i := by
  have hclock : ∀ i ≤ n, ((after i).mcycle = BitVec.ofNat 64
      (4 + issue (slotsOf words before) i + 1 + (slotsOf words before i).taken.toNat) ↔
      chargedIssue (slotsOf words before) (chargeAt (slotsOf words before)) i ≡
        issue (slotsOf words before) i [MOD 2 ^ 64]) := by
    intro i hi
    rw [(hexecution.counters hi).2, ofNat_eq_iff_modEq, add_assoc, add_assoc,
      add_assoc (4 + issue _ i), add_assoc 4 (issue _ i)]
    constructor
    · intro hsum
      exact (hsum.add_left_cancel' 4).add_right_cancel' _
    · intro hissue
      exact (hissue.add_right _).add_left 4
  have hcost : ∀ i, delay (slotsOf words before) i ≤ chargeAt (slotsOf words before) i ∧
      chargeAt (slotsOf words before) i < delay (slotsOf words before) i + 2 ^ 64 := by
    intro i
    obtain ⟨hlow, hhigh⟩ := (charge_spec (slotsOf words before) i).1
    exact ⟨hlow, hhigh.trans_lt (by omega)⟩
  rw [forall₂_congr hclock, chargedIssue_modEq_iff hcost]
  constructor
  · intro hcharge i hi
    rw [← (charge_spec _ i).2]
    cases i with
    | zero => exact chargeAt_zero _
    | succ i => exact hcharge i hi
  · intro hover i hi
    exact (charge_spec _ (i + 1)).2.mpr (hover (i + 1) hi)

end Calls

/-! ## Runs of main -/

section MainRuns

variable (rom : Fin romSize → Byte)

/-- The word, and the states before and after the `i`-th call of a run of `main`. -/
def mainWords (i : ℕ) : Word :=
  fetchedWord (mainAfter rv32im rom i).machine.cpu

def mainBefore (i : ℕ) : Machine 32 :=
  afterFetch (mainAfter rv32im rom i).machine

def mainAfterCall (i : ℕ) : Machine 32 :=
  (mainAfter rv32im rom (i + 1)).machine

/-- The run of `main` on a ROM is such a sequence as long as its instructions are valid
and its accesses aligned. -/
theorem execution_of_main {n : ℕ}
    (hcalls : ∀ i ≤ n, (nextCall (mainAfter rv32im rom i)).isSome)
    (hfetch : ∀ i ≤ n, (mainBefore rom i).cpu.pc.toNat % 4 = 0)
    (hvalid : ∀ i ≤ n, ValidAligned (mainBefore rom i) (mainWords rom i)) :
    Execution (mainWords rom) (mainBefore rom) (mainAfterCall rom) n where
  mcycle := by
    change (4 : BitVec 64) + BitVec.ofNat 64 (readStalls (0 : BitVec 32) memW) = 4
    rw [readStalls_of_aligned loadSize_memW rfl]
    rfl
  perfModel := rfl
  call := by
    intro i hi
    have hcall := hcalls i hi
    rcases loopNext_cases true (mainAfter rv32im rom i) with
      ⟨s, hstate, -, -, hstep⟩ | ⟨s, -, -, -, hnext, -⟩ | ⟨-, hnext, -⟩
    · refine ⟨stepContinues true s, ?_⟩
      have hafter : mainAfterCall rom i = step true s := by
        rw [mainAfterCall, mainAfter_succ]
        exact congrArg MainState.machine hstep
      rw [hafter, mainBefore, mainWords, hstate]
      exact processInstr_eq (.inl rfl) true _ _
    · rw [nextCall, hnext] at hcall
      cases hcall
    · rw [nextCall, hnext] at hcall
      cases hcall
  handover := by
    intro i hi
    exact .inr ⟨hfetch (i + 1) hi, _, fetch_eq (.inl rfl) _⟩
  valid := hvalid

end MainRuns

/-! ## Two runs -/

theorem cycle_accurate_addi : (mainAfterCall addiRom 1).mcycle = BitVec.ofNat 64
    (4 + issue (slotsOf (mainWords addiRom) (mainBefore addiRom)) 1 + 1 +
      (slotsOf (mainWords addiRom) (mainBefore addiRom) 1).taken.toNat) := by
  have hexecution : Execution (mainWords addiRom) (mainBefore addiRom)
      (mainAfterCall addiRom) 1 := by
    apply execution_of_main
    · decide +kernel
    · decide +kernel
    · decide +kernel
  have hexact :
      ∀ i ≤ 1, ¬OverchargedAt (slotsOf (mainWords addiRom) (mainBefore addiRom)) i := by
    decide +kernel
  exact (cycle_accurate_iff _ _ _ 1 hexecution).mpr hexact 1 (le_refl 1)

/-- `jal ra, 8; nop; ret` -/
def returnRom : Fin romSize → Byte :=
  romOfWords [0x008000EF, 0x00000013, 0x00008067]

/-- The return right behind its call waits one cycle for nothing. -/
theorem return_overcharged : ∃ words before after n, Execution words before after n ∧
    ¬∀ i ≤ n, (after i).mcycle = BitVec.ofNat 64
      (4 + issue (slotsOf words before)
        i + 1 + (slotsOf words before i).taken.toNat) := by
  refine ⟨mainWords returnRom, mainBefore returnRom, mainAfterCall returnRom, 1, ?_, ?_⟩
  · apply execution_of_main
    · decide +kernel
    · decide +kernel
    · decide +kernel
  · decide +kernel

end Rvem.Pipeline
