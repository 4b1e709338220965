import Mathlib

/-!
# Issue times of an in-order pipeline

An instruction issues one cycle after the one before it, one more if that one
redirects the fetch, and not before the registers it reads can be forwarded: a load
has its value one cycle later than another producer, and a branch needs it one
cycle earlier than another consumer.  Only the two instructions before can make an
instruction wait.
-/

namespace Rvem.Library.IssueTime

variable {R : Type*} [DecidableEq R]

/-- What the schedule depends on.  A load neither branches nor redirects the fetch. -/
structure Slot (R : Type*) where
  sources : Finset R
  dest : Option R
  load : Bool
  branch : Bool
  taken : Bool
  load_alone : load = true → branch = false ∧ taken = false

/-- Reads and writes nothing. -/
def Slot.idle : Slot R where
  sources := ∅
  dest := none
  load := false
  branch := false
  taken := false
  load_alone := nofun

/-- The consumer reads the destination of the producer. -/
def Slot.Feeds (producer consumer : Slot R) : Prop :=
  ∃ r ∈ consumer.sources, producer.dest = some r

instance (producer consumer : Slot R) : Decidable (producer.Feeds consumer) :=
  inferInstanceAs (Decidable (∃ r ∈ consumer.sources, producer.dest = some r))

/-- The consumer reads what the producer loads. -/
def Slot.LoadFeeds (producer consumer : Slot R) : Prop :=
  producer.load = true ∧ producer.Feeds consumer

instance (producer consumer : Slot R) : Decidable (producer.LoadFeeds consumer) :=
  inferInstanceAs (Decidable (_ ∧ _))

theorem Slot.decide_loadFeeds (producer consumer : Slot R) :
    decide (producer.LoadFeeds consumer) =
      (producer.load && decide (producer.Feeds consumer)) := by
  cases hload : producer.load <;> simp [Slot.LoadFeeds, hload]

/-- The consumer reads the destination of the producer, which the instruction between
them leaves alone. -/
def Slot.FeedsPast (producer middle consumer : Slot R) : Prop :=
  ∃ r ∈ consumer.sources, producer.dest = some r ∧ middle.dest ≠ some r

instance (producer middle consumer : Slot R) :
    Decidable (producer.FeedsPast middle consumer) :=
  inferInstanceAs (Decidable (∃ r ∈ consumer.sources, _ ∧ _))

/-- A branch meets a load two instructions back whose value is not there yet, if
nothing has held up the instruction between them. -/
def Slot.Exposed (producer middle consumer : Slot R) : Prop :=
  producer.load = true ∧ consumer.branch = true ∧ middle.taken = false ∧
    producer.FeedsPast middle consumer

instance (producer middle consumer : Slot R) :
    Decidable (producer.Exposed middle consumer) :=
  inferInstanceAs (Decidable (_ ∧ _ ∧ _ ∧ _))

/-- Cycles from the issue of a producer to the issue of its consumer. -/
def latency (producer consumer : Slot R) : ℕ :=
  1 + producer.load.toNat + consumer.branch.toNat

theorem ite_zero_le_iff {cond : Prop} [Decidable cond] {a d : ℕ} :
    (if cond then a else 0) ≤ d ↔ (cond → a ≤ d) := by
  by_cases hcond : cond
  · rw [if_pos hcond, imp_iff_right hcond]
  · rw [if_neg hcond]
    exact iff_of_true (Nat.zero_le d) fun h => absurd h hcond

section Schedule

variable (slots : ℕ → Slot R)

/-- The instruction before the `i`-th, an idle one before the first. -/
def previous : ℕ → Slot R
  | 0 => Slot.idle
  | i + 1 => slots i

/-- The most recent of the first `i` instructions that writes `r`. -/
def writer (r : R) : ℕ → Option ℕ
  | 0 => none
  | i + 1 => if (slots i).dest = some r then some i else writer r i

/-- The cycle in which the `i`-th instruction finds its operands, for the issue times
`times` of the earlier ones. -/
def operandsReady (times : ℕ → ℕ) (i : ℕ) : ℕ :=
  (slots i).sources.sup fun r =>
    (writer slots r i).elim 0 fun p => times p + latency (slots p) (slots i)

/-- A table with the issue times of the first `n + 1` instructions. -/
def issueTable : ℕ → ℕ → ℕ
  | 0 => fun _ => 0
  | n + 1 =>
      Function.update (issueTable n) (n + 1)
        (max (issueTable n n + 1 + (slots n).taken.toNat)
          (operandsReady slots (issueTable n) (n + 1)))

/-- The time an instruction issues: behind the one before it, and not before its operands
are there. -/
def issue (i : ℕ) : ℕ :=
  issueTable slots i i

/-- Cycles the `i`-th instruction waits for its operands. -/
def delay : ℕ → ℕ
  | 0 => 0
  | i + 1 => issue slots (i + 1) - (issue slots i + 1 + (slots i).taken.toNat)

variable {slots}

/-- The producer of an operand is the last instruction before that writes it. -/
theorem writer_spec {r : R} {i p : ℕ} (hwriter : writer slots r i = some p) :
    p < i ∧ (slots p).dest = some r ∧ ∀ q, p < q → q < i → (slots q).dest ≠ some r := by
  induction i with
  | zero => cases hwriter
  | succ i ih =>
      rw [writer] at hwriter
      split at hwriter
      · next hdest =>
          obtain rfl := Option.some.inj hwriter
          exact ⟨Nat.lt_succ_self i, hdest, fun q hlow hhigh => by omega⟩
      · next hdest =>
          obtain ⟨hlt, hp, hlast⟩ := ih hwriter
          refine ⟨Nat.lt_succ_of_lt hlt, hp, fun q hlow hhigh => ?_⟩
          rcases Nat.lt_succ_iff_lt_or_eq.mp hhigh with hq | rfl
          · exact hlast q hlow hq
          · exact hdest

theorem issueTable_eq {n i : ℕ} (hi : i ≤ n) : issueTable slots n i = issue slots i := by
  induction n, hi using Nat.le_induction with
  | base => rfl
  | succ n hi ih => rw [issueTable, Function.update_of_ne (by omega), ih]

/-- The recurrence of the issue times. -/
theorem issue_succ (i : ℕ) :
    issue slots (i + 1) = max (issue slots i + 1 + (slots i).taken.toNat)
      (operandsReady slots (issue slots) (i + 1)) := by
  have hready : operandsReady slots (issueTable slots i) (i + 1) =
      operandsReady slots (issue slots) (i + 1) := by
    refine Finset.sup_congr rfl fun r _ => ?_
    cases hwriter : writer slots r (i + 1) with
    | none => rfl
    | some p =>
        have hp := (writer_spec hwriter).1
        simp only [Option.elim_some, issueTable_eq (Nat.le_of_lt_succ hp)]
  rw [issue, issueTable, Function.update_self, ← hready]
  rfl

variable (slots) in
/-- An instruction issues one slot after the one before it, later by the flush of a taken
jump and by its own delay. -/
theorem issue_delay (i : ℕ) :
    issue slots (i + 1) =
      issue slots i + 1 + (slots i).taken.toNat + delay slots (i + 1) := by
  have hlow := le_max_left (issue slots i + 1 + (slots i).taken.toNat)
    (operandsReady slots (issue slots) (i + 1))
  rw [← issue_succ] at hlow
  rw [delay]
  omega

variable (slots) in
/-- Instructions issue in order, at most one in a cycle. -/
theorem issue_add_le (p d : ℕ) : issue slots p + d ≤ issue slots (p + d) := by
  induction d with
  | zero => exact le_refl _
  | succ d ih =>
      have hnext := issue_delay slots (p + d)
      change issue slots p + (d + 1) ≤ issue slots (p + d + 1)
      omega

/-- A delay is enough exactly if every operand has its value by then. -/
theorem delay_succ_le_iff (i d : ℕ) :
    delay slots (i + 1) ≤ d ↔
      ∀ r ∈ (slots (i + 1)).sources, ∀ p, writer slots r (i + 1) = some p →
        issue slots p + latency (slots p) (slots (i + 1)) ≤
          issue slots i + 1 + (slots i).taken.toNat + d := by
  have hready : delay slots (i + 1) ≤ d ↔
      operandsReady slots (issue slots) (i + 1) ≤
        issue slots i + 1 + (slots i).taken.toNat + d := by
    rw [delay, issue_succ]
    omega
  rw [hready, operandsReady, Finset.sup_le_iff]
  refine forall₂_congr fun r _ => ?_
  cases hwriter : writer slots r (i + 1) with
  | none => simp
  | some p => simp

/-- The producer is the instruction before. -/
theorem writer_succ_of_dest {r : R} {i : ℕ} (hdest : (slots i).dest = some r) :
    writer slots r (i + 1) = some i :=
  if_pos hdest

/-- The producer stands two back and is not shadowed. -/
theorem writer_succ_of_previous {r : R} {i : ℕ} (hdest : (slots (i + 1)).dest ≠ some r)
    (hprevious : (slots i).dest = some r) : writer slots r (i + 2) = some i := by
  rw [writer, if_neg hdest]
  exact writer_succ_of_dest hprevious

omit [DecidableEq R] in
theorem latency_le (producer consumer : Slot R) : latency producer consumer ≤ 3 := by
  have hload := Bool.toNat_le producer.load
  have hbranch := Bool.toNat_le consumer.branch
  rw [latency]
  omega

omit [DecidableEq R] in
theorem latency_eq_three (producer consumer : Slot R)
    (hlong : 2 < latency producer consumer) :
    producer.load = true ∧ consumer.branch = true := by
  rw [latency] at hlong
  cases hload : producer.load <;> cases hbranch : consumer.branch <;>
    simp [hload, hbranch] at hlong ⊢

/-- An instruction that does not meet an early branch two instructions later is no reason
to wait. -/
theorem ready_past {p d : ℕ} {r : R} (hr : r ∈ (slots (p + 2)).sources)
    (hdest : (slots p).dest = some r) (hmiddle : (slots (p + 1)).dest ≠ some r)
    (hexposed : (slots p).Exposed (slots (p + 1)) (slots (p + 2)) →
      delay slots (p + 1) = 0 → 1 ≤ d) :
    issue slots p + latency (slots p) (slots (p + 2)) ≤
      issue slots (p + 1) + 1 + (slots (p + 1)).taken.toNat + d := by
  have hissue := issue_delay slots p
  have hlatency := latency_le (slots p) (slots (p + 2))
  cases htaken : (slots (p + 1)).taken with
  | true =>
      rw [Bool.toNat_true]
      omega
  | false =>
      rw [Bool.toNat_false]
      by_contra hlate
      obtain ⟨hload, hbranch⟩ :=
        latency_eq_three (slots p) (slots (p + 2)) (by omega)
      have hone := hexposed ⟨hload, hbranch, htaken, r, hr, hdest, hmiddle⟩ (by omega)
      omega

/-- Only the two instructions before the consumer can hold it up. -/
theorem delay_window (i d : ℕ) :
    delay slots (i + 1) ≤ d ↔
      ((slots i).Feeds (slots (i + 1)) →
        (slots i).load.toNat + (slots (i + 1)).branch.toNat ≤ (slots i).taken.toNat + d) ∧
      ((previous slots i).Exposed (slots i) (slots (i + 1)) → delay slots i = 0 →
        1 ≤ d) := by
  rw [delay_succ_le_iff]
  constructor
  · intro hoperands
    constructor
    · rintro ⟨r, hr, hdest⟩
      have hready := hoperands r hr i (writer_succ_of_dest hdest)
      rw [latency] at hready
      omega
    · rintro ⟨hload, hbranch, htaken, r, hr, hdest, hmiddle⟩ hdelay
      cases i with
      | zero => cases hload
      | succ j =>
          have hready := hoperands r hr j (writer_succ_of_previous hmiddle hdest)
          have hissue := issue_delay slots j
          have halone := ((slots j).load_alone hload).2
          change (slots j).load = true at hload
          rw [latency, hload, hbranch, htaken] at hready
          rw [halone, hdelay] at hissue
          simp only [Bool.toNat_true, Bool.toNat_false] at hready hissue
          omega
  · rintro ⟨hfeeds, hexposed⟩ r hr p hwriter
    obtain ⟨hlt, hdest, hlast⟩ := writer_spec hwriter
    have hlatency := latency_le (slots p) (slots (i + 1))
    rcases Nat.lt_succ_iff_lt_or_eq.mp hlt with hbefore | rfl
    · obtain ⟨j, rfl⟩ := Nat.exists_eq_add_of_lt hbefore
      cases j with
      | zero => exact ready_past hr hdest (hlast (p + 1) (by omega) (by omega)) hexposed
      | succ j =>
          have hissue := issue_add_le slots p (j + 2)
          change issue slots p + _ ≤ issue slots (p + (j + 2)) + 1 + _ + d
          omega
    · have hready := hfeeds ⟨r, hr, hdest⟩
      rw [latency]
      omega

/-- The delay is the longer of the two waits. -/
theorem delay_succ (i : ℕ) :
    delay slots (i + 1) =
      max
        (if (slots i).Feeds (slots (i + 1)) then
          (slots i).load.toNat + (slots (i + 1)).branch.toNat - (slots i).taken.toNat
        else 0)
        (if (previous slots i).Exposed (slots i) (slots (i + 1)) ∧
          delay slots i = 0 then 1
        else 0) := by
  refine eq_of_forall_ge_iff fun d => ?_
  rw [delay_window, max_le_iff, ite_zero_le_iff, ite_zero_le_iff, and_imp,
    Nat.sub_le_iff_le_add']

omit [DecidableEq R] in
/-- A shadowed destination is the only reason why a source of the consumer would not come
from two back. -/
theorem feedsPast_iff (producer : Slot R) {middle consumer : Slot R}
    (hmiddle : ¬middle.Feeds consumer) :
    producer.FeedsPast middle consumer ↔ producer.Feeds consumer := by
  constructor
  · rintro ⟨r, hr, hdest, -⟩
    exact ⟨r, hr, hdest⟩
  · rintro ⟨r, hr, hdest⟩
    exact ⟨r, hr, hdest, fun hshadow => hmiddle ⟨r, hr, hshadow⟩⟩

/-! ## Charges instead of delays -/

variable (slots) in
/-- The issue times if the `i`-th instruction waits `cost i` cycles. -/
def chargedIssue (cost : ℕ → ℕ) : ℕ → ℕ
  | 0 => 0
  | i + 1 => chargedIssue cost i + 1 + (slots i).taken.toNat + cost (i + 1)

/-- Charges that are never below the delay, and above it by less than the modulus of the
clock, keep the clock right exactly if they are the delays. -/
theorem chargedIssue_modEq_iff {cost : ℕ → ℕ} {m : ℕ}
    (hcost : ∀ i, delay slots i ≤ cost i ∧ cost i < delay slots i + m) (n : ℕ) :
    (∀ i ≤ n, chargedIssue slots cost i ≡ issue slots i [MOD m]) ↔
      ∀ i < n, cost (i + 1) = delay slots (i + 1) := by
  induction n with
  | zero =>
      refine ⟨fun _ i hi => absurd hi (Nat.not_lt_zero i), fun _ i hi => ?_⟩
      obtain rfl := Nat.le_zero.mp hi
      rfl
  | succ n ih =>
      have hnext : chargedIssue slots cost n ≡ issue slots n [MOD m] →
          (chargedIssue slots cost (n + 1) ≡ issue slots (n + 1) [MOD m] ↔
            cost (n + 1) = delay slots (n + 1)) := by
        intro hclock
        obtain ⟨hlow, hhigh⟩ := hcost (n + 1)
        rw [chargedIssue, issue_delay]
        constructor
        · intro hlater
          have hcharge :=
            ((hclock.add_right 1).add_right (slots n).taken.toNat).add_left_cancel
            hlater
          obtain ⟨extra, hextra⟩ := Nat.exists_eq_add_of_le hlow
          rw [hextra] at hcharge hhigh ⊢
          have hzero : extra ≡ 0 [MOD m] := Nat.ModEq.add_left_cancel' _ hcharge
          have hsmall : extra < m := by omega
          rw [Nat.ModEq, Nat.mod_eq_of_lt hsmall, Nat.zero_mod] at hzero
          rw [hzero, Nat.add_zero]
        · intro hcharge
          rw [hcharge]
          exact ((hclock.add_right 1).add_right _).add_right _
      constructor
      · intro hclock i hi
        rcases Nat.lt_succ_iff_lt_or_eq.mp hi with hbefore | rfl
        · exact ih.mp (fun j hj => hclock j (by omega)) i hbefore
        · exact (hnext (hclock i (by omega))).mp (hclock (i + 1) (le_refl _))
      · intro hcharge i hi
        have hbefore := ih.mpr fun j hj => hcharge j (by omega)
        rcases Nat.le_succ_iff.mp hi with hle | rfl
        · exact hbefore i hle
        · exact (hnext (hbefore n (le_refl _))).mpr (hcharge n (Nat.lt_succ_self n))

end Schedule

end Rvem.Library.IssueTime
