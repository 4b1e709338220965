import Rvem.Guest.Code

/-!
# The performance model is transparent

Counters and hazard records never influence an architectural result, CSR reads aside.
Two runs of the main loop from states that differ in them only stay in lockstep: same
memory, registers, pc, control state and output.  The states reached may have different
cycle counts, so the loop is compared as long as neither run meets its limit.
-/

namespace Rvem.Transparent

open Rvem.Arch
open Rvem.State
open Rvem.Main
open Rvem.Fields
open Rvem.StepEffect
open Rvem.Run
open Rvem.Code
open Rvem.FlatMap
open Rvem.Library.LittleEndian

variable {w : ℕ}

/-- A SYSTEM word whose function code is not that of `ecall` and `ebreak`. -/
def isCsrWord (word : Word) : Prop :=
  getOpcode word = 0x73 ∧ getFunct3 word ≠ esys

/-- `instr_loop`, or nothing once `main` has returned. -/
def control : MainState w → Option Bool
  | .loop instrLoop _ => some instrLoop
  | .failed _ => none

/-- Everything an instruction does apart from its cycles and its hazard record. -/
structure SameResult (left right : Effect w) : Prop where
  value : left.value = right.value
  ram : left.ram = right.ram
  nextPc : left.nextPc = right.nextPc
  lines : left.lines = right.lines
  execContinue : left.execContinue = right.execContinue

/-- A word that reads no CSR has the same result in two states that share `cpu`. -/
theorem effect_sameResult (m : Bool) {s t : Machine w} {word : Word}
    (hcpu : s.cpu = t.cpu) (hcsr : ¬isCsrWord word) :
    SameResult (effect m s word) (effect m t word) := by
  cases hclass : opClass w (getOpcode word) <;>
    simp only [effect, hclass, hcpu, skip]
  case sys =>
    have hesys : getFunct3 word = esys := by
      by_contra hne
      exact hcsr ⟨opcode_of_opClass hclass rfl, hne⟩
    constructor <;> try rfl
    simp [sysValue, hesys]
  all_goals exact ⟨rfl, rfl, rfl, rfl, rfl⟩

/-- The parts of two states of `main` that must agree, relative to the states
the runs started from. -/
structure Lockstep (s t : Machine w) (c d : MainState w) : Prop where
  cpu : c.machine.cpu = d.machine.cpu
  control : control c = control d
  stdout : ∃ lines, c.machine.stdout = s.stdout ++ lines ∧
    d.machine.stdout = t.stdout ++ lines
  minstret : c.machine.minstret - s.minstret = d.machine.minstret - t.minstret

/-- Printing the same lines keeps the outputs equal. -/
theorem Lockstep.extend {s t : Machine w} {left right : List Output}
    (lines : List Output)
    (hlock : ∃ before, left = s.stdout ++ before ∧ right = t.stdout ++ before) :
    ∃ after, left ++ lines = s.stdout ++ after ∧
      right ++ lines = t.stdout ++ after := by
  obtain ⟨before, rfl, rfl⟩ := hlock
  exact ⟨before ++ lines, List.append_assoc _ _ _, List.append_assoc _ _ _⟩

theorem sub_add_one {x y a b : BitVec 64} (h : x - a = y - b) :
    x + 1 - a = y + 1 - b := by
  bv_omega

theorem Effect.apply_cpu_congr {left right : Effect w} {s t : Machine w}
    (word : Word) (hresult : SameResult left right) (hcpu : s.cpu = t.cpu) :
    (left.apply s word).cpu = (right.apply t word).cpu := by
  simp only [Effect.apply, hcpu, hresult.value, hresult.ram, hresult.nextPc]

/-- One loop iteration keeps the two runs in lockstep. -/
theorem lockstep_loopBody (m : Bool) {s t u v : Machine w}
    (hlock : Lockstep s t (.loop true u) (.loop true v))
    (hcsr : fetchedWord u.cpu ≠ 0 → ¬isCsrWord (fetchedWord u.cpu)) :
    Lockstep s t (loopBody m u) (loopBody m v) := by
  have hcpu : u.cpu = v.cpu := hlock.cpu
  have hlines : readLines v.cpu.pc memW = readLines u.cpu.pc memW := by
    rw [hcpu]
  have hfetch := Lockstep.extend (readLines u.cpu.pc memW) hlock.stdout
  rw [loopBody, loopBody, ← hcpu]
  by_cases hword : fetchedWord u.cpu = 0
  · rw [if_pos hword, if_pos hword]
    refine ⟨hcpu, rfl, ?_, hlock.minstret⟩
    simpa only [MainState.machine, afterFetch, advance, hlines] using hfetch
  · rw [if_neg hword, if_neg hword]
    have hresult : SameResult (stepEffect m u) (stepEffect m v) := by
      rw [stepEffect, stepEffect, ← hcpu]
      exact effect_sameResult m hcpu (hcsr hword)
    refine ⟨?_, ?_, ?_, ?_⟩
    · simp only [MainState.machine, step, ← hcpu]
      exact Effect.apply_cpu_congr _ hresult hcpu
    · exact congrArg some hresult.execContinue
    · have hstep := Lockstep.extend (stepEffect m u).lines hfetch
      simp only [MainState.machine, step, Effect.apply, afterFetch, advance,
        ← hresult.lines, hlines]
      exact hstep
    · exact sub_add_one hlock.minstret

/-- One evaluation of `loopNext` keeps the lockstep below the cycle limit. -/
theorem lockstep_loopNext (m : Bool) {s t : Machine w} {c d : MainState w}
    (hlock : Lockstep s t c d)
    (hleft : c.machine.mcycle.toNat < maxCycles)
    (hright : d.machine.mcycle.toNat < maxCycles)
    (hcsr : ∀ word, nextWord c = some word → ¬isCsrWord word) :
    Lockstep s t (loopNext m c) (loopNext m d) := by
  have hcontrol := hlock.control
  cases c with
  | failed u =>
      cases d with
      | failed v => exact hlock
      | loop instrLoop v => cases hcontrol
  | loop instrLoop u =>
      cases d with
      | failed v => cases hcontrol
      | loop other v =>
          obtain rfl : instrLoop = other := Option.some.inj hcontrol
          have hguardU : loopGuard instrLoop u = instrLoop := loopGuard_of_lt hleft
          have hguardV : loopGuard instrLoop v = instrLoop := loopGuard_of_lt hright
          rw [loopNext, loopNext, hguardU, hguardV]
          cases instrLoop with
          | false => exact hlock
          | true =>
              apply lockstep_loopBody m hlock
              intro hword
              apply hcsr
              simp only [nextWord, hguardU, ne_eq, hword, not_false_iff, and_self,
                if_true]

/-- Any two runs of the main loop from states that differ in counters and hazard
records only agree on memory, registers, pc, control state and output, and
retire the same number of instructions, as long as neither reaches the cycle
limit and no CSR instruction is executed. -/
theorem runLoop_transparent (b : Build) (s t : Machine b.xlen) (instrLoop : Bool)
    (n : ℕ) (hcpu : s.cpu = t.cpu)
    (hleft : ∀ k < n, ∀ c, runLoop b.mExt k (.loop instrLoop s) = some c →
      c.machine.mcycle.toNat < maxCycles)
    (hright : ∀ k < n, ∀ d, runLoop b.mExt k (.loop instrLoop t) = some d →
      d.machine.mcycle.toNat < maxCycles)
    (hcsr : ∀ k < n, ∀ c, runLoop b.mExt k (.loop instrLoop s) = some c →
      ∀ word, nextWord c = some word → ¬isCsrWord word) :
    ∃ c d, runLoop b.mExt n (.loop instrLoop s) = some c ∧
      runLoop b.mExt n (.loop instrLoop t) = some d ∧ Lockstep s t c d := by
  simp only [runLoop_eq b.xlen_eq, Option.some.injEq, forall_eq'] at *
  refine ⟨_, _, rfl, rfl, ?_⟩
  induction n with
  | zero =>
      refine ⟨hcpu, rfl, ⟨[], ?_, ?_⟩, ?_⟩
      · exact (List.append_nil _).symm
      · exact (List.append_nil _).symm
      · exact (BitVec.sub_self _).trans (BitVec.sub_self _).symm
  | succ n ih =>
      have hlock := ih (fun k hk => hleft k (by omega))
        (fun k hk => hright k (by omega)) (fun k hk => hcsr k (by omega))
      rw [Function.iterate_succ_apply', Function.iterate_succ_apply']
      exact lockstep_loopNext b.mExt hlock (hleft n (by omega))
        (hright n (by omega)) (hcsr n (by omega))

/-- `lw x6, 0(x5); add x7, x6, x6; sw x7, 4(x5); bne x7, x0, -12`: the sum waits
for the load. -/
def doublingRom : Fin romSize → Byte :=
  romOfWords [0x0002A303, 0x006303B3, 0x0072A223, 0xFE039AE3]

/-- The loop above with `x5` at the start of a RAM full of ones. -/
def restedMachine : Machine 32 :=
  let s := initMachine 32 doublingRom
  { s with
    cpu :=
      { s.cpu with
        ram := fun _ => 1
        regfile := fun r => if r = 5 then BitVec.ofNat 32 ramStart else 0 } }

/-- The same with the counters and hazard records of a busy past: the first load
waits for a load of `x5`. -/
def busyMachine : Machine 32 :=
  { restedMachine with
    mcycle := 77
    minstret := 40
    perfModel := ⟨5, 6, true, true, true⟩ }

/-- Six iterations in nine and in ten cycles; the word stored is the same. -/
theorem runLoop_transparent_doubling :
    ∃ c d, runLoop true 6 (.loop true restedMachine) = some c ∧
      runLoop true 6 (.loop true busyMachine) = some d ∧
      Lockstep restedMachine busyMachine c d ∧
      c.machine.mcycle = restedMachine.mcycle + 9 ∧
      d.machine.mcycle = busyMachine.mcycle + 10 ∧
      load (byteAt d.machine.cpu) (ramStart + 4) 4 = 0x02020202 := by
  have hrested :
      ∀ k < 6, ((loopNext true)^[k] (.loop true restedMachine)).machine.mcycle.toNat <
      maxCycles := by decide +kernel
  have hbusy :
      ∀ k < 6, ((loopNext true)^[k] (.loop true busyMachine)).machine.mcycle.toNat <
      maxCycles := by decide +kernel
  have hwords : ∀ k < 6, (nextWord ((loopNext true)^[k] (.loop true restedMachine))).map
      getOpcode ≠ some 0x73 := by decide +kernel
  obtain ⟨c, d, hc, hd, hlock⟩ :=
    runLoop_transparent rv32im restedMachine busyMachine true 6 rfl
      (fun k hk c hrun => by
        rw [runLoop_eq (.inl rfl), Option.some.injEq] at hrun
        exact hrun ▸ hrested k hk)
      (fun k hk d hrun => by
        rw [runLoop_eq (.inl rfl), Option.some.injEq] at hrun
        exact hrun ▸ hbusy k hk)
      (fun k hk c hrun word hword hcsr => by
        rw [runLoop_eq (.inl rfl), Option.some.injEq] at hrun
        apply hwords k hk
        rw [hrun, hword, Option.map_some, hcsr.1])
  refine ⟨c, d, hc, hd, hlock, ?_⟩
  rw [runLoop_eq (.inl rfl), Option.some.injEq] at hc hd
  rw [← hc, ← hd]
  decide +kernel

end Rvem.Transparent
