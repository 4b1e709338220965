import Rvem.Guest.Code

/-!
# What the guest asks of the host

The only requests a guest has are ECALL and EBREAK.  The `ESYS` case looks at the
immediate of the word and nowhere else, and takes every word that is not an
EBREAK for an ECALL.  The run follows the requests exactly as long as it executes
no other SYSTEM word with function code 0 in a state that makes it look like one.
-/

namespace Rvem.GuestCalls

open Rvem.Arch
open Rvem.State
open Rvem.Core
open Rvem.Main
open Rvem.Fields
open Rvem.FlatMap
open Rvem.StepEffect
open Rvem.Run
open Rvem.Code

variable {w : ℕ}

/-! ## Requests -/

def ecallWord : Word := 0x00000073
def ebreakWord : Word := 0x00100073

/-- The character an ECALL asks to print. -/
def requestedChar (cpu : Cpu w) (word : Word) : Option Byte :=
  if word = ecallWord ∧ cpu.regfile 10 = eChar w then
    some ((cpu.regfile 11).setWidth 8)
  else none

/-- EBREAK, or an ECALL that asks to exit. -/
def RequestsStop (cpu : Cpu w) (word : Word) : Prop :=
  word = ebreakWord ∨ word = ecallWord ∧ cpu.regfile 10 = eExit w

/-- Another SYSTEM word with function code 0, in a state in which the code takes
it for a request. -/
def Misread (cpu : Cpu w) (word : Word) : Prop :=
  (getOpcode word = 0x73 ∧ getFunct3 word = esys) ∧
    word ≠ ecallWord ∧ word ≠ ebreakWord ∧
    (ebreak (getImm12 w word) ∨ cpu.regfile 10 = eExit w ∨
      cpu.regfile 10 = eChar w)

def guestChar : Output → Option Byte
  | .guestChar c => some c
  | _ => none

/-- The characters printed for the guest. -/
def guestChars (lines : List Output) : List Byte :=
  lines.filterMap guestChar

theorem guestChars_append (lines more : List Output) :
    guestChars (lines ++ more) = guestChars lines ++ guestChars more :=
  List.filterMap_append

/-! ## What the code does -/

/-- The character `process_instr` prints. -/
def printedChar (cpu : Cpu w) (word : Word) : Option Byte :=
  if (getOpcode word = 0x73 ∧ getFunct3 word = esys) ∧
      ¬ebreak (getImm12 w word) ∧ cpu.regfile 10 = eChar w then
    some ((cpu.regfile 11).setWidth 8)
  else none

/-- Whether `process_instr` stops the run. -/
def StopsRun (cpu : Cpu w) (word : Word) : Prop :=
  (getOpcode word = 0x73 ∧ getFunct3 word = esys) ∧
    (ebreak (getImm12 w word) ∨ cpu.regfile 10 = eExit w)

theorem guestChars_readLines (addr : BitVec w) (op : Byte) :
    guestChars (readLines addr op) = [] := by
  unfold readLines
  split <;> rfl

theorem guestChars_writeLines (addr : BitVec w) (op : Byte) :
    guestChars (writeLines addr op) = [] := by
  unfold writeLines
  split
  · rfl
  · split <;> rfl

theorem eChar_ne_eExit (hw : w = 32 ∨ w = 64) : eChar w ≠ eExit w := by
  rcases hw with rfl | rfl <;> decide

theorem opClass_sys_iff (word : Word) :
    opClass w (getOpcode word) = .sys ↔ getOpcode word = 0x73 := by
  constructor
  · intro hclass
    exact opcode_of_opClass hclass rfl
  · intro hopcode
    rw [hopcode]
    simp [opClass]

/-- The SYSTEM case prints one character in its print call and none in every
other case. -/
theorem guestChars_sysLines (hw : w = 32 ∨ w = 64) (cpu : Cpu w) {word : Word}
    (hopcode : getOpcode word = 0x73) :
    guestChars (sysLines cpu word) = (printedChar cpu word).toList := by
  have hne := eChar_ne_eExit hw
  unfold sysLines printedChar
  by_cases hesys : getFunct3 word = esys
  · by_cases hebreak : ebreak (getImm12 w word)
    · simp [hesys, hebreak, guestChars, guestChar]
    · by_cases hexit : cpu.regfile 10 = eExit w
      · simp [hesys, hebreak, hexit, hne.symm, guestChars, guestChar]
      · by_cases hchar : cpu.regfile 10 = eChar w
        · simp [hopcode, hesys, hebreak, hchar, hne, guestChars, guestChar]
        · simp [hesys, hebreak, hexit, hchar, guestChars]
  · rw [if_pos hesys, if_neg fun h => hesys h.1.2]
    rfl

/-- A call of `process_instr` prints the character of its word and no other: the lines of
the bus and of unknown opcodes are no characters of the guest. -/
theorem guestChars_lines (hw : w = 32 ∨ w = 64) (m : Bool) (s : Machine w)
    (word : Word) :
    guestChars (effect m s word).lines = (printedChar s.cpu word).toList := by
  by_cases hopcode : getOpcode word = 0x73
  · have hclass := (opClass_sys_iff (w := w) word).mpr hopcode
    simp only [effect, hclass]
    exact guestChars_sysLines hw s.cpu hopcode
  · have hprinted : printedChar s.cpu word = none :=
      if_neg fun h => hopcode h.1.1
    rw [hprinted]
    cases hclass : opClass w (getOpcode word) <;>
      simp only [effect, hclass, skip, guestChars_readLines,
        guestChars_writeLines] <;>
      try rfl
    exact absurd ((opClass_sys_iff word).mp hclass) hopcode

/-- Only the SYSTEM case ends the run, and only for the words that the code takes for an
exit or a breakpoint. -/
theorem execContinue_eq_false_iff (m : Bool) (s : Machine w) (word : Word) :
    (effect m s word).execContinue = false ↔ StopsRun s.cpu word := by
  unfold StopsRun
  by_cases hopcode : getOpcode word = 0x73
  · have hclass := (opClass_sys_iff (w := w) word).mpr hopcode
    simp only [effect, hclass]
    simp only [sysStops, Bool.not_eq_false', decide_eq_true_eq, hopcode, true_and]
  · cases hclass : opClass w (getOpcode word) <;>
      simp only [effect, hclass, skip, hopcode, false_and, Bool.true_eq_false]
    exact absurd ((opClass_sys_iff word).mp hclass) hopcode

/-! ## Requests against the code -/

theorem ebreak_ecallWord (hw : w = 32 ∨ w = 64) :
    ebreak (getImm12 w ecallWord) = false := by
  rcases hw with rfl | rfl <;> decide

theorem ebreak_ebreakWord (hw : w = 32 ∨ w = 64) :
    ebreak (getImm12 w ebreakWord) = true := by
  rcases hw with rfl | rfl <;> decide

/-- The code never misses a request to stop. -/
theorem stopsRun_of_requestsStop (hw : w = 32 ∨ w = 64) {cpu : Cpu w} {word : Word}
    (hrequest : RequestsStop cpu word) : StopsRun cpu word := by
  rcases hrequest with rfl | ⟨rfl, hexit⟩
  · exact ⟨⟨by decide, by decide⟩, .inl (ebreak_ebreakWord hw)⟩
  · exact ⟨⟨by decide, by decide⟩, .inr hexit⟩

/-- The code never misses a requested character. -/
theorem printedChar_of_requested (hw : w = 32 ∨ w = 64) {cpu : Cpu w} {word : Word}
    {c : Byte} (hrequest : requestedChar cpu word = some c) :
    printedChar cpu word = some c := by
  have hebreak := ebreak_ecallWord hw
  unfold requestedChar at hrequest
  split_ifs at hrequest with hecall
  obtain ⟨rfl, hchar⟩ := hecall
  rw [← hrequest]
  apply if_pos
  refine ⟨⟨by decide, by decide⟩, ?_, hchar⟩
  simp only [hebreak, Bool.false_eq_true, not_false_iff]

/-- One word is handled as requested exactly when it is not misread. -/
theorem asRequested_iff (hw : w = 32 ∨ w = 64) (cpu : Cpu w) (word : Word) :
    (printedChar cpu word = requestedChar cpu word ∧
      (StopsRun cpu word ↔ RequestsStop cpu word)) ↔ ¬Misread cpu word := by
  unfold StopsRun
  by_cases hecall : word = ecallWord
  · subst hecall
    have hfields : getOpcode ecallWord = 0x73 ∧ getFunct3 ecallWord = esys := by decide
    have hne : ecallWord ≠ ebreakWord := by decide
    simp [printedChar, requestedChar, RequestsStop, Misread, hfields, hne,
      ebreak_ecallWord hw]
  · by_cases hebreak : word = ebreakWord
    · subst hebreak
      have hfields : getOpcode ebreakWord = 0x73 ∧ getFunct3 ebreakWord = esys := by
        decide
      simp [printedChar, requestedChar, RequestsStop, Misread, hfields, hecall,
        ebreak_ebreakWord hw]
    · by_cases hesys : getOpcode word = 0x73 ∧ getFunct3 word = esys
      · have hchar : requestedChar cpu word = none := if_neg fun h => hecall h.1
        have hstop : ¬RequestsStop cpu word := by
          rintro (h | ⟨h, -⟩)
          · exact hebreak h
          · exact hecall h
        simp only [printedChar, hchar, hstop, Misread, hesys, hecall, hebreak, and_self,
          true_and, ne_eq, not_false_iff, iff_false, ite_eq_right_iff, reduceCtorEq,
          imp_false]
        tauto
      · have hchar : requestedChar cpu word = none := if_neg fun h => hecall h.1
        have hprinted : printedChar cpu word = none := if_neg fun h => hesys h.1
        have hstop : ¬RequestsStop cpu word := by
          rintro (h | ⟨h, -⟩)
          · exact hebreak h
          · exact hecall h
        simp only [hprinted, hchar, hstop, Misread, hesys, false_and, iff_self, and_self,
          not_false_iff]

/-! ## Traces -/

section Traces

variable {A B : Type*} {more fewer : A → Option B}

/-- A function that yields on fewer elements yields no more results. -/
theorem length_filterMap_le (hle : ∀ a b, fewer a = some b → more a = some b)
    (l : List A) : (l.filterMap fewer).length ≤ (l.filterMap more).length := by
  induction l with
  | nil => exact le_refl _
  | cons a l ih =>
      cases hfewer : fewer a with
      | some b =>
          rw [List.filterMap_cons_some hfewer, List.filterMap_cons_some (hle a b hfewer)]
          exact Nat.succ_le_succ ih
      | none =>
          rw [List.filterMap_cons_none hfewer]
          apply ih.trans
          exact ((List.sublist_cons_self a l).filterMap more).length_le

/-- Two traces of the same calls, of which one may have more entries, are equal
only if they agree at every call. -/
theorem filterMap_eq_filterMap_iff (hle : ∀ a b, fewer a = some b → more a = some b)
    (l : List A) : l.filterMap more = l.filterMap fewer ↔ ∀ a ∈ l, more a = fewer a := by
  induction l with
  | nil => simp
  | cons a l ih =>
      rw [List.forall_mem_cons]
      cases hmore : more a with
      | none =>
          have hfewer : fewer a = none := by
            by_contra hsome
            obtain ⟨b, hb⟩ := Option.ne_none_iff_exists'.mp hsome
            rw [hle a b hb] at hmore
            cases hmore
          rw [List.filterMap_cons_none hmore, List.filterMap_cons_none hfewer, hfewer]
          simp only [true_and]
          exact ih
      | some b =>
          rw [List.filterMap_cons_some hmore]
          cases hfewer : fewer a with
          | none =>
              rw [List.filterMap_cons_none hfewer]
              simp only [reduceCtorEq, false_and, iff_false]
              intro hequal
              have hlong := congrArg List.length hequal
              have hshort := length_filterMap_le hle l
              rw [List.length_cons] at hlong
              omega
          | some c =>
              obtain rfl : b = c := by
                rw [hle a c hfewer] at hmore
                exact (Option.some.inj hmore).symm
              rw [List.filterMap_cons_some hfewer, List.cons.injEq]
              simp only [true_and]
              exact ih

end Traces

/-- The characters printed along a run are those of its calls. -/
theorem guestChars_mainAfter (b : Build) (rom : Fin romSize → Byte) (k : ℕ) :
    guestChars (mainAfter b rom k).machine.stdout =
      (mainCalls b rom k).filterMap
        fun call => printedChar call.1.cpu call.2 := by
  induction k with
  | zero => rfl
  | succ k ih =>
      have hfetch : ∀ s : Machine b.xlen,
          guestChars (afterFetch s).stdout = guestChars s.stdout := by
        intro s
        rw [afterFetch, advance, guestChars_append, guestChars_readLines, List.append_nil]
      rw [mainCalls_succ, List.filterMap_append, ← ih, mainAfter_succ, nextCall]
      rcases loopNext_cases b.mExt (mainAfter b rom k) with
        ⟨s, hstate, -, hnext, hstep⟩ | ⟨s, hstate, -, -, hnext, hstep⟩ |
          ⟨-, hnext, hstep⟩ <;>
        rw [hstep, hnext]
      · rw [hstate]
        change guestChars ((afterFetch s).stdout ++ (stepEffect b.mExt s).lines) = _
        rw [guestChars_append, hfetch, stepEffect, guestChars_lines b.xlen_eq]
        cases hprinted : printedChar s.cpu (fetchedWord s.cpu) <;>
          simp [hprinted, MainState.machine]
      · rw [hstate]
        exact (hfetch s).trans (List.append_nil _).symm
      · exact (List.append_nil _).symm

/-! ## The main result -/

/-- A call of `process_instr` prints for the guest what the word requests, and
stops the run when it requests to. -/
structure AsRequested (s : Machine w) (word : Word) (s' : Machine w)
    (execContinue : Bool) : Prop where
  printed : guestChars s'.stdout =
    guestChars s.stdout ++ (requestedChar s.cpu word).toList
  stopped : execContinue = false ↔ RequestsStop s.cpu word

/-- The first `k` loop iterations do so: the characters on stdout are those
requested, in execution order. -/
structure RunAsRequested (b : Build) (rom : Fin romSize → Byte) (k : ℕ)
    (c : MainState b.xlen) : Prop where
  printed : guestChars c.machine.stdout =
    (mainCalls b rom k).filterMap
      fun call => requestedChar call.1.cpu call.2
  stopped : ∀ call ∈ mainCalls b rom k, ∀ s' execContinue,
    processInstr b.mExt call.1 call.2 = some (s', execContinue) →
      (execContinue = false ↔ RequestsStop call.1.cpu call.2)

/-- The emulator follows the guest's requests, in one call and along a whole run,
exactly when no executed word is misread. -/
theorem guest_calls (b : Build) :
    (∀ (s : Machine b.xlen) (word : Word), ∃ s' execContinue,
      processInstr b.mExt s word = some (s', execContinue) ∧
        (AsRequested s word s' execContinue ↔ ¬Misread s.cpu word)) ∧
    ∀ rom k, ∃ c, runLoop b.mExt k (initMain b.xlen rom) = some c ∧
      (RunAsRequested b rom k c ↔
        ∀ call ∈ mainCalls b rom k, ¬Misread call.1.cpu call.2) := by
  constructor
  · intro s word
    refine ⟨_, _, processInstr_eq b.xlen_eq b.mExt s word, ?_⟩
    have hprinted : guestChars ((effect b.mExt s word).apply s word).stdout =
        guestChars s.stdout ++ (printedChar s.cpu word).toList := by
      rw [← guestChars_lines b.xlen_eq b.mExt, ← guestChars_append]
      rfl
    rw [← asRequested_iff b.xlen_eq s.cpu word, ← execContinue_eq_false_iff b.mExt]
    constructor
    · rintro ⟨hchars, hstop⟩
      rw [hprinted, List.append_cancel_left_eq] at hchars
      have hchar := congrArg List.head? hchars
      rw [Option.head?_toList, Option.head?_toList] at hchar
      exact ⟨hchar, hstop⟩
    · rintro ⟨hchars, hstop⟩
      refine ⟨?_, hstop⟩
      rw [hprinted, hchars]
  · intro rom k
    refine ⟨_, runLoop_main b rom k, ?_⟩
    have hle : ∀ (call : Machine b.xlen × Word) c,
        requestedChar call.1.cpu call.2 = some c →
          printedChar call.1.cpu call.2 = some c :=
      fun _ _ hrequest => printedChar_of_requested b.xlen_eq hrequest
    have htrace := filterMap_eq_filterMap_iff hle (mainCalls b rom k)
    simp only [← asRequested_iff b.xlen_eq]
    constructor
    · rintro ⟨hchars, hstop⟩ call hcall
      rw [guestChars_mainAfter, htrace] at hchars
      refine ⟨hchars call hcall, ?_⟩
      rw [← execContinue_eq_false_iff b.mExt]
      exact hstop call hcall _ _ (processInstr_eq b.xlen_eq b.mExt _ _)
    · intro hcalls
      refine ⟨?_, ?_⟩
      · rw [guestChars_mainAfter, htrace]
        intro call hcall
        exact (hcalls call hcall).1
      · intro call hcall s' execContinue hcode
        rw [processInstr_eq b.xlen_eq] at hcode
        obtain ⟨-, rfl⟩ := Prod.mk.inj (Option.some.inj hcode)
        rw [execContinue_eq_false_iff]
        exact (hcalls call hcall).2

/-- `addi a0, x0, 11; addi a1, x0, 65; wfi` -/
def wfiRom : Fin romSize → Byte :=
  romOfWords [0x00B00513, 0x04100593, 0x10500073]

/-- A guest that executes WFI with `a0 = 11` has a character printed. -/
theorem wfi_prints : ∃ c, runLoop true 3 (initMain 32 wfiRom) = some c ∧
    guestChars c.machine.stdout = [65] ∧ ¬RunAsRequested rv32im wfiRom 3 c := by
  have hprinted : guestChars (mainAfter rv32im wfiRom 3).machine.stdout = [65] := by
    decide +kernel
  have hrequested : (mainCalls rv32im wfiRom 3).filterMap
      (fun call => requestedChar call.1.cpu call.2) = [] := by
    decide +kernel
  refine ⟨_, runLoop_main rv32im wfiRom 3, hprinted, ?_⟩
  intro hrun
  have hequal := hrun.printed
  rw [hprinted] at hequal
  cases hequal.trans hrequested

end Rvem.GuestCalls
