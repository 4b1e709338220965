import Rvem.Guest.Code
import Rvem.Isa.Decoding
import Rvem.Timing.Counters

/-!
# The 64-bit counter reads of the SDK

`query_performance_counter` and `query_instruction_counter` (`librv.h`) read the
high half of a counter before and after its low half and start over when the two
differ.  On the emulator they leave after at most two passes with the value the
counter had when its low half was read, whatever that value is.
-/

namespace Rvem.CounterRead

open Rvem.Arch
open Rvem.State
open Rvem.Core
open Rvem.Main
open Rvem.Assembly
open Rvem.Fields
open Rvem.FlatMap
open Rvem.StepEffect
open Rvem.Run
open Rvem.Code
open Rvem.Counters
open Rvem.Decoding
open Rvem.Reference (bits signExtend)

/-! ## The sequence -/

/-- The two counters the SDK reads. -/
inductive Counter
  | cycle | instret
  deriving DecidableEq

def Counter.low : Counter → Word
  | .cycle => csrMcycle
  | .instret => csrMinstret

def Counter.high : Counter → Word
  | .cycle => csrMcycleh
  | .instret => csrMinstreth

def Counter.value (c : Counter) (s : Machine 32) : BitVec 64 :=
  match c with
  | .cycle => s.mcycle
  | .instret => s.minstret

/-- `csrr dest, csr`, which is `csrrs dest, csr, x0`. -/
def csrr (dest : Fin 32) (csr : Word) : Word :=
  BitVec.ofNat 32 (csr.toNat * 2 ^ 20 + 2 * 2 ^ 12 + dest * 2 ^ 7 + 0x73)

/-- `bne left, right, 1b` at the end of the sequence, which goes back 12 bytes. -/
def bneBack (left right : Fin 32) : Word :=
  BitVec.ofNat 32 (0xFE000000 + right * 2 ^ 20 + left * 2 ^ 15 + 2 ^ 12 + 10 * 2 ^ 8
    + 2 ^ 7 + 0x63)

/-- The four instructions, with the registers the compiler has chosen. -/
def sequence (c : Counter) (hi lo hi2 : Fin 32) : List Word :=
  [csrr hi c.high, csrr lo c.low, csrr hi2 c.high, bneBack hi hi2]

/-! ## Decoding -/

/-- A CSR number fits in twelve bits. -/
def IsCsr (csr : Word) : Prop := csr.toNat < 2 ^ 12

theorem toNat_csrr (dest : Fin 32) {csr : Word} (hcsr : IsCsr csr) :
    (csrr dest csr).toNat =
      csr.toNat * 2 ^ 20 + 2 * 2 ^ 12 + dest * 2 ^ 7 + 0x73 := by
  have hdest := dest.isLt
  rw [IsCsr] at hcsr
  rw [csrr, BitVec.toNat_ofNat]
  omega

theorem getOpcode_csrr (dest : Fin 32) {csr : Word} (hcsr : IsCsr csr) :
    getOpcode (csrr dest csr) = 0x73 := by
  apply eq_ofNat_of_toNat_eq (v := 0x73)
  rw [toNat_getOpcode, toNat_csrr dest hcsr]
  omega

theorem getFunct3_csrr (dest : Fin 32) {csr : Word} (hcsr : IsCsr csr) :
    getFunct3 (csrr dest csr) = csrRs := by
  have hdest := dest.isLt
  apply eq_ofNat_of_toNat_eq (v := 2)
  rw [toNat_getFunct3, toNat_csrr dest hcsr]
  omega

theorem getRs1_csrr (dest : Fin 32) {csr : Word} (hcsr : IsCsr csr) :
    getRs1 (csrr dest csr) = 0 := by
  have hdest := dest.isLt
  apply eq_ofNat_of_toNat_eq (v := 0)
  rw [toNat_getRs1, toNat_csrr dest hcsr]
  omega

theorem rd_csrr (dest : Fin 32) {csr : Word} (hcsr : IsCsr csr) :
    rd (csrr dest csr) = dest := by
  have hdest := dest.isLt
  apply Fin.ext
  change (csrr dest csr).toNat / 2 ^ 7 % 32 = dest
  rw [toNat_csrr dest hcsr]
  omega

theorem csrNumber_csrr (dest : Fin 32) {csr : Word} (hcsr : IsCsr csr) :
    csrr dest csr >>> 20 = csr := by
  have hdest := dest.isLt
  apply BitVec.eq_of_toNat_eq
  rw [BitVec.toNat_ushiftRight, Nat.shiftRight_eq_div_pow, toNat_csrr dest hcsr]
  omega

/-- The words assembled for `csrr` read their counter into their destination. -/
theorem readsCsr_csrr {dest : Fin 32} {csr : Word} (hcsr : IsCsr csr) (hdest : dest ≠ 0) :
    ReadsCsr (csrr dest csr) csr where
  opcode := getOpcode_csrr dest hcsr
  funct3 := by
    rw [getFunct3_csrr dest hcsr]
    decide
  number := csrNumber_csrr dest hcsr
  dest := by rwa [rd_csrr dest hcsr]

theorem toNat_bneBack (left right : Fin 32) :
    (bneBack left right).toNat =
      0xFE000000 + right * 2 ^ 20 + left * 2 ^ 15 + 2 ^ 12 + 10 * 2 ^ 8 + 2 ^ 7 +
        0x63 := by
  have hleft := left.isLt
  have hright := right.isLt
  rw [bneBack, BitVec.toNat_ofNat]
  omega

theorem opClass_bneBack (left right : Fin 32) :
    opClass 32 (getOpcode (bneBack left right)) = .branch := by
  have hopcode : getOpcode (bneBack left right) = 0x63#8 := by
    apply eq_ofNat_of_toNat_eq
    rw [toNat_getOpcode, toNat_bneBack]
    omega
  rw [hopcode]
  rfl

theorem taken_bneBack (cpu : Cpu 32) (left right : Fin 32) :
    taken cpu (bneBack left right) = (cpu.regfile left != cpu.regfile right) := by
  have hleft := left.isLt
  have hright := right.isLt
  have hfunct3 : getFunct3 (bneBack left right) = branchNe := by
    apply eq_ofNat_of_toNat_eq (v := 1)
    rw [toNat_getFunct3, toNat_bneBack]
    omega
  have hrs1 : rs1 (bneBack left right) = left := by
    apply Fin.ext
    change (bneBack left right).toNat / 2 ^ 15 % 32 = left
    rw [toNat_bneBack]
    omega
  have hrs2 : rs2 (bneBack left right) = right := by
    apply Fin.ext
    change (bneBack left right).toNat / 2 ^ 20 % 32 = right
    rw [toNat_bneBack]
    omega
  rw [taken, hfunct3, hrs1, hrs2]
  rfl

theorem getBranchImm_bneBack (left right : Fin 32) :
    getBranchImm 32 (bneBack left right) = -12 := by
  have hleft := left.isLt
  have hright := right.isLt
  have h12 : bits (bneBack left right).toNat 31 31 = 1 := by
    rw [toNat_bneBack, bits]
    omega
  have h11 : bits (bneBack left right).toNat 7 7 = 1 := by
    rw [toNat_bneBack, bits]
    omega
  have h5 : bits (bneBack left right).toNat 30 25 = 63 := by
    rw [toNat_bneBack, bits]
    omega
  have h1 : bits (bneBack left right).toNat 11 8 = 10 := by
    rw [toNat_bneBack, bits]
    omega
  have himm : Reference.immB (bneBack left right).toNat = -12 := by
    rw [Reference.immB, h12, h11, h5, h1]
    rfl
  rw [getBranchImm_eq, himm]
  rfl

/-! ## Halves of a counter -/

def highHalf (x : BitVec 64) : BitVec 32 := (x >>> 32).setWidth 32

def lowHalf (x : BitVec 64) : BitVec 32 := x.setWidth 32

/-- `(hi << 32) | lo` over `uint64_t`. -/
def combine (hi lo : BitVec 32) : BitVec 64 :=
  hi.setWidth 64 <<< 32 ||| lo.setWidth 64

theorem toNat_highHalf (x : BitVec 64) : (highHalf x).toNat = x.toNat / 2 ^ 32 := by
  have hx := x.isLt
  rw [highHalf, BitVec.toNat_setWidth, BitVec.toNat_ushiftRight,
    Nat.shiftRight_eq_div_pow]
  omega

/-- The two halves make up the 64-bit number. -/
theorem toNat_combine (hi lo : BitVec 32) :
    (combine hi lo).toNat = hi.toNat * 2 ^ 32 + lo.toNat := by
  have hhi := hi.isLt
  have hlo := lo.isLt
  have hshifted : (hi.setWidth 64 <<< 32).toNat = hi.toNat * 2 ^ 32 := by
    rw [BitVec.toNat_shiftLeft, BitVec.toNat_setWidth, Nat.shiftLeft_eq]
    omega
  have hplain : (lo.setWidth 64).toNat = lo.toNat := by
    rw [BitVec.toNat_setWidth]
    omega
  rw [combine, BitVec.toNat_or, hshifted, hplain]
  exact lor_eq_add_of_dvd (Dvd.intro_left _ rfl) hlo

theorem toNat_add_small (x : BitVec 64) (d : ℕ) :
    (x + BitVec.ofNat 64 d).toNat = (x.toNat + d) % 2 ^ 64 := by
  rw [BitVec.toNat_add, BitVec.toNat_ofNat]
  omega

/-- If the high half is the same before and after the low half is read, the two
halves belong together. -/
theorem combine_of_high_eq (x : BitVec 64) {d e : ℕ} (hde : d ≤ e) (he : e < 2 ^ 32)
    (hhigh : highHalf x = highHalf (x + BitVec.ofNat 64 e)) :
    combine (highHalf x) (lowHalf (x + BitVec.ofNat 64 d)) = x + BitVec.ofNat 64 d := by
  have hx := x.isLt
  have hequal := congrArg BitVec.toNat hhigh
  rw [toNat_highHalf, toNat_highHalf, toNat_add_small] at hequal
  apply BitVec.eq_of_toNat_eq
  rw [toNat_combine, toNat_highHalf, lowHalf, BitVec.toNat_setWidth,
    toNat_add_small]
  omega

/-- A carry into the high half leaves the low half too small for another one. -/
theorem high_eq_of_carry (x : BitVec 64) {d e f : ℕ} (hde : d ≤ e) (hef : e ≤ f)
    (hf : f < 2 ^ 32)
    (hcarry : highHalf x ≠ highHalf (x + BitVec.ofNat 64 d)) :
    highHalf (x + BitVec.ofNat 64 e) = highHalf (x + BitVec.ofNat 64 f) := by
  have hx := x.isLt
  have hne : x.toNat / 2 ^ 32 ≠ (x.toNat + d) % 2 ^ 64 / 2 ^ 32 := by
    intro hequal
    apply hcarry
    apply BitVec.eq_of_toNat_eq
    rw [toNat_highHalf, toNat_highHalf, toNat_add_small]
    exact hequal
  apply BitVec.eq_of_toNat_eq
  rw [toNat_highHalf, toNat_highHalf, toNat_add_small, toNat_add_small]
  omega

/-! ## Steps of the sequence -/

theorem isCsr_low (c : Counter) : IsCsr c.low := by
  unfold IsCsr
  cases c <;> decide

theorem isCsr_high (c : Counter) : IsCsr c.high := by
  unfold IsCsr
  cases c <;> decide

theorem readCsr_low (c : Counter) (s : Machine 32) :
    readCsr s c.low = lowHalf (c.value s) := by
  cases c <;> rfl

theorem readCsr_high (c : Counter) (s : Machine 32) :
    readCsr s c.high = highHalf (c.value s) := by
  cases c <;> rfl

/-- The fetch delays the cycle counter by at most one cycle. -/
theorem value_afterFetch (c : Counter) (s : Machine 32) :
    ∃ f ≤ 1, c.value (afterFetch s) = c.value s + BitVec.ofNat 64 f := by
  cases c with
  | cycle => exact ⟨_, readStalls_le s.cpu.pc memW, rfl⟩
  | instret => exact ⟨0, Nat.zero_le 1, (BitVec.add_zero _).symm⟩

/-- A CSR read without a source register: the register receives the CSR as it is
after the fetch. -/
theorem step_readCsr (m : Bool) {s : Machine 32} {raw csr : Word}
    (hreads : ReadsCsr raw csr) (hrs1 : getRs1 raw = 0)
    (hword : fetchedWord s.cpu = raw) :
    (step m s).cpu = nextCpu s.cpu (rd raw) (some (readCsr (afterFetch s) csr))
        (s.cpu.pc + 4) ∧
      ∀ c : Counter, c.value (step m s) = c.value (afterFetch s) + 1 := by
  have hclass : opClass 32 (getOpcode raw) = .sys := hreads.opClass_eq
  have hstalls := sysStalls_of_x0 (afterFetch s) hclass hrs1
  have hvalue := hreads.sysValue_eq (.inl rfl) (afterFetch s)
  rw [hstalls, advance_zero] at hvalue
  rw [step_of_word hword]
  simp only [effect, hclass, Effect.apply, skip, hvalue, hstalls, afterFetch_cpu, nextCpu]
  refine ⟨trivial, ?_⟩
  intro c
  cases c <;> rfl

theorem step_csrr (m : Bool) {s : Machine 32} {dest : Fin 32} {csr : Word}
    (hcsr : IsCsr csr) (hdest : dest ≠ 0) (hword : fetchedWord s.cpu = csrr dest csr) :
    (step m s).cpu = nextCpu s.cpu dest (some (readCsr (afterFetch s) csr))
        (s.cpu.pc + 4) ∧
      ∀ c : Counter, c.value (step m s) = c.value (afterFetch s) + 1 := by
  have hstep := step_readCsr m (readsCsr_csrr hcsr hdest) (getRs1_csrr dest hcsr) hword
  rwa [rd_csrr dest hcsr] at hstep

/-- The branch goes back to the first read if the two high halves differ. -/
theorem step_bneBack (m : Bool) {s : Machine 32} {left right : Fin 32}
    (hword : fetchedWord s.cpu = bneBack left right) :
    (step m s).cpu = nextCpu s.cpu (rd (bneBack left right)) none
        (if s.cpu.regfile left = s.cpu.regfile right then s.cpu.pc + 4
          else s.cpu.pc + -12) ∧
      ∀ c : Counter, ∃ d, 1 ≤ d ∧ d ≤ 5 ∧
        c.value (step m s) = c.value (afterFetch s) + BitVec.ofNat 64 d := by
  have hclass := opClass_bneBack left right
  constructor
  · rw [(step_branch (m := m) hword hclass).1, taken_bneBack, getBranchImm_bneBack]
    by_cases hequal : s.cpu.regfile left = s.cpu.regfile right
    · simp [hequal]
    · simp [hequal]
  · intro c
    rw [step_of_word hword]
    cases c with
    | cycle =>
        have hstalls := effect_stalls_le m (afterFetch s) (bneBack left right)
        have hbranch := branchStalls_le (afterFetch s).perfModel
          (decoded 32 (bneBack left right))
        exact ⟨_, Nat.le_add_left 1 _, by omega, rfl⟩
    | instret => exact ⟨1, le_refl 1, by norm_num, rfl⟩

/-! ## One pass -/

/-- The pc moves on inside mapped code. -/
theorem toNat_pc_next {pc : BitVec 32} {base i : ℕ} (hpc : pc.toNat = base + 4 * i)
    (hbound : base + 4 * i + 4 < 2 ^ 30) : (pc + 4).toNat = base + 4 * (i + 1) := by
  rw [BitVec.toNat_add, hpc]
  change (base + 4 * i + 4) % 2 ^ 32 = _
  omega

/-- A `csrr` inside held code. -/
theorem code_csrr (m : Bool) {s : Machine 32} {base i : ℕ} {words : List Word}
    {dest : Fin 32} {csr : Word} (hcsr : IsCsr csr) (hdest : dest ≠ 0)
    (hcode : HoldsCode s.cpu base words) (hpc : s.cpu.pc.toNat = base + 4 * i)
    (hword : words[i]? = some (csrr dest csr)) :
    HoldsCode (step m s).cpu base words ∧
      (step m s).cpu.pc.toNat = base + 4 * (i + 1) ∧
      (step m s).cpu = nextCpu s.cpu dest (some (readCsr (afterFetch s) csr))
        (s.cpu.pc + 4) ∧
      ∀ c : Counter, ∃ d, 1 ≤ d ∧ d ≤ 2 ∧
        c.value (afterFetch (step m s)) = c.value (afterFetch s) + BitVec.ofNat 64 d := by
  obtain ⟨hcpu, hvalue⟩ := step_csrr m hcsr hdest (hcode.fetchedWord i hpc hword)
  refine ⟨hcode.congr (by rw [hcpu, nextCpu_rom]) (by rw [hcpu, nextCpu_ram]), ?_,
    hcpu, ?_⟩
  · rw [hcpu]
    exact toNat_pc_next hpc (hcode.bound i hword)
  · intro c
    obtain ⟨f, hf, hfetch⟩ := value_afterFetch c (step m s)
    refine ⟨1 + f, by omega, by omega, ?_⟩
    rw [hfetch, hvalue, BitVec.ofNat_add, BitVec.add_assoc]
    rfl

/-- From the first instruction of the sequence in `s` to the end of the pass in
`s'`: the counter runs on by `d₁` until the low half is read, by `d₂` until the
second read of the high half and by `d₃` until the end of the pass. -/
structure Pass (m : Bool) (c : Counter) (hi lo : Fin 32) (s s' : Machine 32)
    (d₁ d₂ d₃ : ℕ) : Prop where
  bounds : d₁ ≤ d₂ ∧ d₂ ≤ d₃ ∧ d₃ ≤ 11
  memory : s'.cpu.rom = s.cpu.rom ∧ s'.cpu.ram = s.cpu.ram
  word : fetchedWord (step m s).cpu = csrr lo c.low
  value_low : c.value (afterFetch (step m s)) =
    c.value (afterFetch s) + BitVec.ofNat 64 d₁
  value_end : c.value s' = c.value (afterFetch s) + BitVec.ofNat 64 d₃
  hi : s'.cpu.regfile hi = highHalf (c.value (afterFetch s))
  lo : s'.cpu.regfile lo = lowHalf (c.value (afterFetch (step m s)))
  pc : s'.cpu.pc =
    if highHalf (c.value (afterFetch s)) =
        highHalf (c.value (afterFetch s) + BitVec.ofNat 64 d₂) then s.cpu.pc + 16
    else s.cpu.pc

/-- One pass through the four instructions reads the high half, the low half and the high
half again, with the counter moved on in between. -/
theorem pass (m : Bool) (c : Counter) {hi lo hi2 : Fin 32} {s : Machine 32}
    (hhi : hi ≠ 0) (hlo : lo ≠ 0) (hhi2 : hi2 ≠ 0)
    (hne : hi ≠ lo) (hne2 : hi ≠ hi2) (hne3 : lo ≠ hi2)
    (hcode : HoldsCode s.cpu s.cpu.pc.toNat (sequence c hi lo hi2)) :
    ∃ d₁ d₂ d₃, Pass m c hi lo s (step m (step m (step m (step m s)))) d₁ d₂ d₃ := by
  obtain ⟨hcode₁, hpc₁, hcpu₁, hvalue₁⟩ :=
    code_csrr m (isCsr_high c) hhi hcode (i := 0) rfl rfl
  obtain ⟨hcode₂, hpc₂, hcpu₂, hvalue₂⟩ :=
    code_csrr m (isCsr_low c) hlo hcode₁ hpc₁ rfl
  obtain ⟨hcode₃, hpc₃, hcpu₃, hvalue₃⟩ :=
    code_csrr m (isCsr_high c) hhi2 hcode₂ hpc₂ rfl
  have hword₄ : fetchedWord (step m (step m (step m s))).cpu = bneBack hi hi2 :=
    hcode₃.fetchedWord 3 hpc₃ rfl
  obtain ⟨hcpu₄, hvalue₄⟩ := step_bneBack m hword₄
  obtain ⟨e₁, hlow₁, hhigh₁, he₁⟩ := hvalue₁ c
  obtain ⟨e₂, hlow₂, hhigh₂, he₂⟩ := hvalue₂ c
  obtain ⟨e₃, hlow₃, hhigh₃, he₃⟩ := hvalue₃ c
  obtain ⟨e₄, hlow₄, hhigh₄, he₄⟩ := hvalue₄ c
  rw [readCsr_high] at hcpu₁ hcpu₃
  rw [readCsr_low] at hcpu₂
  have hregHi : (step m (step m (step m s))).cpu.regfile hi =
      highHalf (c.value (afterFetch s)) := by
    rw [hcpu₃, nextCpu_of_ne _ _ _ _ hhi hne2, hcpu₂, nextCpu_of_ne _ _ _ _ hhi hne,
      hcpu₁, nextCpu_self _ _ _ hhi]
  have hregLo : (step m (step m (step m s))).cpu.regfile lo =
      lowHalf (c.value (afterFetch (step m s))) := by
    rw [hcpu₃, nextCpu_of_ne _ _ _ _ hlo hne3, hcpu₂, nextCpu_self _ _ _ hlo]
  have hregHi2 : (step m (step m (step m s))).cpu.regfile hi2 =
      highHalf (c.value (afterFetch s) + BitVec.ofNat 64 (e₁ + e₂)) := by
    rw [hcpu₃, nextCpu_self _ _ _ hhi2, he₂, he₁, BitVec.ofNat_add, BitVec.add_assoc]
  have hpc : (step m (step m (step m s))).cpu.pc = s.cpu.pc + 12 := by
    rw [hcpu₃, nextCpu_pc, hcpu₂, nextCpu_pc, hcpu₁, nextCpu_pc, BitVec.add_assoc,
      BitVec.add_assoc]
    rfl
  refine ⟨e₁, e₁ + e₂, e₁ + e₂ + e₃ + e₄, ⟨by omega, by omega, by omega⟩, ?_,
    hcode₁.fetchedWord 1 hpc₁ rfl, he₁, ?_, ?_, ?_, ?_⟩
  · rw [hcpu₄, hcpu₃, hcpu₂, hcpu₁]
    exact ⟨rfl, rfl⟩
  · rw [he₄, he₃, he₂, he₁]
    simp only [BitVec.ofNat_add, BitVec.add_assoc]
  · rw [hcpu₄, nextCpu_none _ _ _ hhi, hregHi]
  · rw [hcpu₄, nextCpu_none _ _ _ hlo, hregLo]
  · rw [hcpu₄, nextCpu_pc, hregHi, hregHi2, hpc, BitVec.add_assoc, BitVec.add_assoc]
    split
    · rfl
    · exact BitVec.add_zero _

/-- Every choice of registers, counter value, hazard record and place in memory:
the sequence is left after one or two passes, and the two halves returned are the
value the counter had at the read of its low half in the last pass. -/
theorem counter_read (m : Bool) (c : Counter) (s : Machine 32) (hi lo hi2 : Fin 32)
    (hnonzero : hi ≠ 0 ∧ lo ≠ 0 ∧ hi2 ≠ 0)
    (hdistinct : hi ≠ lo ∧ hi ≠ hi2 ∧ lo ≠ hi2)
    (hcode : HoldsCode s.cpu s.cpu.pc.toNat (sequence c hi lo hi2)) :
    ∃ passes t t' s', (passes = 1 ∨ passes = 2) ∧
      runSteps m (4 * (passes - 1) + 1) s = some t ∧
      fetch t = some (t', csrr lo c.low) ∧
      runSteps m (4 * passes) s = some s' ∧
      s'.cpu.pc = s.cpu.pc + 16 ∧
      combine (s'.cpu.regfile hi) (s'.cpu.regfile lo) = c.value t' := by
  obtain ⟨hhi, hlo, hhi2⟩ := hnonzero
  obtain ⟨hne, hne2, hne3⟩ := hdistinct
  obtain ⟨d₁, d₂, d₃, hfirst⟩ := pass m c hhi hlo hhi2 hne hne2 hne3 hcode
  obtain ⟨hd₁, hd₂, hd₃⟩ := hfirst.bounds
  simp only [runSteps_eq (.inl rfl), fetch_eq (.inl rfl), Option.some.injEq,
    Prod.mk.injEq]
  by_cases hhigh : highHalf (c.value (afterFetch s)) =
      highHalf (c.value (afterFetch s) + BitVec.ofNat 64 d₂)
  · refine ⟨1, step m s, _, _, .inl rfl, rfl, ⟨rfl, hfirst.word⟩, rfl, ?_, ?_⟩
    · exact hfirst.pc.trans (if_pos hhigh)
    · have hvalue := combine_of_high_eq _ hd₁ (by omega) hhigh
      rw [← hfirst.value_low, ← hfirst.lo, ← hfirst.hi] at hvalue
      exact hvalue
  · have hback := hfirst.pc.trans (if_neg hhigh)
    have hcode' := hcode.congr hfirst.memory.1.symm hfirst.memory.2.symm
    rw [← hback] at hcode'
    obtain ⟨e₁, e₂, e₃, hsecond⟩ := pass m c hhi hlo hhi2 hne hne2 hne3 hcode'
    obtain ⟨he₁, he₂, he₃⟩ := hsecond.bounds
    obtain ⟨f, hf, hfetch⟩ := value_afterFetch c (step m (step m (step m (step m s))))
    rw [hfirst.value_end, BitVec.add_assoc, ← BitVec.ofNat_add] at hfetch
    have hagain : highHalf (c.value (afterFetch (step m (step m (step m (step m s)))))) =
        highHalf (c.value (afterFetch (step m (step m (step m (step m s)))))
          + BitVec.ofNat 64 e₂) := by
      rw [hfetch, BitVec.add_assoc, ← BitVec.ofNat_add]
      exact high_eq_of_carry _ (by omega) (by omega) (by omega) hhigh
    refine ⟨2, step m (step m (step m (step m (step m s)))), _, _, .inr rfl, rfl,
      ⟨rfl, hsecond.word⟩, rfl, ?_, ?_⟩
    · rw [← hback]
      exact hsecond.pc.trans (if_pos hagain)
    · have hvalue := combine_of_high_eq _ he₁ (by omega) hagain
      rw [← hsecond.value_low, ← hsecond.lo, ← hsecond.hi] at hvalue
      exact hvalue

/-- The cycle counter just below a carry, after a load into a register that the
sequence uses. -/
def carryMachine : Machine 32 :=
  { initMachine 32 (romOfWords (sequence .cycle 5 6 7)) with
    mcycle := 0xFFFFFFFF
    perfModel := ⟨5, 6, true, true, true⟩ }

theorem counter_read_carry : ∃ passes t t' s', (passes = 1 ∨ passes = 2) ∧
    runSteps true (4 * (passes - 1) + 1) carryMachine = some t ∧
    fetch t = some (t', csrr 6 csrMcycle) ∧
    runSteps true (4 * passes) carryMachine = some s' ∧
    s'.cpu.pc = 16 ∧
    combine (s'.cpu.regfile 5) (s'.cpu.regfile 6) = t'.mcycle :=
  counter_read true .cycle carryMachine 5 6 7 (by decide) (by decide)
    (holdsCode_romOfWords rfl (by norm_num [sequence, romSize]))

end Rvem.CounterRead
