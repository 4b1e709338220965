import Rvem.Isa.Decoding

/-!
# The immediate decoders

Each decoder of `riscv.h` reads exactly the immediate bits of its format, in both
builds: it is a bijection between these bits and the range of the format.  Every decoder
is the sign extension of a field packed from the bits of its format.  From that follow
the range and the step of the immediates, that every value in the range is reached, and
that no other bit of the word matters.
-/

namespace Rvem.Immediates

open Rvem.Arch
open Rvem.Decoding
open Rvem.Reference (signExtend bits immI immS immB immU immJ)

variable {w : ℕ}

/-! ## Signed fields -/

theorem signExtend_bounds {m v : ℕ} (hm : 0 < m) (hv : v < 2 ^ m) :
    -2 ^ (m - 1) ≤ signExtend m v ∧ signExtend m v < 2 ^ (m - 1) := by
  obtain ⟨k, rfl⟩ := Nat.exists_eq_add_of_lt hm
  simp only [zero_add, Nat.add_sub_cancel, signExtend, pow_succ] at hv ⊢
  have hcast : (v : ℤ) < 2 ^ k * 2 := by exact_mod_cast hv
  by_cases hsmall : v < 2 ^ k
  · have hcastSmall : (v : ℤ) < 2 ^ k := by exact_mod_cast hsmall
    rw [if_pos hsmall]
    omega
  · have hcastLarge : (2 : ℤ) ^ k ≤ v := by exact_mod_cast not_lt.mp hsmall
    rw [if_neg hsmall]
    omega

theorem signExtend_neg_iff {m v : ℕ} (hv : v < 2 ^ m) :
    signExtend m v < 0 ↔ 2 ^ (m - 1) ≤ v := by
  have hcast : (v : ℤ) < 2 ^ m := by exact_mod_cast hv
  rw [signExtend]
  split
  · next hsmall => omega
  · next hlarge => omega

/-- The field is the value modulo `2 ^ m`. -/
theorem signExtend_emod {m v : ℕ} (hv : v < 2 ^ m) : signExtend m v % 2 ^ m = v := by
  have hcast : (v : ℤ) < 2 ^ m := by exact_mod_cast hv
  rw [signExtend]
  split
  · exact Int.emod_eq_of_lt (by omega) hcast
  · rw [Int.sub_emod_right, Int.emod_eq_of_lt (by omega) hcast]

theorem signExtend_inj {m u v : ℕ} (hu : u < 2 ^ m) (hv : v < 2 ^ m) :
    signExtend m u = signExtend m v ↔ u = v := by
  constructor
  · intro hequal
    have hmod := signExtend_emod hu
    rw [hequal, signExtend_emod hv] at hmod
    exact_mod_cast hmod.symm
  · exact congrArg (signExtend m)

/-- Every value in the range of an `m`-bit field is the value of its residue. -/
theorem signExtend_toNat_emod {m : ℕ} {z : ℤ} (hm : 0 < m) (hlow : -2 ^ (m - 1) ≤ z)
    (hhigh : z < 2 ^ (m - 1)) : signExtend m (z % 2 ^ m).toNat = z := by
  obtain ⟨k, rfl⟩ := Nat.exists_eq_add_of_lt hm
  simp only [zero_add, Nat.add_sub_cancel, signExtend, pow_succ] at hlow hhigh ⊢
  have hpos : (0 : ℤ) < 2 ^ k := by positivity
  have hcast : ((2 ^ k : ℕ) : ℤ) = 2 ^ k := by push_cast; rfl
  by_cases hneg : z < 0
  · have hmod : z % (2 ^ k * 2) = z + 2 ^ k * 2 := by
      rw [← Int.add_emod_right, Int.emod_eq_of_lt (by omega) (by omega)]
    rw [hmod, if_neg (by omega)]
    omega
  · have hmod : z % (2 ^ k * 2) = z := Int.emod_eq_of_lt (by omega) (by omega)
    rw [hmod, if_pos (by omega)]
    omega

/-! ## Formats -/

/-- An immediate decoder, the bits its format stores the immediate in, and the range
of the format. -/
structure ImmFormat (w : ℕ) where
  decode : Word → BitVec w
  mask : Word
  step : ℕ
  low : ℤ
  high : ℤ

/-- The five decoders with the bits and ranges of the B, J, S, I and U formats. -/
def immFormats (w : ℕ) : List (ImmFormat w) :=
  [⟨getBranchImm w, 0xFE000F80, 2, -4096, 4094⟩,
   ⟨getJalImm w, 0xFFFFF000, 2, -2 ^ 20, 2 ^ 20 - 2⟩,
   ⟨getStoreImm w, 0xFE000F80, 1, -2048, 2047⟩,
   ⟨getSimm12 w, 0xFFF00000, 1, -2048, 2047⟩,
   ⟨getSimm20 w, 0xFFFFF000, 4096, -2 ^ 31, 2 ^ 31 - 4096⟩]

/-- The decoder depends on the immediate bits only, tells any two settings of them
apart, and takes exactly the values in range; bit 31 is the sign. -/
structure ImmFormat.Exact (f : ImmFormat w) : Prop where
  eq_iff : ∀ x y, f.decode x = f.decode y ↔ x &&& f.mask = y &&& f.mask
  image : ∀ z, (∃ x, (f.decode x).toInt = z) ↔ (f.step : ℤ) ∣ z ∧ f.low ≤ z ∧ z ≤ f.high
  bijOn : Set.BijOn (fun x => (f.decode x).toInt) {x | x &&& f.mask = x}
    {z | (f.step : ℤ) ∣ z ∧ f.low ≤ z ∧ z ≤ f.high}
  sign : ∀ x, (f.decode x).toInt < 0 ↔ x.msb = true

/-- An `m`-bit signed field, packed into the masked bits in some order. -/
structure ImmFormat.Packs (f : ImmFormat w) (m : ℕ) (field : ℕ → ℕ) : Prop where
  pos : 0 < m
  value : ∀ x : Word, (f.decode x).toInt = signExtend m (field x.toNat)
  lt : ∀ n < 2 ^ 32, field n < 2 ^ m
  eq_iff : ∀ x y : Word, field x.toNat = field y.toNat ↔ x &&& f.mask = y &&& f.mask
  image : ∀ v < 2 ^ m, (∃ n < 2 ^ 32, field n = v) ↔ f.step ∣ v
  sign : ∀ n < 2 ^ 32, 2 ^ (m - 1) ≤ field n ↔ 2 ^ 31 ≤ n
  step : f.step ∣ 2 ^ (m - 1)
  step_pos : 0 < f.step
  low : f.low = -2 ^ (m - 1)
  high : f.high = 2 ^ (m - 1) - f.step

/-- Below a multiple of the step, a multiple of the step is a whole step below. -/
theorem le_sub_step {step : ℕ} {z bound : ℤ} (hz : (step : ℤ) ∣ z)
    (hbound : (step : ℤ) ∣ bound) (hlt : z < bound) : z ≤ bound - step := by
  obtain ⟨a, rfl⟩ := hz
  obtain ⟨b, rfl⟩ := hbound
  have hab : a < b := lt_of_mul_lt_mul_left hlt (Int.natCast_nonneg step)
  calc
    (step : ℤ) * a ≤ step * (b - 1) := by gcongr; omega
    _ = step * b - step := by ring

section Packs

variable {f : ImmFormat w} {m : ℕ} {field : ℕ → ℕ} (hpacks : f.Packs m field)

include hpacks

theorem ImmFormat.Packs.step_dvd_half : (f.step : ℤ) ∣ 2 ^ (m - 1) := by
  exact_mod_cast hpacks.step

theorem ImmFormat.Packs.step_dvd_full : (f.step : ℤ) ∣ 2 ^ m :=
  hpacks.step_dvd_half.trans (pow_dvd_pow 2 (Nat.sub_le m 1))

/-- Every immediate decoded is a multiple of the step within the range of its format. -/
theorem ImmFormat.Packs.in_range (x : Word) :
    (f.step : ℤ) ∣ (f.decode x).toInt ∧ f.low ≤ (f.decode x).toInt ∧
      (f.decode x).toInt ≤ f.high := by
  have hlt := hpacks.lt _ x.isLt
  have hfield : (f.step : ℤ) ∣ field x.toNat := by
    exact_mod_cast (hpacks.image _ hlt).mp ⟨_, x.isLt, rfl⟩
  have hstep : (f.step : ℤ) ∣ signExtend m (field x.toNat) := by
    rw [signExtend]
    split
    · exact hfield
    · exact dvd_sub hfield hpacks.step_dvd_full
  obtain ⟨hlow, hhigh⟩ := signExtend_bounds hpacks.pos hlt
  rw [hpacks.value, hpacks.low, hpacks.high]
  exact ⟨hstep, hlow, le_sub_step hstep hpacks.step_dvd_half hhigh⟩

/-- Every multiple of the step within the range is the immediate of some word. -/
theorem ImmFormat.Packs.reaches {z : ℤ} (hstep : (f.step : ℤ) ∣ z) (hlow : f.low ≤ z)
    (hhigh : z ≤ f.high) : ∃ x, (f.decode x).toInt = z := by
  have hpos := hpacks.step_pos
  rw [hpacks.low] at hlow
  rw [hpacks.high] at hhigh
  have hnonneg : 0 ≤ z % 2 ^ m := Int.emod_nonneg z (by positivity)
  have hresidue : ((z % 2 ^ m).toNat : ℤ) = z % 2 ^ m := Int.toNat_of_nonneg hnonneg
  have hlt : (z % 2 ^ m).toNat < 2 ^ m := by
    have hmod := Int.emod_lt_of_pos z (show (0 : ℤ) < 2 ^ m by positivity)
    zify
    rwa [hresidue]
  have hdvd : f.step ∣ (z % 2 ^ m).toNat := by
    zify
    rw [hresidue]
    exact (EuclideanDomain.dvd_mod_iff hpacks.step_dvd_full).mpr hstep
  obtain ⟨n, hn, hfield⟩ := (hpacks.image _ hlt).mpr hdvd
  refine ⟨BitVec.ofNat 32 n, ?_⟩
  rw [hpacks.value, BitVec.toNat_ofNat, Nat.mod_eq_of_lt hn, hfield]
  exact signExtend_toNat_emod hpacks.pos hlow (by omega)

/-- Two words have the same immediate exactly if they agree on the bits of the format. -/
theorem ImmFormat.Packs.decode_eq_iff (x y : Word) :
    f.decode x = f.decode y ↔ x &&& f.mask = y &&& f.mask := by
  rw [← BitVec.toInt_inj, hpacks.value, hpacks.value,
    signExtend_inj (hpacks.lt _ x.isLt) (hpacks.lt _ y.isLt)]
  exact hpacks.eq_iff x y

/-- A decoder that sign extends a field packed from the bits of its format is exact. -/
theorem ImmFormat.Packs.exact : f.Exact where
  eq_iff := hpacks.decode_eq_iff
  image := by
    intro z
    constructor
    · rintro ⟨x, rfl⟩
      exact hpacks.in_range x
    · rintro ⟨hstep, hlow, hhigh⟩
      exact hpacks.reaches hstep hlow hhigh
  bijOn := by
    refine ⟨fun x _ => hpacks.in_range x, ?_, ?_⟩
    · intro x hx y hy hequal
      have hmasked := (hpacks.decode_eq_iff x y).mp (BitVec.toInt_inj.mp hequal)
      rwa [hx, hy] at hmasked
    · rintro z ⟨hstep, hlow, hhigh⟩
      obtain ⟨x, rfl⟩ := hpacks.reaches hstep hlow hhigh
      have hidem : x &&& f.mask &&& f.mask = x &&& f.mask := by
        rw [BitVec.and_assoc, BitVec.and_self]
      exact ⟨x &&& f.mask, hidem, congrArg _ ((hpacks.decode_eq_iff _ _).mpr hidem)⟩
  sign := by
    intro x
    rw [hpacks.value, signExtend_neg_iff (hpacks.lt _ x.isLt), hpacks.sign _ x.isLt,
      BitVec.msb_eq_decide, decide_eq_true_iff]

end Packs

/-! ## The packing of each format -/

/-- An immediate that fits keeps its value in a register. -/
theorem toInt_decoded {m v : ℕ} (hm : 0 < m) (hmw : m ≤ w) (hv : v < 2 ^ m) :
    (BitVec.ofInt w (signExtend m v)).toInt = signExtend m v := by
  obtain ⟨hlow, hhigh⟩ := signExtend_bounds hm hv
  have hpow : (2 : ℤ) ^ (m - 1) ≤ 2 ^ (w - 1) :=
    pow_le_pow_right₀ (by norm_num) (by omega)
  exact BitVec.toInt_ofInt_eq_self (by omega) (by omega) (by omega)

def fieldI (n : ℕ) : ℕ := bits n 31 20

def fieldS (n : ℕ) : ℕ := bits n 31 25 * 2 ^ 5 + bits n 11 7

def fieldB (n : ℕ) : ℕ :=
  bits n 31 31 * 2 ^ 12 + bits n 7 7 * 2 ^ 11 + bits n 30 25 * 2 ^ 5 + bits n 11 8 * 2

def fieldJ (n : ℕ) : ℕ :=
  bits n 31 31 * 2 ^ 20 + bits n 19 12 * 2 ^ 12 + bits n 20 20 * 2 ^ 11 + bits n 30 21 * 2

def fieldU (n : ℕ) : ℕ := bits n 31 12 * 2 ^ 12

theorem bits_lt (n high low : ℕ) : bits n high low < 2 ^ (high + 1 - low) :=
  Nat.mod_lt _ (by positivity)

/-- The word with the given pieces of a B immediate. -/
theorem fieldB_pack {a b c d : ℕ} (ha : a < 2) (hb : b < 2 ^ 6) (hc : c < 2 ^ 4)
    (hd : d < 2) :
    fieldB (a * 2 ^ 31 + b * 2 ^ 25 + c * 2 ^ 8 + d * 2 ^ 7) =
      a * 2 ^ 12 + d * 2 ^ 11 + b * 2 ^ 5 + c * 2 := by
  obtain ⟨n, hn⟩ : ∃ n, n = a * 2 ^ 31 + b * 2 ^ 25 + c * 2 ^ 8 + d * 2 ^ 7 := ⟨_, rfl⟩
  have h12 : bits n 31 31 = a := by simp only [bits]; omega
  have h11 : bits n 7 7 = d := by simp only [bits]; omega
  have h5 : bits n 30 25 = b := by simp only [bits]; omega
  have h1 : bits n 11 8 = c := by simp only [bits]; omega
  rw [← hn, fieldB, h12, h11, h5, h1]

/-- The word with the given pieces of a J immediate. -/
theorem fieldJ_pack {a b c d : ℕ} (ha : a < 2) (hb : b < 2 ^ 10) (hc : c < 2)
    (hd : d < 2 ^ 8) :
    fieldJ (a * 2 ^ 31 + b * 2 ^ 21 + c * 2 ^ 20 + d * 2 ^ 12) =
      a * 2 ^ 20 + d * 2 ^ 12 + c * 2 ^ 11 + b * 2 := by
  obtain ⟨n, hn⟩ : ∃ n, n = a * 2 ^ 31 + b * 2 ^ 21 + c * 2 ^ 20 + d * 2 ^ 12 := ⟨_, rfl⟩
  have h20 : bits n 31 31 = a := by simp only [bits]; omega
  have h12 : bits n 19 12 = d := by simp only [bits]; omega
  have h11 : bits n 20 20 = c := by simp only [bits]; omega
  have h1 : bits n 30 21 = b := by simp only [bits]; omega
  rw [← hn, fieldJ, h20, h12, h11, h1]

/-- The pieces of a B immediate make up the two masked parts of the word. -/
theorem masked_of_pieces {n : ℕ} (hn : n < 2 ^ 32) :
    n / 2 ^ 25 * 2 ^ 25 + n / 2 ^ 7 % 2 ^ 5 * 2 ^ 7 =
      (bits n 31 31 * 2 ^ 6 + bits n 30 25) * 2 ^ 25
        + (bits n 11 8 * 2 + bits n 7 7) * 2 ^ 7 := by
  have hhigh : n / 2 ^ 25 = bits n 31 31 * 2 ^ 6 + bits n 30 25 := by
    simp only [bits]
    omega
  have hlow : n / 2 ^ 7 % 2 ^ 5 = bits n 11 8 * 2 + bits n 7 7 := by
    simp only [bits]
    omega
  rw [hhigh, hlow]

theorem fieldB_eq_iff {x y : ℕ} (hx : x < 2 ^ 32) (hy : y < 2 ^ 32) :
    fieldB x = fieldB y ↔ x / 2 ^ 25 * 2 ^ 25 + x / 2 ^ 7 % 2 ^ 5 * 2 ^ 7 =
      y / 2 ^ 25 * 2 ^ 25 + y / 2 ^ 7 % 2 ^ 5 * 2 ^ 7 := by
  have hx25 := bits_lt x 30 25
  have hx8 := bits_lt x 11 8
  have hx7 := bits_lt x 7 7
  have hy25 := bits_lt y 30 25
  have hy8 := bits_lt y 11 8
  have hy7 := bits_lt y 7 7
  rw [masked_of_pieces hx, masked_of_pieces hy, fieldB, fieldB]
  omega

/-- The pieces of a J immediate make up the upper twenty bits of the word. -/
theorem upper_of_pieces {n : ℕ} (hn : n < 2 ^ 32) :
    n / 2 ^ 12 % 2 ^ 20 = bits n 31 31 * 2 ^ 19 + bits n 30 21 * 2 ^ 9
      + bits n 20 20 * 2 ^ 8 + bits n 19 12 := by
  simp only [bits]
  omega

theorem fieldJ_eq_iff {x y : ℕ} (hx : x < 2 ^ 32) (hy : y < 2 ^ 32) :
    fieldJ x = fieldJ y ↔
      x / 2 ^ 12 % 2 ^ 20 * 2 ^ 12 = y / 2 ^ 12 % 2 ^ 20 * 2 ^ 12 := by
  have hx21 := bits_lt x 30 21
  have hx20 := bits_lt x 20 20
  have hx12 := bits_lt x 19 12
  have hy21 := bits_lt y 30 21
  have hy20 := bits_lt y 20 20
  have hy12 := bits_lt y 19 12
  rw [upper_of_pieces hx, upper_of_pieces hy, fieldJ, fieldJ]
  omega

theorem and_eq_and_iff (x y mask : Word) :
    x &&& mask = y &&& mask ↔ (x &&& mask).toNat = (y &&& mask).toNat :=
  BitVec.toNat_eq

/-- The immediate bits of the B and S formats. -/
theorem toNat_mask_split (x : Word) :
    (x &&& (0xFE000F80 : Word)).toNat =
      x.toNat / 2 ^ 25 * 2 ^ 25 + x.toNat / 2 ^ 7 % 2 ^ 5 * 2 ^ 7 := by
  have hx := x.isLt
  have hsplit : (0xFE000F80 : Word) = 0xFE000000#32 ||| 0xF80#32 := by decide
  have hhigh := toNat_mask x 0xFE000000#32 25 7 rfl
  have hlow := toNat_mask x 0xF80#32 7 5 rfl
  have hdistrib : x &&& (0xFE000000#32 ||| 0xF80#32) =
      (x &&& 0xFE000000#32) ||| (x &&& 0xF80#32) := by
    ext i
    simp only [BitVec.getElem_and, BitVec.getElem_or, Bool.and_or_distrib_left]
  rw [hsplit, hdistrib, toNat_or_of_dvd 25 (by omega) (by omega), hhigh, hlow]
  omega

theorem packs_getSimm12 (hw : 32 ≤ w) :
    ImmFormat.Packs ⟨getSimm12 w, 0xFFF00000, 1, -2048, 2047⟩ 12 fieldI where
  pos := by norm_num
  value := by
    intro x
    change (getSimm12 w x).toInt = signExtend _ _
    rw [getSimm12_eq]
    apply toInt_decoded (by norm_num) (by omega)
    simp only [bits]
    omega
  lt := by
    intro n hn
    simp only [fieldI, bits]
    omega
  eq_iff := by
    intro x y
    rw [and_eq_and_iff, toNat_mask x _ 20 12 rfl, toNat_mask y _ 20 12 rfl]
    simp only [fieldI, bits]
    omega
  image := by
    intro v hv
    refine ⟨fun _ => one_dvd v, fun _ => ⟨v * 2 ^ 20, by omega, ?_⟩⟩
    simp only [fieldI, bits]
    omega
  sign := by
    intro n hn
    simp only [fieldI, bits]
    omega
  step := one_dvd _
  step_pos := one_pos
  low := by norm_num
  high := by norm_num

theorem packs_getStoreImm (hw : 32 ≤ w) :
    ImmFormat.Packs ⟨getStoreImm w, 0xFE000F80, 1, -2048, 2047⟩ 12 fieldS where
  pos := by norm_num
  value := by
    intro x
    change (getStoreImm w x).toInt = signExtend _ _
    rw [getStoreImm_eq]
    apply toInt_decoded (by norm_num) (by omega)
    simp only [bits]
    omega
  lt := by
    intro n hn
    simp only [fieldS, bits]
    omega
  eq_iff := by
    intro x y
    change fieldS x.toNat = fieldS y.toNat ↔
      x &&& (0xFE000F80 : Word) = y &&& (0xFE000F80 : Word)
    rw [and_eq_and_iff, toNat_mask_split, toNat_mask_split]
    simp only [fieldS, bits]
    omega
  image := by
    intro v hv
    refine ⟨fun _ => one_dvd v,
      fun _ => ⟨v / 2 ^ 5 * 2 ^ 25 + v % 2 ^ 5 * 2 ^ 7, by omega, ?_⟩⟩
    simp only [fieldS, bits]
    omega
  sign := by
    intro n hn
    have hhigh : bits n 31 25 = n / 2 ^ 25 := by simp only [bits]; omega
    have hlow := bits_lt n 11 7
    rw [fieldS, hhigh]
    omega
  step := one_dvd _
  step_pos := one_pos
  low := by norm_num
  high := by norm_num

theorem packs_getBranchImm (hw : 32 ≤ w) :
    ImmFormat.Packs ⟨getBranchImm w, 0xFE000F80, 2, -4096, 4094⟩ 13 fieldB where
  pos := by norm_num
  value := by
    intro x
    change (getBranchImm w x).toInt = signExtend _ _
    rw [getBranchImm_eq]
    apply toInt_decoded (by norm_num) (by omega)
    simp only [bits]
    omega
  lt := by
    intro n hn
    simp only [fieldB, bits]
    omega
  eq_iff := by
    intro x y
    change fieldB x.toNat = fieldB y.toNat ↔
      x &&& (0xFE000F80 : Word) = y &&& (0xFE000F80 : Word)
    rw [and_eq_and_iff, toNat_mask_split, toNat_mask_split]
    exact fieldB_eq_iff x.isLt y.isLt
  image := by
    intro v hv
    change (∃ n < 2 ^ 32, fieldB n = v) ↔ 2 ∣ v
    constructor
    · rintro ⟨n, -, rfl⟩
      simp only [fieldB]
      omega
    · intro hdvd
      refine ⟨v / 2 ^ 12 * 2 ^ 31 + v / 2 ^ 5 % 2 ^ 6 * 2 ^ 25 + v / 2 % 2 ^ 4 * 2 ^ 8
        + v / 2 ^ 11 % 2 * 2 ^ 7, by omega, ?_⟩
      rw [fieldB_pack (by omega) (by omega) (by omega) (by omega)]
      omega
  sign := by
    intro n hn
    simp only [fieldB, bits]
    omega
  step := by norm_num
  step_pos := by norm_num
  low := by norm_num
  high := by norm_num

theorem packs_getJalImm (hw : 32 ≤ w) :
    ImmFormat.Packs ⟨getJalImm w, 0xFFFFF000, 2, -2 ^ 20, 2 ^ 20 - 2⟩ 21 fieldJ where
  pos := by norm_num
  value := by
    intro x
    change (getJalImm w x).toInt = signExtend _ _
    rw [getJalImm_eq]
    apply toInt_decoded (by norm_num) (by omega)
    simp only [bits]
    omega
  lt := by
    intro n hn
    have h20 := bits_lt n 31 31
    have h12 := bits_lt n 19 12
    have h11 := bits_lt n 20 20
    have h1 := bits_lt n 30 21
    rw [fieldJ]
    omega
  eq_iff := by
    intro x y
    rw [and_eq_and_iff, toNat_mask x _ 12 20 rfl, toNat_mask y _ 12 20 rfl]
    exact fieldJ_eq_iff x.isLt y.isLt
  image := by
    intro v hv
    change (∃ n < 2 ^ 32, fieldJ n = v) ↔ 2 ∣ v
    constructor
    · rintro ⟨n, -, rfl⟩
      simp only [fieldJ]
      omega
    · intro hdvd
      refine ⟨v / 2 ^ 20 * 2 ^ 31 + v / 2 % 2 ^ 10 * 2 ^ 21 + v / 2 ^ 11 % 2 * 2 ^ 20
        + v / 2 ^ 12 % 2 ^ 8 * 2 ^ 12, by omega, ?_⟩
      rw [fieldJ_pack (by omega) (by omega) (by omega) (by omega)]
      omega
  sign := by
    intro n hn
    simp only [fieldJ, bits]
    omega
  step := by norm_num
  step_pos := by norm_num
  low := by norm_num
  high := by norm_num

theorem packs_getSimm20 (hw : 32 ≤ w) :
    ImmFormat.Packs ⟨getSimm20 w, 0xFFFFF000, 4096, -2 ^ 31,
      2 ^ 31 - 4096⟩ 32 fieldU where
  pos := by norm_num
  value := by
    intro x
    change (getSimm20 w x).toInt = signExtend 32 (Reference.immU x.toNat)
    rw [getSimm20_eq]
    apply toInt_decoded (by norm_num) hw
    simp only [immU, bits]
    omega
  lt := by
    intro n hn
    simp only [fieldU, bits]
    omega
  eq_iff := by
    intro x y
    rw [and_eq_and_iff, toNat_mask x _ 12 20 rfl, toNat_mask y _ 12 20 rfl]
    rfl
  image := by
    intro v hv
    change (∃ n < 2 ^ 32, fieldU n = v) ↔ 4096 ∣ v
    constructor
    · rintro ⟨n, -, rfl⟩
      exact Dvd.intro_left _ rfl
    · rintro ⟨u, rfl⟩
      refine ⟨4096 * u, hv, ?_⟩
      simp only [fieldU, bits]
      omega
  sign := by
    intro n hn
    simp only [fieldU, bits]
    omega
  step := by norm_num
  step_pos := by norm_num
  low := by norm_num
  high := by norm_num

/-- In every build, all five decoders are bijections between the immediate bits of
their format and its range. -/
theorem immediates_exact (b : Build) : (immFormats b.xlen).Forall ImmFormat.Exact := by
  have hw : 32 ≤ b.xlen := by
    rcases b.xlen_eq with hxlen | hxlen <;> omega
  exact ⟨(packs_getBranchImm hw).exact, (packs_getJalImm hw).exact,
    (packs_getStoreImm hw).exact, (packs_getSimm12 hw).exact, (packs_getSimm20 hw).exact⟩

end Rvem.Immediates
