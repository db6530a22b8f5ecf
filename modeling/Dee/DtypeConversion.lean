import Dee.BinaryFloat
import Dee.MoeShard

/-! The conversions between the dtypes of the shards and float32. BF16 is converted exactly, and
the generator of the test shards rounds toward zero; F16 is converted exactly but for the
subnormal numbers, whose exponent gets the wrong sign. -/
namespace Dee
open BinaryFloat

/-- `while ((mant & 0x400) == 0) { mant <<= 1; --e; }` -/
def normalizeMant : ℕ → UInt32 → ℤ → Option (UInt32 × ℤ)
  | 0, _, _ => none
  | n + 1, mant, e =>
    if mant &&& 0x400 = 0 then normalizeMant n (mant <<< 1) (e - 1) else some (mant, e)

/-- `(sign << 31) | (exp << 23) | (mant << 13)` -/
def packF32 (sign exp mant : UInt32) : UInt32 := (sign <<< 31) ||| (exp <<< 23) ||| (mant <<< 13)

/-- A half word as a float32, given by its bit pattern; `none` for a loop that goes on. -/
def f16ToF32 (h : UInt16) : Option UInt32 :=
  let sign := (h.toUInt32 >>> 15) &&& 0x1
  let exp := (h.toUInt32 >>> 10) &&& 0x1f
  let mant := h.toUInt32 &&& 0x3ff
  if exp = 0 then
    if mant = 0 then some (sign <<< 31)
    else (normalizeMant 32 mant 0).map fun r =>
      packF32 sign (UInt32.ofInt (127 - 15 - r.2)) (r.1 &&& 0x3ff)
  else if exp = 0x1f then some (packF32 sign 0xff mant)
  else some (packF32 sign (exp - 15 + 127) mant)

def f32 : Format := ⟨8, 23⟩

def bf16 : Format := ⟨8, 7⟩

def f16 : Format := ⟨5, 10⟩

/-! BF16 -/

theorem toNat_bf16ToF32 (h : UInt16) : (bf16ToF32 h).toNat = h.toNat * 2 ^ 16 := by
  have hlt := h.toNat_lt
  have h16 : (16 : UInt32).toNat % 32 = 16 := rfl
  simp only [bf16ToF32, UInt32.toNat_shiftLeft, UInt16.toNat_toUInt32, h16, Nat.shiftLeft_eq]
  omega

/-- Every BF16 number is a float32. -/
theorem value_bf16ToF32 (h : UInt16) : f32.value (bf16ToF32 h).toNat = bf16.value h.toNat := by
  rw [toNat_bf16ToF32]
  exact bf16.value_widen 16 h.toNat

/-- What the generator writes for a finite number and the engine reads back: the number rounded
toward zero, the BF16 number of largest magnitude among those that are not beyond it. -/
theorem f32ToBf16_rounds_toward_zero (u : UInt32) (hu : f32.Finite u.toNat) :
    f32.value (bf16ToF32 (f32ToBf16 u)).toNat =
      .finite (f32.negative u.toNat) (bf16.magnitude (f32ToBf16 u).toNat) ∧
    ∀ h : UInt16, bf16.magnitude h.toNat ≤ f32.magnitude u.toNat ↔
      bf16.magnitude h.toNat ≤ bf16.magnitude (f32ToBf16 u).toNat := by
  rw [value_bf16ToF32, toNat_f32ToBf16]
  constructor
  · rw [Format.value, if_pos ((bf16.finite_cut 16 u.toNat).mpr hu), bf16.negative_cut]
    rfl
  · intro h
    exact bf16.magnitude_cut 16 u.toNat h.toNat

theorem f32ToBf16_rounds_toward_zero_tenth :
    f32.value (bf16ToF32 (f32ToBf16 0x3dcccccd)).toNat =
      .finite (f32.negative 0x3dcccccd) (bf16.magnitude (f32ToBf16 0x3dcccccd).toNat) ∧
    ∀ h : UInt16, bf16.magnitude h.toNat ≤ f32.magnitude 0x3dcccccd ↔
      bf16.magnitude h.toNat ≤ bf16.magnitude (f32ToBf16 0x3dcccccd).toNat :=
  f32ToBf16_rounds_toward_zero 0x3dcccccd (by decide)

/-! F16 -/

theorem toNat_packF32 {sign exp mant : UInt32} (hsign : sign.toNat < 2) (hexp : exp.toNat < 2 ^ 8)
    (hmant : mant.toNat < 2 ^ 10) : (packF32 sign exp mant).toNat =
      (sign.toNat * 2 ^ 8 + exp.toNat) * 2 ^ 23 + mant.toNat * 2 ^ 13 := by
  have h31 : (31 : UInt32).toNat % 32 = 31 := rfl
  have h23 : (23 : UInt32).toNat % 32 = 23 := rfl
  have h13 : (13 : UInt32).toNat % 32 = 13 := rfl
  have hs := Nat.mod_eq_of_lt (show sign.toNat * 2 ^ 31 < 2 ^ 32 by omega)
  have he := Nat.mod_eq_of_lt (show exp.toNat * 2 ^ 23 < 2 ^ 32 by omega)
  have hm := Nat.mod_eq_of_lt (show mant.toNat * 2 ^ 13 < 2 ^ 32 by omega)
  have hupper := Nat.two_pow_add_eq_or_of_lt (show exp.toNat * 2 ^ 23 < 2 ^ 31 by omega) sign.toNat
  have hlower := Nat.two_pow_add_eq_or_of_lt (show mant.toNat * 2 ^ 13 < 2 ^ 23 by omega)
    (sign.toNat * 2 ^ 8 + exp.toNat)
  have hword : sign.toNat * 2 ^ 31 ||| exp.toNat * 2 ^ 23 =
      2 ^ 23 * (sign.toNat * 2 ^ 8 + exp.toNat) := by
    rw [Nat.mul_comm sign.toNat, ← hupper]
    omega
  simp only [packF32, UInt32.toNat_or, UInt32.toNat_shiftLeft, h31, h23, h13, Nat.shiftLeft_eq, hs,
    he, hm, hword, ← hlower]
  omega

/-- The test of the loop: bit 10 is the leading one. -/
theorem and_bit10_eq_zero_iff {mant : UInt32} (h : mant.toNat < 2 ^ 11) :
    mant &&& 0x400 = 0 ↔ mant.toNat < 2 ^ 10 := by
  have hmask : (0x400 : UInt32).toNat = 2 ^ 10 := rfl
  have hzero : (0 : UInt32).toNat = 0 := rfl
  rw [← UInt32.toNat_inj, UInt32.toNat_and, hmask, hzero, Nat.and_two_pow,
    Nat.testBit_eq_decide_div_mod_eq, Nat.mul_eq_zero, Bool.toNat_eq_zero, decide_eq_false_iff_not]
  omega

/-- The loop shifts the leading one to bit 10, and counts down with each shift. -/
theorem normalizeMant_spec (n : ℕ) (mant : UInt32) (e : ℤ) (hlo : 2 ^ 10 ≤ mant.toNat * 2 ^ n)
    (hhi : mant.toNat < 2 ^ 11) : ∃ (k : ℕ) (r : UInt32),
      normalizeMant (n + 1) mant e = some (r, e - k) ∧ r.toNat = mant.toNat * 2 ^ k ∧
      2 ^ 10 ≤ r.toNat ∧ r.toNat < 2 ^ 11 := by
  induction n generalizing mant e with
  | zero =>
    rw [pow_zero, Nat.mul_one] at hlo
    refine ⟨0, mant, ?_, by simp, hlo, hhi⟩
    rw [normalizeMant, if_neg (mt (and_bit10_eq_zero_iff hhi).mp (not_lt.mpr hlo))]
    simp
  | succ n ih =>
    by_cases hlt : mant.toNat < 2 ^ 10
    · have h1 : (1 : UInt32).toNat % 32 = 1 := rfl
      have hshift : (mant <<< 1).toNat = mant.toNat * 2 := by
        rw [UInt32.toNat_shiftLeft, h1, Nat.shiftLeft_eq]
        omega
      obtain ⟨k, r, hloop, hr, hbounds⟩ := ih (mant <<< 1) (e - 1)
        (by rwa [hshift, Nat.mul_assoc, ← pow_succ']) (by omega)
      refine ⟨k + 1, r, ?_, ?_, hbounds⟩
      · rw [normalizeMant, if_pos ((and_bit10_eq_zero_iff hhi).mpr hlt), hloop]
        congr 2
        push_cast
        ring
      · rw [hr, hshift, Nat.mul_assoc, ← pow_succ']
    · refine ⟨0, mant, ?_, by simp, not_lt.mp hlt, hhi⟩
      rw [normalizeMant, if_neg (mt (and_bit10_eq_zero_iff hhi).mp hlt)]
      simp

/-- The fields of a half word. -/
structure HalfFields (h : UInt16) (sign exp mant : UInt32) : Prop where
  sign : sign.toNat = h.toNat / 2 ^ 15
  exp : exp.toNat = f16.exp h.toNat
  mant : mant.toNat = f16.man h.toNat

theorem halfFields (h : UInt16) : HalfFields h ((h.toUInt32 >>> 15) &&& 0x1)
    ((h.toUInt32 >>> 10) &&& 0x1f) (h.toUInt32 &&& 0x3ff) := by
  have hlt := h.toNat_lt
  have h15 : (15 : UInt32).toNat % 32 = 15 := rfl
  have h10 : (10 : UInt32).toNat % 32 = 10 := rfl
  have h1 : (0x1 : UInt32).toNat = 2 ^ 1 - 1 := rfl
  have h1f : (0x1f : UInt32).toNat = 2 ^ 5 - 1 := rfl
  have h3ff : (0x3ff : UInt32).toNat = 2 ^ 10 - 1 := rfl
  constructor
  · rw [UInt32.toNat_and, UInt32.toNat_shiftRight, h15, h1, Nat.and_two_pow_sub_one_eq_mod,
      Nat.shiftRight_eq_div_pow, UInt16.toNat_toUInt32]
    omega
  · rw [UInt32.toNat_and, UInt32.toNat_shiftRight, h10, h1f, Nat.and_two_pow_sub_one_eq_mod,
      Nat.shiftRight_eq_div_pow, UInt16.toNat_toUInt32]
    rfl
  · rw [UInt32.toNat_and, h3ff, Nat.and_two_pow_sub_one_eq_mod, UInt16.toNat_toUInt32]
    rfl

/-- The bits of a converted half word: a subnormal number is shifted by `k` places. -/
theorem f16ToF32_bits (h : UInt16) : ∃ u E M, f16ToF32 h = some u ∧
    u.toNat = (h.toNat / 2 ^ 15 * 2 ^ 8 + E) * 2 ^ 23 + M * 2 ^ 13 ∧ E < 2 ^ 8 ∧ M < 2 ^ 10 ∧
    ((f16.Subnormal h.toNat ∧ ∃ k, 1 ≤ k ∧ k ≤ 10 ∧ E = 112 + k ∧
        M + 2 ^ 10 = f16.man h.toNat * 2 ^ k) ∨
      (¬ f16.Subnormal h.toNat ∧ M = f16.man h.toNat ∧
        E = if f16.exp h.toNat = 0 then 0 else if f16.exp h.toNat = 31 then 255
          else f16.exp h.toNat + 112)) := by
  have hexp : f16.exp h.toNat < 2 ^ 5 := Nat.mod_lt _ (by decide)
  have hman : f16.man h.toNat < 2 ^ 10 := f16.man_lt _
  have hlt := h.toNat_lt
  obtain ⟨hs, he, hm⟩ := halfFields h
  unfold f16ToF32
  generalize (h.toUInt32 >>> 15) &&& 0x1 = sign at *
  generalize (h.toUInt32 >>> 10) &&& 0x1f = exp at *
  generalize h.toUInt32 &&& 0x3ff = mant at *
  have hsign : sign.toNat < 2 := by omega
  have hexp0 : exp = 0 ↔ f16.exp h.toNat = 0 := by
    rw [← UInt32.toNat_inj, he]
    rfl
  have hexp31 : exp = 0x1f ↔ f16.exp h.toNat = 31 := by
    rw [← UInt32.toNat_inj, he]
    rfl
  have hmant0 : mant = 0 ↔ f16.man h.toNat = 0 := by
    rw [← UInt32.toNat_inj, hm]
    rfl
  dsimp only
  by_cases hzero : f16.exp h.toNat = 0
  · rw [if_pos (hexp0.mpr hzero)]
    by_cases hman0 : f16.man h.toNat = 0
    · have h31 : (31 : UInt32).toNat % 32 = 31 := rfl
      rw [if_pos (hmant0.mpr hman0)]
      refine ⟨_, 0, 0, rfl, ?_, by decide, by decide, Or.inr ⟨fun hsub => hsub.2 hman0, hman0.symm,
        (if_pos hzero).symm⟩⟩
      rw [UInt32.toNat_shiftLeft, h31, Nat.shiftLeft_eq, ← hs]
      omega
    · rw [if_neg (mt hmant0.mp hman0)]
      obtain ⟨k, r, hloop, hr, hlo, hhi⟩ := normalizeMant_spec 31 mant 0 (by omega) (by omega)
      have hk1 : k ≠ 0 := by
        rintro rfl
        rw [pow_zero, Nat.mul_one] at hr
        omega
      have hk10 : k < 11 := by
        have hone := Nat.mul_le_mul_right (2 ^ k) (Nat.pos_of_ne_zero hman0)
        rw [hm] at hr
        exact (Nat.pow_lt_pow_iff_right (by decide : 1 < 2)).mp (show 2 ^ k < 2 ^ 11 by omega)
      have hE : (UInt32.ofInt (127 - 15 - (0 - (k : ℤ)))).toNat = 112 + k := by
        have hcast : (127 - 15 - (0 - (k : ℤ))) % 2 ^ 32 = ((112 + k : ℕ) : ℤ) := by omega
        rw [UInt32.ofInt, hcast, Int.toNat_natCast, UInt32.toNat_ofNat']
        omega
      have hM : (r &&& 0x3ff).toNat + 2 ^ 10 = f16.man h.toNat * 2 ^ k := by
        have h3ff : (0x3ff : UInt32).toNat = 2 ^ 10 - 1 := rfl
        rw [UInt32.toNat_and, h3ff, Nat.and_two_pow_sub_one_eq_mod, ← hm, ← hr]
        omega
      have hMlt : (r &&& 0x3ff).toNat < 2 ^ 10 := by
        rw [hm] at hr
        omega
      rw [hloop]
      refine ⟨packF32 sign (UInt32.ofInt (127 - 15 - (0 - (k : ℤ)))) (r &&& 0x3ff), 112 + k, _, rfl,
        ?_, by omega, hMlt, Or.inl ⟨⟨hzero, hman0⟩, k, by omega, by omega, rfl, hM⟩⟩
      rw [toNat_packF32 hsign (by omega) hMlt, hs, hE]
  · rw [if_neg (mt hexp0.mp hzero)]
    by_cases hall : f16.exp h.toNat = 31
    · rw [if_pos (hexp31.mpr hall)]
      refine ⟨_, 255, f16.man h.toNat, rfl, ?_, by decide, hman, Or.inr ⟨fun hsub => hzero hsub.1,
        rfl, by rw [if_neg hzero, if_pos hall]⟩⟩
      rw [toNat_packF32 hsign (by decide) (hm ▸ hman), hs, hm]
      rfl
    · rw [if_neg (mt hexp31.mp hall)]
      have hbias : (exp - 15 + 127).toNat = f16.exp h.toNat + 112 := by
        have h15 : (15 : UInt32).toNat = 15 := rfl
        have h127 : (127 : UInt32).toNat = 127 := rfl
        rw [UInt32.toNat_add, UInt32.toNat_sub, h15, h127, he]
        omega
      refine ⟨_, f16.exp h.toNat + 112, f16.man h.toNat, rfl, ?_, by omega, hman,
        Or.inr ⟨fun hsub => hzero hsub.1, rfl, by rw [if_neg hzero, if_neg hall]⟩⟩
      rw [toNat_packF32 hsign (by omega) (hm ▸ hman), hs, hm, hbias]

/-- The units of the two formats. -/
theorem unit_f16 : f16.unit = 2 ^ 125 * f32.unit := by
  norm_num [Format.unit, f16, f32]

theorem magnitude_of_scaled {u h n : ℕ} (hscaled : f32.scaled u = f16.scaled h * 2 ^ 125 * n) :
    f32.magnitude u = f16.magnitude h * n := by
  rw [Format.magnitude, Format.magnitude, hscaled, unit_f16]
  push_cast
  ring

theorem value_of_magnitude {u h : ℕ} (hnegative : f32.negative u = f16.negative h)
    (hfinite : f32.Finite u ↔ f16.Finite h) (hzero : f32.man u = 0 ↔ f16.man h = 0)
    (hmagnitude : f16.Finite h → f32.magnitude u = f16.magnitude h) :
    f32.value u = f16.value h := by
  by_cases hfin : f16.Finite h
  · rw [Format.value, Format.value, if_pos (hfinite.mpr hfin), if_pos hfin, hnegative,
      hmagnitude hfin]
  · rw [Format.value, Format.value, if_neg (mt hfinite.mp hfin), if_neg hfin, hnegative]
    simp only [hzero]

/-- A subnormal number gets an exponent that is too large by `2 * k - 1`. -/
theorem magnitude_subnormal {u h k M : ℕ} (hsub : f16.Subnormal h) (hk : 1 ≤ k)
    (hexp : f32.exp u = 112 + k) (hman : f32.man u = M * 2 ^ 13)
    (hmk : M + 2 ^ 10 = f16.man h * 2 ^ k) :
    f32.magnitude u = f16.magnitude h * (2 ^ (2 * k - 1) : ℕ) := by
  apply magnitude_of_scaled
  have hpow : 2 * k - 1 + 125 = k + (13 + (112 + k - 1)) := by omega
  have hsum : 2 ^ f32.manBits + M * 2 ^ 13 = f16.man h * 2 ^ k * 2 ^ 13 := by
    rw [← hmk]
    show 2 ^ 23 + M * 2 ^ 13 = _
    omega
  rw [Format.scaled, Format.scaled, if_pos hsub.1, hexp, hman, if_neg (by omega), hsum,
    Nat.mul_assoc, Nat.mul_assoc, Nat.mul_assoc, ← pow_add, ← pow_add, ← pow_add, ← hpow,
    Nat.add_comm 125]

theorem magnitude_normal {u h : ℕ} (h0 : f16.exp h ≠ 0) (hexp : f32.exp u = f16.exp h + 112)
    (hman : f32.man u = f16.man h * 2 ^ 13) : f32.magnitude u = f16.magnitude h := by
  have hscaled : f32.scaled u = f16.scaled h * 2 ^ 125 * 1 := by
    have hpow : 13 + (f16.exp h + 112 - 1) = f16.exp h - 1 + 125 := by omega
    have hsum : 2 ^ f32.manBits + f16.man h * 2 ^ 13 = (2 ^ f16.manBits + f16.man h) * 2 ^ 13 := by
      show 2 ^ 23 + _ = (2 ^ 10 + _) * 2 ^ 13
      omega
    rw [Format.scaled, Format.scaled, hexp, if_neg (by omega), if_neg h0, hman, hsum, Nat.mul_assoc,
      ← pow_add, hpow, pow_add, Nat.mul_one, Nat.mul_assoc]
  have hmagnitude := magnitude_of_scaled hscaled
  rwa [Nat.cast_one, mul_one] at hmagnitude

theorem magnitude_zero {u h : ℕ} (hexp : f32.exp u = 0) (hman : f32.man u = 0)
    (hexp' : f16.exp h = 0) (hman' : f16.man h = 0) : f32.magnitude u = f16.magnitude h := by
  rw [Format.magnitude, Format.magnitude, Format.scaled, Format.scaled, if_pos hexp, if_pos hexp',
    hman, hman', Nat.cast_zero, zero_mul, zero_mul]

/-- F16 is converted exactly up to the subnormal numbers. Such a number, whose leading one has to
be shifted by `k` places to bit 10, comes out as `2 ^ (2 * k - 1)` times the number. -/
theorem f16ToF32_value (h : UInt16) : ∃ u, f16ToF32 h = some u ∧
    (f32.value u.toNat = f16.value h.toNat ↔ ¬ f16.Subnormal h.toNat) ∧
    (f16.Subnormal h.toNat → ∃ k, 2 ^ 10 ≤ f16.man h.toNat * 2 ^ k ∧
      f16.man h.toNat * 2 ^ k < 2 ^ 11 ∧ f32.value u.toNat =
        .finite (f16.negative h.toNat) (f16.magnitude h.toNat * (2 ^ (2 * k - 1) : ℕ))) := by
  obtain ⟨u, E, M, hu, hbits, hE, hM, hcases⟩ := f16ToF32_bits h
  obtain ⟨hexp, hman, hneg⟩ : f32.exp u.toNat = E ∧ f32.man u.toNat = M * 2 ^ 13 ∧
      f32.negative u.toNat = f16.negative h.toNat := by
    have hfields := f32.fields (s := h.toNat / 2 ^ 15) (show E < 2 ^ 8 from hE)
      (show M * 2 ^ 13 < 2 ^ 23 by omega)
    rw [hbits]
    refine ⟨hfields.1, hfields.2.1, hfields.2.2.trans ?_⟩
    rw [Format.negative, Nat.div_div_eq_div_mul]
    rfl
  refine ⟨u, hu, ?_⟩
  rcases hcases with ⟨hsub, k, hk1, hk10, rfl, hmk⟩ | ⟨hnot, rfl, rfl⟩
  · have hexp0 := hsub.1
    have hfin32 : f32.Finite u.toNat := by
      show f32.exp u.toNat ≠ 255
      omega
    have hfin16 : f16.Finite h.toNat := by
      show f16.exp h.toNat ≠ 31
      omega
    have hvalue : f32.value u.toNat =
        .finite (f16.negative h.toNat) (f16.magnitude h.toNat * (2 ^ (2 * k - 1) : ℕ)) := by
      rw [Format.value, if_pos hfin32, hneg, magnitude_subnormal hsub hk1 hexp hman hmk]
    refine ⟨iff_of_false (fun heq => ?_) (not_not.mpr hsub), fun _ => ?_⟩
    swap
    · exact ⟨k, by omega, by omega, hvalue⟩
    -- the factor is not 1, and the number is not 0
    rw [hvalue, Format.value, if_pos hfin16] at heq
    have hsame := (Value.finite.inj heq).2
    have hpos : 0 < f16.magnitude h.toNat := by
      rw [Format.magnitude, Format.scaled, if_pos hexp0]
      exact mul_pos (Nat.cast_pos.mpr (Nat.pos_of_ne_zero hsub.2)) f16.unit_pos
    have hone := mul_left_cancel₀ hpos.ne' (hsame.trans (mul_one _).symm)
    have htwo : 2 ^ 1 ≤ 2 ^ (2 * k - 1) := Nat.pow_le_pow_right two_pos (by omega)
    rw [Nat.cast_eq_one] at hone
    omega
  · have hlt : f16.exp h.toNat < 2 ^ 5 := Nat.mod_lt _ (by decide)
    have hfinite : f32.Finite u.toNat ↔ f16.Finite h.toNat := by
      show f32.exp u.toNat ≠ 255 ↔ f16.exp h.toNat ≠ 31
      rw [hexp]
      split_ifs <;> omega
    refine ⟨iff_of_true (value_of_magnitude hneg hfinite (by omega) fun hfin => ?_) hnot,
      fun hsub => (hnot hsub).elim⟩
    by_cases hexp0 : f16.exp h.toNat = 0
    · have hman0 : f16.man h.toNat = 0 := by
        by_contra hman0
        exact hnot ⟨hexp0, hman0⟩
      rw [if_pos hexp0] at hexp
      exact magnitude_zero hexp (by omega) hexp0 hman0
    · have h31 : f16.exp h.toNat ≠ 31 := hfin
      rw [if_neg hexp0, if_neg h31] at hexp
      exact magnitude_normal hexp0 hexp hman

end Dee
