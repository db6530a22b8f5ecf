import Mathlib

/-! Binary floating-point formats: the value of a code word. Magnitudes are multiples of the
least one, so they are compared as natural numbers, and in the order of the code words. -/
namespace Dee.BinaryFloat

/-- Widths of the exponent and of the mantissa; the sign is above them. -/
structure Format where
  expBits : ℕ
  manBits : ℕ

inductive Value
  | finite (negative : Bool) (magnitude : ℚ)
  | infinite (negative : Bool)
  | nan

namespace Format
variable (f : Format)

def man (u : ℕ) : ℕ := u % 2 ^ f.manBits

def exp (u : ℕ) : ℕ := u / 2 ^ f.manBits % 2 ^ f.expBits

def negative (u : ℕ) : Bool := decide (u / 2 ^ f.manBits / 2 ^ f.expBits % 2 = 1)

/-- The code word without its sign. -/
def code (u : ℕ) : ℕ := f.exp u * 2 ^ f.manBits + f.man u

/-- The least positive magnitude. -/
def unit : ℚ := 2 ^ (2 - 2 ^ (f.expBits - 1) - f.manBits : ℤ)

/-- The magnitude in units. -/
def scaled (u : ℕ) : ℕ :=
  if f.exp u = 0 then f.man u else (2 ^ f.manBits + f.man u) * 2 ^ (f.exp u - 1)

def magnitude (u : ℕ) : ℚ := f.scaled u * f.unit

def Finite (u : ℕ) : Prop := f.exp u ≠ 2 ^ f.expBits - 1

instance (u : ℕ) : Decidable (f.Finite u) := inferInstanceAs (Decidable (_ ≠ _))

/-- A magnitude that is not zero but has no leading one. -/
def Subnormal (u : ℕ) : Prop := f.exp u = 0 ∧ f.man u ≠ 0

def value (u : ℕ) : Value :=
  if f.Finite u then .finite (f.negative u) (f.magnitude u)
  else if f.man u = 0 then .infinite (f.negative u) else .nan

theorem unit_pos : 0 < f.unit := zpow_pos two_pos _

theorem man_lt (u : ℕ) : f.man u < 2 ^ f.manBits := Nat.mod_lt _ (Nat.two_pow_pos _)

/-- The fields of a code word that is put together from them. -/
theorem fields {s e m : ℕ} (he : e < 2 ^ f.expBits) (hm : m < 2 ^ f.manBits) :
    f.exp ((s * 2 ^ f.expBits + e) * 2 ^ f.manBits + m) = e ∧
    f.man ((s * 2 ^ f.expBits + e) * 2 ^ f.manBits + m) = m ∧
    f.negative ((s * 2 ^ f.expBits + e) * 2 ^ f.manBits + m) = decide (s % 2 = 1) := by
  have hpos := Nat.two_pow_pos f.manBits
  have hdiv : ((s * 2 ^ f.expBits + e) * 2 ^ f.manBits + m) / 2 ^ f.manBits =
      s * 2 ^ f.expBits + e := by
    rw [Nat.mul_comm, Nat.mul_add_div hpos, Nat.div_eq_of_lt hm, Nat.add_zero]
  refine ⟨?_, ?_, ?_⟩
  · rw [exp, hdiv, Nat.mul_comm, Nat.mul_add_mod, Nat.mod_eq_of_lt he]
  · rw [man, Nat.mul_comm, Nat.mul_add_mod, Nat.mod_eq_of_lt hm]
  · rw [negative, hdiv, Nat.mul_comm, Nat.mul_add_div (Nat.two_pow_pos _), Nat.div_eq_of_lt he,
      Nat.add_zero]

/-! Order -/

theorem scaled_lt_pow (u : ℕ) : f.scaled u < 2 ^ f.manBits * 2 ^ f.exp u := by
  have hman := f.man_lt u
  unfold scaled
  split_ifs with hexp
  · rw [hexp, pow_zero, Nat.mul_one]
    exact hman
  · have hpow : 2 ^ f.exp u = 2 * 2 ^ (f.exp u - 1) := by
      rw [← pow_succ', Nat.sub_add_cancel (Nat.pos_of_ne_zero hexp)]
    rw [hpow, ← Nat.mul_assoc]
    exact Nat.mul_lt_mul_of_pos_right (by omega) (Nat.two_pow_pos _)

theorem pow_le_scaled {u : ℕ} (h : f.exp u ≠ 0) :
    2 ^ f.manBits * 2 ^ (f.exp u - 1) ≤ f.scaled u := by
  rw [scaled, if_neg h]
  exact Nat.mul_le_mul_right _ (Nat.le_add_right _ _)

theorem scaled_lt {u v : ℕ} (h : f.code u < f.code v) : f.scaled u < f.scaled v := by
  have hu := f.man_lt u
  have hv := f.man_lt v
  rcases lt_trichotomy (f.exp u) (f.exp v) with hexp | hexp | hexp
  · have hle : 2 ^ f.exp u ≤ 2 ^ (f.exp v - 1) := Nat.pow_le_pow_right two_pos (by omega)
    exact (f.scaled_lt_pow u).trans_le ((Nat.mul_le_mul_left _ hle).trans
      (f.pow_le_scaled (by omega)))
  · have hman : f.man u < f.man v := by
      rw [code, code, hexp] at h
      omega
    rw [scaled, scaled, hexp]
    split_ifs
    · exact hman
    · exact Nat.mul_lt_mul_of_pos_right (by omega) (Nat.two_pow_pos _)
  · have hmul := Nat.mul_le_mul_right (2 ^ f.manBits) hexp
    rw [Nat.succ_mul] at hmul
    unfold code at h
    omega

theorem scaled_eq {u v : ℕ} (h : f.code u = f.code v) : f.scaled u = f.scaled v := by
  have hpos := Nat.two_pow_pos f.manBits
  have hmod := congrArg (· % 2 ^ f.manBits) h
  have hdiv := congrArg (· / 2 ^ f.manBits) h
  simp only [code, Nat.mul_comm _ (2 ^ f.manBits), Nat.mul_add_mod, Nat.mul_add_div hpos,
    Nat.mod_eq_of_lt (f.man_lt _), Nat.div_eq_of_lt (f.man_lt _), Nat.add_zero] at hmod hdiv
  rw [scaled, scaled, hmod, hdiv]

/-- The order of the magnitudes is that of the code words. -/
theorem magnitude_le_iff {u v : ℕ} : f.magnitude u ≤ f.magnitude v ↔ f.code u ≤ f.code v := by
  rw [magnitude, magnitude, mul_le_mul_iff_left₀ f.unit_pos, Nat.cast_le]
  constructor
  · intro h
    by_contra hlt
    exact absurd (f.scaled_lt (not_le.mp hlt)) (not_lt.mpr h)
  · intro h
    rcases h.lt_or_eq with hlt | heq
    · exact (f.scaled_lt hlt).le
    · exact (f.scaled_eq heq).le

/-! More bits of mantissa -/

/-- The format with `k` more bits. -/
def widen (k : ℕ) : Format := ⟨f.expBits, f.manBits + k⟩

theorem div_widen (k u : ℕ) : u * 2 ^ k / 2 ^ (f.manBits + k) = u / 2 ^ f.manBits := by
  rw [pow_add, Nat.mul_div_mul_right _ _ (Nat.two_pow_pos k)]

theorem exp_widen (k u : ℕ) : (f.widen k).exp (u * 2 ^ k) = f.exp u := by
  simp only [exp, widen, div_widen]

theorem man_widen (k u : ℕ) : (f.widen k).man (u * 2 ^ k) = f.man u * 2 ^ k := by
  simp only [man, widen, pow_add, Nat.mul_mod_mul_right]

theorem code_widen (k u : ℕ) : (f.widen k).code (u * 2 ^ k) = f.code u * 2 ^ k := by
  rw [code, exp_widen, man_widen, code, Nat.add_mul, Nat.mul_assoc, ← pow_add]
  rfl

theorem scaled_widen (k u : ℕ) : (f.widen k).scaled (u * 2 ^ k) = f.scaled u * 2 ^ k := by
  rw [scaled, scaled, exp_widen, man_widen]
  split_ifs
  · rfl
  · rw [widen, pow_add, ← Nat.add_mul, Nat.mul_right_comm]

theorem unit_widen (k : ℕ) : (f.widen k).unit * 2 ^ k = f.unit := by
  rw [unit, unit, ← zpow_natCast (2 : ℚ) k, ← zpow_add₀ two_ne_zero]
  congr 1
  simp only [widen, Nat.cast_add]
  ring

theorem magnitude_widen (k u : ℕ) : (f.widen k).magnitude (u * 2 ^ k) = f.magnitude u := by
  rw [magnitude, magnitude, scaled_widen, ← f.unit_widen k]
  push_cast
  ring

/-- Zeros behind the mantissa change nothing. -/
theorem value_widen (k u : ℕ) : (f.widen k).value (u * 2 ^ k) = f.value u := by
  have hpos := Nat.two_pow_pos k
  have hnegative : (f.widen k).negative (u * 2 ^ k) = f.negative u := by
    simp only [negative, widen, div_widen]
  have hfinite : (f.widen k).Finite (u * 2 ^ k) ↔ f.Finite u := by
    rw [Finite, Finite, exp_widen]
    rfl
  have hzero : (f.widen k).man (u * 2 ^ k) = 0 ↔ f.man u = 0 := by
    rw [man_widen, Nat.mul_eq_zero]
    omega
  simp only [value, hnegative, hfinite, hzero, magnitude_widen]

/-! Fewer bits of mantissa -/

theorem exp_cut (k u : ℕ) : f.exp (u / 2 ^ k) = (f.widen k).exp u := by
  rw [exp, exp, Nat.div_div_eq_div_mul, ← pow_add, Nat.add_comm]
  rfl

theorem man_cut (k u : ℕ) : f.man (u / 2 ^ k) = (f.widen k).man u / 2 ^ k := by
  simp only [man, widen, Nat.add_comm f.manBits k, pow_add, Nat.mod_mul_right_div_self]

theorem negative_cut (k u : ℕ) : f.negative (u / 2 ^ k) = (f.widen k).negative u := by
  have hdiv : u / 2 ^ k / 2 ^ f.manBits = u / 2 ^ (f.widen k).manBits := by
    rw [Nat.div_div_eq_div_mul, ← pow_add, Nat.add_comm]
    rfl
  rw [negative, negative, hdiv]
  rfl

theorem finite_cut (k u : ℕ) : f.Finite (u / 2 ^ k) ↔ (f.widen k).Finite u := by
  rw [Finite, Finite, exp_cut]
  rfl

theorem code_cut (k u : ℕ) : f.code (u / 2 ^ k) = (f.widen k).code u / 2 ^ k := by
  rw [code, exp_cut, man_cut, code, widen, Nat.pow_add, ← Nat.mul_assoc, Nat.add_comm,
    Nat.add_comm (_ * 2 ^ k), Nat.add_mul_div_right _ _ (Nat.two_pow_pos k)]

/-- Cutting off `k` bits rounds toward zero: no magnitude of the narrow format lies between. -/
theorem magnitude_cut (k u v : ℕ) : f.magnitude v ≤ (f.widen k).magnitude u ↔
    f.magnitude v ≤ f.magnitude (u / 2 ^ k) := by
  rw [← f.magnitude_widen k v, magnitude_le_iff, code_widen, magnitude_widen, magnitude_le_iff,
    code_cut, Nat.le_div_iff_mul_le (Nat.two_pow_pos k)]

end Format
end Dee.BinaryFloat
