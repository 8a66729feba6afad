import Mathlib.Algebra.Order.Field.Power
import Mathlib.Data.Int.Log
import Mathlib.Data.Rat.Floor
import Mathlib.Tactic.Linarith
import Mathlib.Tactic.Positivity
import Mathlib.Tactic.Ring
import Mathlib.Tactic.SplitIfs
import TensorFusion.Number.Binary64

/-!
# Proofs — Number — Rounding

What rounding does, told by the fraction that is rounded. A fraction may be given by any numerator
and denominator; a fraction that a double stands for is rounded to that double; and whatever comes
out is in the one form that a double has.
-/

namespace TensorFusion.Binary64

/-- A number in the form that the machine holds: no payload, and a mantissa of 53 binary digits, or
of fewer at the least exponent. -/
def IsCanonical : Binary64 → Prop
  | .nan payload => payload = 0
  | .infinity _ => True
  | .finite _ m e =>
      m < twoPow 53 ∧ minExponent ≤ e ∧ e ≤ maxExponent ∧ (twoPow 52 ≤ m ∨ e = minExponent)

theorem twoPow_pos (k : Nat) : 0 < twoPow k := Nat.pow_pos (by decide)

theorem cast_twoPow (k : Nat) : (twoPow k : ℚ) = 2 ^ (k : Int) := by
  show ((2 ^ k : Nat) : ℚ) = 2 ^ (k : Int)
  rw [Nat.cast_pow, zpow_natCast, Nat.cast_ofNat]

theorem isCanonical_zero (s : Bool) : (zero s).IsCanonical :=
  ⟨by decide, by decide, by decide, .inr rfl⟩

/-! ## Fractions -/

section Fractions

variable {a b c d : Nat} {e : Int}

theorem scaleDown_den_pos (hb : 0 < b) : 0 < (scaleDown a b e).2 := by
  rw [scaleDown]
  split
  · exact Nat.mul_pos hb (twoPow_pos _)
  · exact hb

/-- Scaling down divides the fraction by a power of two. -/
theorem scaleDown_value (a b : Nat) (e : Int) :
    ((scaleDown a b e).1 : ℚ) / (scaleDown a b e).2 = a / b / 2 ^ e := by
  rw [scaleDown]
  split
  next he =>
    rw [Nat.cast_mul, cast_twoPow, Int.toNat_of_nonneg he, div_mul_eq_div_div]
  next he =>
    rw [Nat.cast_mul, cast_twoPow, Int.toNat_of_nonneg (by omega), zpow_neg]
    ring

/-- A fraction lies between the powers of two next to the difference of the logarithms. -/
theorem log_div_bounds (ha : 0 < a) (hb : 0 < b) :
    (Nat.log2 a : Int) - Nat.log2 b - 1 ≤ Int.log 2 ((a : ℚ) / b) ∧
      Int.log 2 ((a : ℚ) / b) ≤ (Nat.log2 a : Int) - Nat.log2 b := by
  have haq : (0 : ℚ) < a := by exact_mod_cast ha
  have hbq : (0 : ℚ) < b := by exact_mod_cast hb
  have bounds {n : Nat} (hn : 0 < n) :
      (2 : ℚ) ^ (Nat.log2 n : Int) ≤ n ∧ (n : ℚ) < 2 ^ ((Nat.log2 n : Int) + 1) := by
    rw [← Nat.cast_succ, zpow_natCast, zpow_natCast]
    exact ⟨by exact_mod_cast Nat.log2_self_le hn.ne', by exact_mod_cast Nat.lt_log2_self⟩
  have hlow : (2 : ℚ) ^ ((Nat.log2 a : Int) - Nat.log2 b - 1) ≤ a / b := by
    rw [sub_sub, zpow_sub₀ (by norm_num)]
    exact div_le_div₀ haq.le (bounds ha).1 hbq (bounds hb).2.le
  have hhigh : (a : ℚ) / b < 2 ^ ((Nat.log2 a : Int) - Nat.log2 b + 1) := by
    rw [sub_add_eq_add_sub, zpow_sub₀ (by norm_num)]
    exact div_lt_div₀ (bounds ha).2 (bounds hb).1 (by positivity) (by positivity)
  have hlog_low := (Int.zpow_le_iff_le_log Nat.one_lt_two (div_pos haq hbq)).mp hlow
  have hlog_high := (Int.lt_zpow_iff_log_lt Nat.one_lt_two (div_pos haq hbq)).mp hhigh
  omega

/-- The greatest power of two below a fraction is found. -/
theorem floorLog_eq (ha : 0 < a) (hb : 0 < b) : floorLog a b = Int.log 2 ((a : ℚ) / b) := by
  have haq : (0 : ℚ) < a := by exact_mod_cast ha
  have hbq : (0 : ℚ) < b := by exact_mod_cast hb
  obtain ⟨hlow, hhigh⟩ := log_div_bounds ha hb
  rw [floorLog]
  generalize (Nat.log2 a : Int) - Nat.log2 b = guess at *
  have hden : (0 : ℚ) < (scaleDown a b guess).2 := by exact_mod_cast scaleDown_den_pos hb
  -- The guess is right unless the fraction, scaled down by it, is less than one.
  have hreached : guess ≤ Int.log 2 ((a : ℚ) / b) ↔
      ¬ (scaleDown a b guess).1 < (scaleDown a b guess).2 := by
    rw [← Int.zpow_le_iff_le_log Nat.one_lt_two (div_pos haq hbq), Nat.cast_ofNat,
      ← one_le_div (by positivity), ← scaleDown_value, one_le_div hden, Nat.cast_le, not_lt]
  split <;> omega

/-- A fraction below a power of two is so in smaller units … -/
theorem scaleDown_lt (ha : 0 < a) (hb : 0 < b) {k : Nat} (h : floorLog a b < k + e) :
    (scaleDown a b e).1 < twoPow k * (scaleDown a b e).2 := by
  have haq : (0 : ℚ) < a := by exact_mod_cast ha
  have hbq : (0 : ℚ) < b := by exact_mod_cast hb
  have hden : (0 : ℚ) < (scaleDown a b e).2 := by exact_mod_cast scaleDown_den_pos hb
  rw [floorLog_eq ha hb, ← Int.lt_zpow_iff_log_lt Nat.one_lt_two (div_pos haq hbq), Nat.cast_ofNat,
    zpow_add₀ (by norm_num), ← div_lt_iff₀ (by positivity), ← scaleDown_value, div_lt_iff₀ hden,
    ← cast_twoPow] at h
  exact_mod_cast h

/-- … and one that is not below it is not so either. -/
theorem le_scaleDown (ha : 0 < a) (hb : 0 < b) {k : Nat} (h : k + e ≤ floorLog a b) :
    twoPow k * (scaleDown a b e).2 ≤ (scaleDown a b e).1 := by
  have haq : (0 : ℚ) < a := by exact_mod_cast ha
  have hbq : (0 : ℚ) < b := by exact_mod_cast hb
  have hden : (0 : ℚ) < (scaleDown a b e).2 := by exact_mod_cast scaleDown_den_pos hb
  rw [floorLog_eq ha hb, ← Int.zpow_le_iff_le_log Nat.one_lt_two (div_pos haq hbq), Nat.cast_ofNat,
    zpow_add₀ (by norm_num), ← le_div_iff₀ (by positivity), ← scaleDown_value, le_div_iff₀ hden,
    ← cast_twoPow] at h
  exact_mod_cast h

theorem roundDiv_mul_right (a b : Nat) (hc : 0 < c) :
    roundDiv (a * c) (b * c) = roundDiv a b := by
  have hrest : 2 * (a % b * c) = 2 * (a % b) * c := by ring
  simp only [roundDiv, Nat.mul_div_mul_right _ _ hc, Nat.mul_mod_mul_right, hrest, gt_iff_lt,
    Nat.mul_lt_mul_right hc, Nat.mul_left_inj hc.ne']

theorem roundDiv_congr (hb : 0 < b) (hd : 0 < d) (h : (a : ℚ) / b = c / d) :
    roundDiv a b = roundDiv c d := by
  have hcross : a * d = c * b := by
    have hbq : (b : ℚ) ≠ 0 := by exact_mod_cast hb.ne'
    have hdq : (d : ℚ) ≠ 0 := by exact_mod_cast hd.ne'
    exact_mod_cast (div_eq_div_iff hbq hdq).mp h
  rw [← roundDiv_mul_right a b hd, hcross, Nat.mul_comm b d, roundDiv_mul_right c d hb]

theorem roundDiv_mul_self (m : Nat) (hb : 0 < b) : roundDiv (m * b) b = m := by
  simp [roundDiv, hb, hb.ne]

/-- A quotient below a whole number is not rounded beyond it. -/
theorem roundDiv_le (h : a < c * b) : roundDiv a b ≤ c := by
  have hlow : a / b < c := Nat.div_lt_of_lt_mul (by rwa [Nat.mul_comm])
  rw [roundDiv]
  split
  · omega
  · split <;> omega

theorem le_roundDiv (hb : 0 < b) (h : c * b ≤ a) : c ≤ roundDiv a b := by
  have hlow : c ≤ a / b := (Nat.le_div_iff_mul_le hb).mpr h
  rw [roundDiv]
  split
  · omega
  · split <;> omega

end Fractions

/-! ## Rounding to a double -/

section Rounding

variable {a b c d m : Nat} {e : Int} {s : Bool}

theorem ofRatio_zero (s : Bool) (b : Nat) : ofRatio s 0 b = zero s := by simp [ofRatio]

/-- The double nearest to a fraction does not depend on how the fraction is written. -/
theorem ofRatio_congr (hb : 0 < b) (hd : 0 < d) (h : (a : ℚ) / b = c / d) :
    ofRatio s a b = ofRatio s c d := by
  have hbq : (b : ℚ) ≠ 0 := by exact_mod_cast hb.ne'
  have hdq : (d : ℚ) ≠ 0 := by exact_mod_cast hd.ne'
  have hzero : a = 0 ↔ c = 0 := by
    rw [div_eq_div_iff hbq hdq] at h
    constructor
    · rintro rfl
      simpa [hbq] using h
    · rintro rfl
      simpa [hdq] using h
  by_cases ha : a = 0
  · rw [ha, hzero.mp ha, ofRatio_zero, ofRatio_zero]
  · have hc : c ≠ 0 := mt hzero.mpr ha
    have hlog : floorLog a b = floorLog c d := by
      rw [floorLog_eq (Nat.pos_of_ne_zero ha) hb, floorLog_eq (Nat.pos_of_ne_zero hc) hd, h]
    have hround (e : Int) : roundDiv (scaleDown a b e).1 (scaleDown a b e).2
        = roundDiv (scaleDown c d e).1 (scaleDown c d e).2 :=
      roundDiv_congr (scaleDown_den_pos hb) (scaleDown_den_pos hd)
        (by rw [scaleDown_value, scaleDown_value, h])
    simp only [ofRatio, if_neg ha, if_neg hc, hlog, hround]

/-- A number in canonical form has its own exponent among the doubles. -/
theorem exponent_of_isCanonical (hm : 0 < m) (h : (finite s m e).IsCanonical) :
    max (Int.log 2 ((m : ℚ) * 2 ^ e) - 52) minExponent = e := by
  obtain ⟨hbelow, hleast, -, hfull⟩ := h
  have hmq : (0 : ℚ) < m := by exact_mod_cast hm
  have hpos : (0 : ℚ) < m * 2 ^ e := by positivity
  have hhigh : Int.log 2 ((m : ℚ) * 2 ^ e) < 53 + e := by
    rw [← Int.lt_zpow_iff_log_lt (by norm_num) hpos, Nat.cast_ofNat, zpow_add₀ (by norm_num)]
    have hbelow : (m : ℚ) < twoPow 53 := by exact_mod_cast hbelow
    exact mul_lt_mul_of_pos_right (by rwa [cast_twoPow] at hbelow) (by positivity)
  rcases hfull with hfull | rfl
  · have hlow : 52 + e ≤ Int.log 2 ((m : ℚ) * 2 ^ e) := by
      rw [← Int.zpow_le_iff_le_log (by norm_num) hpos, Nat.cast_ofNat, zpow_add₀ (by norm_num)]
      have hfull : (twoPow 52 : ℚ) ≤ m := by exact_mod_cast hfull
      exact mul_le_mul_of_nonneg_right (by rwa [cast_twoPow] at hfull) (by positivity)
    omega
  · omega

/-- A fraction that a double stands for is rounded to it. -/
theorem ofRatio_of_isCanonical (hb : 0 < b) (hm : 0 < m) (h : (finite s m e).IsCanonical)
    (hvalue : (a : ℚ) / b = m * 2 ^ e) : ofRatio s a b = finite s m e := by
  have hexponent := exponent_of_isCanonical hm h
  obtain ⟨hbelow, -, hgreatest, -⟩ := h
  have hmq : (0 : ℚ) < m := by exact_mod_cast hm
  have ha : a ≠ 0 := by
    rintro rfl
    have : (0 : ℚ) < m * 2 ^ e := by positivity
    rw [← hvalue] at this
    simp at this
  have hround : roundDiv (scaleDown a b e).1 (scaleDown a b e).2 = m := by
    rw [← roundDiv_mul_self m Nat.one_pos]
    refine roundDiv_congr (scaleDown_den_pos hb) Nat.one_pos ?_
    rw [scaleDown_value, hvalue, mul_div_cancel_right₀ _ (by positivity)]
    simp
  have hlog : max (floorLog a b - 52) minExponent = e := by
    rw [floorLog_eq (Nat.pos_of_ne_zero ha) hb, hvalue, hexponent]
  simp only [ofRatio, if_neg ha, hlog, hround, if_neg hbelow.ne, not_lt.mpr hgreatest, if_false]

/-- The sign of a fraction passes through rounding. -/
theorem ofRatio_signed (h : ofRatio false a b = finite false m e) :
    ofRatio s a b = finite s m e := by
  by_cases ha : a = 0
  · rw [ha, ofRatio_zero, zero, finite.injEq] at h
    rw [ha, ofRatio_zero, zero, h.2.1, h.2.2]
  · simp only [ofRatio, if_neg ha] at h ⊢
    generalize max (floorLog a b - 52) minExponent = f at h ⊢
    generalize roundDiv (scaleDown a b f).1 (scaleDown a b f).2 = n at h ⊢
    split_ifs at h ⊢ <;> simp_all

/-- Rounding gives a number in canonical form. -/
theorem isCanonical_ofRatio (s : Bool) (a : Nat) (hb : 0 < b) : (ofRatio s a b).IsCanonical := by
  by_cases ha : a = 0
  · rw [ha, ofRatio_zero]
    exact isCanonical_zero s
  simp only [ofRatio, if_neg ha]
  generalize he : max (floorLog a b - 52) minExponent = e
  -- In units of the last place, the fraction is below `2 ^ 53`; and it is not below `2 ^ 52`,
  -- unless the exponent is the least.
  have hbelow : roundDiv (scaleDown a b e).1 (scaleDown a b e).2 ≤ twoPow 53 :=
    roundDiv_le (scaleDown_lt (Nat.pos_of_ne_zero ha) hb (by omega))
  have hfull : e ≠ minExponent →
      twoPow 52 ≤ roundDiv (scaleDown a b e).1 (scaleDown a b e).2 := fun hne =>
    le_roundDiv (scaleDown_den_pos hb) (le_scaleDown (Nat.pos_of_ne_zero ha) hb (by omega))
  generalize roundDiv (scaleDown a b e).1 (scaleDown a b e).2 = m at *
  have hpow : twoPow 52 < twoPow 53 := by decide
  by_cases hcarry : m = twoPow 53
  · simp only [if_pos hcarry]
    split
    · trivial
    · exact ⟨hpow, by omega, by omega, .inl (Nat.le_refl _)⟩
  · simp only [if_neg hcarry]
    split
    · trivial
    · refine ⟨by omega, by omega, by omega, ?_⟩
      by_cases hne : e = minExponent
      · exact .inr hne
      · exact .inl (hfull hne)

end Rounding

end TensorFusion.Binary64
