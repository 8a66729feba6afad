import TensorFusion.Number.Literal
import TensorFusion.Proofs.Number.Rounding

/-!
# Proofs — Number — Numeral

Numerals by the fraction that they stand for. The double that is read from a numeral depends on that
fraction alone, so zeros may be moved from the digits to the exponent; and the numeral that is found
for a double reads back to it.
-/

namespace TensorFusion

open Binary64 (twoPow minExponent maxExponent)

namespace Decimal

/-- The fraction that a numeral stands for, its sign left out. -/
def magnitude (d : Decimal) : ℚ := d.digits * 10 ^ d.exponent

/-- That fraction as a numerator and a denominator. -/
def fraction (d : Decimal) : Nat × Nat :=
  if 0 ≤ d.exponent then (d.digits * tenPow d.exponent.toNat, 1)
  else (d.digits, tenPow (-d.exponent).toNat)

section Reading

variable {c d : Decimal} {m : Nat} {e : Int} {s : Bool}

theorem tenPow_pos (k : Nat) : 0 < tenPow k := Nat.pow_pos (by decide)

theorem cast_tenPow (k : Nat) : (tenPow k : ℚ) = 10 ^ (k : Int) := by
  show ((10 ^ k : Nat) : ℚ) = 10 ^ (k : Int)
  rw [Nat.cast_pow, zpow_natCast, Nat.cast_ofNat]

theorem fraction_den_pos (d : Decimal) : 0 < d.fraction.2 := by
  rw [fraction]
  split
  · exact Nat.one_pos
  · exact tenPow_pos _

theorem fraction_value (d : Decimal) : (d.fraction.1 : ℚ) / d.fraction.2 = d.magnitude := by
  rw [fraction, magnitude]
  split
  next he => rw [Nat.cast_mul, cast_tenPow, Int.toNat_of_nonneg he, Nat.cast_one, div_one]
  next he => rw [cast_tenPow, Int.toNat_of_nonneg (by omega), zpow_neg, div_inv_eq_mul]

theorem magnitude_pos : 0 < d.magnitude ↔ 0 < d.digits := by
  have hpow : (0 : ℚ) < 10 ^ d.exponent := by positivity
  rw [magnitude, mul_pos_iff_of_pos_right hpow, Nat.cast_pos]

/-- The place of the first digit is the logarithm of the fraction. -/
theorem place_eq (h : 0 < d.digits) :
    (width d.digits : Int) + d.exponent = Int.log 10 d.magnitude + 1 := by
  have hwidth : 0 < width d.digits := Nat.length_toDigits_pos
  have hhigh : d.digits < 10 ^ width d.digits :=
    (Nat.length_toDigits_le_iff (by decide) hwidth).mp (Nat.le_refl _)
  have hlow : 10 ^ (width d.digits - 1) ≤ d.digits := by
    rcases Nat.eq_zero_or_pos (width d.digits - 1) with hone | hmore
    · rw [hone]
      exact h
    · refine Nat.le_of_not_lt fun hlt => ?_
      have := (Nat.length_toDigits_le_iff (by decide) hmore).mpr hlt
      rw [← width] at this
      omega
  have hlog_high : Int.log 10 d.magnitude < width d.digits + d.exponent := by
    rw [← Int.lt_zpow_iff_log_lt (by decide) (magnitude_pos.mpr h), zpow_add₀ (by norm_num),
      zpow_natCast, magnitude]
    exact mul_lt_mul_of_pos_right (by exact_mod_cast hhigh) (by positivity)
  have hlog_low : ((width d.digits - 1 : Nat) : Int) + d.exponent ≤ Int.log 10 d.magnitude := by
    rw [← Int.zpow_le_iff_le_log (by decide) (magnitude_pos.mpr h), zpow_add₀ (by norm_num),
      zpow_natCast, magnitude]
    exact mul_le_mul_of_nonneg_right (by exact_mod_cast hlow) (by positivity)
  omega

theorem toBinary64_of_pos (h : 0 < d.digits) :
    d.toBinary64 =
      if 400 < Int.log 10 d.magnitude + 1 then .infinity d.negative
      else if Int.log 10 d.magnitude + 1 < -400 then .zero d.negative
      else .ofRatio d.negative d.fraction.1 d.fraction.2 := by
  simp only [toBinary64, if_neg h.ne', place_eq h, fraction]
  split_ifs <;> rfl

/-- The double that is read depends on the sign and on the fraction alone. -/
theorem toBinary64_congr (hs : c.negative = d.negative) (h : c.magnitude = d.magnitude) :
    c.toBinary64 = d.toBinary64 := by
  by_cases hd : 0 < d.digits
  · have hc : 0 < c.digits := by rwa [← magnitude_pos, h, magnitude_pos]
    have hfraction : Binary64.ofRatio d.negative c.fraction.1 c.fraction.2
        = .ofRatio d.negative d.fraction.1 d.fraction.2 :=
      Binary64.ofRatio_congr (fraction_den_pos c) (fraction_den_pos d)
        (by rw [fraction_value, fraction_value, h])
    rw [toBinary64_of_pos hc, toBinary64_of_pos hd, hs, h, hfraction]
  · have hc : ¬ 0 < c.digits := by rwa [← magnitude_pos, h, magnitude_pos]
    rw [toBinary64, toBinary64, if_pos (by omega), if_pos (by omega), hs]

theorem isCanonical_toBinary64 (d : Decimal) : d.toBinary64.IsCanonical := by
  by_cases hd : 0 < d.digits
  · rw [toBinary64_of_pos hd]
    split_ifs
    · trivial
    · exact Binary64.isCanonical_zero _
    · exact Binary64.isCanonical_ofRatio _ _ (fraction_den_pos d)
  · rw [toBinary64, if_pos (by omega)]
    exact Binary64.isCanonical_zero _

/-- The least double is not below the least place … -/
theorem least_le : (10 : ℚ) ^ (-401 : Int) ≤ 2 ^ (-1074 : Int) := by
  have hnat : 2 ^ 1074 ≤ 10 ^ 401 := by decide +kernel
  rw [zpow_neg, zpow_neg, inv_le_inv₀ (by positivity) (by positivity)]
  exact_mod_cast hnat

/-- … and what is above the greatest double is not beyond the greatest place. -/
theorem greatest_le : (2 : ℚ) ^ (1024 : Int) ≤ 10 ^ (400 : Int) := by
  have hnat : 2 ^ 1024 ≤ 10 ^ 400 := by decide +kernel
  exact_mod_cast hnat

/-- The doubles are all within the places where numerals are rounded. -/
theorem log_bounds (hm : 0 < m) (h : (Binary64.finite s m e).IsCanonical) :
    -401 ≤ Int.log 10 ((m : ℚ) * 2 ^ e) ∧ Int.log 10 ((m : ℚ) * 2 ^ e) < 400 := by
  obtain ⟨hbelow, hleast, hgreatest, -⟩ := h
  have hpos : (0 : ℚ) < m * 2 ^ e := mul_pos (by exact_mod_cast hm) (by positivity)
  constructor
  · rw [← Int.zpow_le_iff_le_log (by decide) hpos]
    calc ((10 : Nat) : ℚ) ^ (-401 : Int) ≤ 2 ^ (-1074 : Int) := least_le
      _ ≤ 2 ^ e := zpow_le_zpow_right₀ (by norm_num) hleast
      _ ≤ m * 2 ^ e := le_mul_of_one_le_left (by positivity) (by exact_mod_cast hm)
  · rw [← Int.lt_zpow_iff_log_lt (by decide) hpos]
    calc (m : ℚ) * 2 ^ e < twoPow 53 * 2 ^ e :=
          mul_lt_mul_of_pos_right (by exact_mod_cast hbelow) (by positivity)
      _ ≤ twoPow 53 * 2 ^ (971 : Int) := by
          refine mul_le_mul_of_nonneg_left ?_ (by positivity)
          exact zpow_le_zpow_right₀ (by norm_num) hgreatest
      _ = 2 ^ (1024 : Int) := by rw [Binary64.cast_twoPow, ← zpow_add₀ (by norm_num)]; rfl
      _ ≤ ((10 : Nat) : ℚ) ^ (400 : Int) := greatest_le

/-- A numeral for the fraction that a double stands for reads as that double. -/
theorem toBinary64_of_isCanonical (hm : 0 < m) (h : (Binary64.finite s m e).IsCanonical)
    (hs : d.negative = s) (hvalue : d.magnitude = m * 2 ^ e) :
    d.toBinary64 = .finite s m e := by
  obtain ⟨hlow, hhigh⟩ := log_bounds hm h
  have hd : 0 < d.digits := by
    rw [← magnitude_pos, hvalue]
    exact mul_pos (by exact_mod_cast hm) (by positivity)
  rw [toBinary64_of_pos hd, hvalue, if_neg (by omega), if_neg (by omega), hs]
  exact Binary64.ofRatio_of_isCanonical (fraction_den_pos d) hm h (by rw [fraction_value, hvalue])

/-- The sign of a numeral passes through reading. -/
theorem toBinary64_signed (hd : d.negative = false) (h : d.toBinary64 = .finite false m e) :
    toBinary64 ⟨s, d.digits, d.exponent⟩ = .finite s m e := by
  simp only [toBinary64, hd] at h ⊢
  split_ifs at h ⊢
  · rw [Binary64.zero, Binary64.finite.injEq] at h
    rw [Binary64.zero, h.2.1, h.2.2]
  · rw [Binary64.zero, Binary64.finite.injEq] at h
    rw [Binary64.zero, h.2.1, h.2.2]
  · exact Binary64.ofRatio_signed h
  · exact Binary64.ofRatio_signed h

end Reading

/-! ## The numeral of a double -/

section Writing

variable {d : Decimal} {m places : Nat} {e : Int} {s : Bool}

/-- Leaving out zeros at the end changes nothing of the fraction. -/
theorem magnitude_trimmed (d : Decimal) : d.trimmed.magnitude = d.magnitude := by
  have hzeros : ∀ c ∈ (Nat.toDigits 10 d.digits).reverse.takeWhile (· = '0'), c = '0' := fun c hc =>
    of_decide_eq_true (List.all_eq_true.mp List.all_takeWhile c hc)
  have hsplit := congrArg List.reverse
    (List.takeWhile_append_dropWhile (p := (· = '0')) (l := (Nat.toDigits 10 d.digits).reverse))
  rw [List.reverse_append, List.reverse_reverse, List.eq_replicate_of_mem hzeros,
    List.reverse_replicate] at hsplit
  generalize hkept : ((Nat.toDigits 10 d.digits).reverse.dropWhile (· = '0')).reverse = kept
    at hsplit
  generalize ((Nat.toDigits 10 d.digits).reverse.takeWhile (· = '0')).length = zeros at hsplit
  have hdropped : width d.digits - kept.length = zeros := by
    rw [width, ← hsplit, List.length_append, List.length_replicate]
    omega
  have hdigits : d.digits = tenPow zeros * Nat.ofDigitChars 10 kept 0 := by
    rw [← Nat.ofDigitChars_ten_toDigits (n := d.digits), ← hsplit, Nat.ofDigitChars_append,
      Nat.ofDigitChars_replicate_zero]
    rfl
  rw [trimmed]
  simp only [hkept, hdropped]
  split
  · rfl
  · rw [magnitude, magnitude, hdigits, Nat.mul_div_cancel_left _ (tenPow_pos _), Nat.cast_mul,
      cast_tenPow, zpow_add₀ (by norm_num)]
    ring

theorem negative_trimmed (d : Decimal) : d.trimmed.negative = d.negative := by
  rw [trimmed]
  split <;> rfl

theorem negative_exact (m : Nat) (e : Int) : (exact m e).negative = false := by
  rw [exact]
  split <;> rfl

/-- The numeral with all digits is exact. -/
theorem magnitude_exact (m : Nat) (e : Int) : (exact m e).magnitude = m * 2 ^ e := by
  rw [exact]
  split
  next he =>
    rw [magnitude, Nat.cast_mul, Binary64.cast_twoPow, Int.toNat_of_nonneg he, zpow_zero, mul_one]
  next he =>
    have hfive : ((Nat.pow 5 (-e).toNat : Nat) : ℚ) = 5 ^ (-e) := by
      show ((5 ^ (-e).toNat : Nat) : ℚ) = 5 ^ (-e)
      rw [Nat.cast_pow, ← zpow_natCast, Int.toNat_of_nonneg (by omega), Nat.cast_ofNat]
    rw [magnitude, Nat.cast_mul, hfive, show (10 : ℚ) = 5 * 2 by norm_num, mul_zpow, zpow_neg]
    field_simp

/-- What is found among the numerals of so many places reads back, since that is tried. -/
theorem toBinary64_of_ofPlaces? (h : ofPlaces? m e places = some d) :
    d.negative = false ∧ d.toBinary64 = .finite false m e := by
  rw [ofPlaces?] at h
  simp only [decide_eq_true_eq] at h
  split_ifs at h <;> cases h <;> exact ⟨rfl, ‹_›⟩

/-- The shortest numeral of a double reads back to it. -/
theorem toBinary64_shortest (hm : 0 < m) (h : (Binary64.finite s m e).IsCanonical) :
    (shortest s m e).toBinary64 = .finite s m e := by
  rw [shortest]
  generalize hfound : (List.range 17).findSome? (fun n => ofPlaces? m e (n + 1)) = found
  have hreads : (found.getD (exact m e)).negative = false ∧
      (found.getD (exact m e)).toBinary64 = .finite false m e := by
    cases found with
    | none => exact ⟨negative_exact m e, toBinary64_of_isCanonical hm h (negative_exact m e)
        (magnitude_exact m e)⟩
    | some d =>
      obtain ⟨n, -, hplaces⟩ := List.exists_of_findSome?_eq_some hfound
      exact toBinary64_of_ofPlaces? hplaces
  have hkept : (found.getD (exact m e)).trimmed.negative = false := by
    rw [negative_trimmed, hreads.1]
  refine toBinary64_signed hkept ?_
  rw [← hreads.2]
  exact toBinary64_congr (negative_trimmed _) (magnitude_trimmed _)

end Writing

end Decimal

end TensorFusion
