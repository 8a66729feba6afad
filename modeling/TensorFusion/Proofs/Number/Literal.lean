import TensorFusion.Proofs.Number.Numeral

/-!
# Proofs — Number — Literal

Numerals as they are written, taken apart into the digits before the point, the digits behind it and
the exponent. A numeral that is written so is read in these parts; and the text of a double has such
parts, which make up a numeral that reads as the double.
-/

namespace TensorFusion.Literal

/-- Digits of a positive number, with no zero in front. -/
structure IsPositive (digits : List Char) : Prop where
  isDigit : ∀ c ∈ digits, c.isDigit = true
  starts : ∃ c rest, digits = c :: rest ∧ c ≠ '0'

/-- Digits of a whole number: no zero in front of others. -/
def IsLead (digits : List Char) : Prop := digits = ['0'] ∨ IsPositive digits

/-! ## Digits -/

section Digits

variable {digits rest : List Char} {n : Nat}

theorem natOfDigits_toDigits (n : Nat) : natOfDigits (Nat.toDigits 10 n) = n :=
  Nat.ofDigitChars_ten_toDigits

theorem natOfDigits_zeros_append (k : Nat) (digits : List Char) :
    natOfDigits (List.replicate k '0' ++ digits) = natOfDigits digits := by
  show Nat.ofDigitChars 10 _ 0 = Nat.ofDigitChars 10 _ 0
  rw [Nat.ofDigitChars_append, Nat.ofDigitChars_replicate_zero, Nat.mul_zero]

theorem natOfDigits_append_zeros (digits : List Char) (k : Nat) :
    natOfDigits (digits ++ List.replicate k '0') = 10 ^ k * natOfDigits digits := by
  show Nat.ofDigitChars 10 _ 0 = 10 ^ k * Nat.ofDigitChars 10 _ 0
  rw [Nat.ofDigitChars_append, Nat.ofDigitChars_replicate_zero]

theorem isDigit_of_mem_toDigits {c : Char} (h : c ∈ Nat.toDigits 10 n) : c.isDigit = true :=
  Nat.isDigit_of_mem_toDigits (by decide) (by decide) h

theorem isPositive_toDigits (h : 0 < n) : IsPositive (Nat.toDigits 10 n) := by
  refine ⟨fun c hc => isDigit_of_mem_toDigits hc, ?_⟩
  induction n using Nat.strong_induction_on with
  | _ n ih =>
    rw [Nat.toDigits_eq_if (by decide)]
    split
    next hlt => exact ⟨_, [], rfl, fun hzero => h.ne' (Nat.digitChar_eq_zero.mp hzero)⟩
    next hge =>
      obtain ⟨c, rest, hdigits, hc⟩ := ih (n / 10) (by omega) (by omega)
      exact ⟨c, rest ++ [(n % 10).digitChar], by rw [hdigits, List.cons_append], hc⟩

theorem isLead_toDigits (n : Nat) : IsLead (Nat.toDigits 10 n) := by
  rcases Nat.eq_zero_or_pos n with rfl | hpos
  · exact .inl rfl
  · exact .inr (isPositive_toDigits hpos)

theorem IsPositive.append (h : IsPositive digits) (hrest : ∀ c ∈ rest, c.isDigit = true) :
    IsPositive (digits ++ rest) := by
  obtain ⟨c, front, rfl, hc⟩ := h.starts
  refine ⟨fun d hd => ?_, c, front ++ rest, rfl, hc⟩
  exact (List.mem_append.mp hd).elim (h.isDigit d) (hrest d)

theorem IsPositive.take (h : IsPositive digits) {n : Nat} (hn : 0 < n) :
    IsPositive (digits.take n) := by
  obtain ⟨c, rest, rfl, hc⟩ := h.starts
  obtain ⟨n, rfl⟩ := Nat.exists_eq_add_of_lt hn
  refine ⟨fun d hd => h.isDigit d (List.mem_of_mem_take hd), c, rest.take (0 + n), ?_, hc⟩
  rw [List.take_succ_cons]

theorem IsLead.isDigit (h : IsLead digits) : ∀ c ∈ digits, c.isDigit = true := by
  rcases h with rfl | h
  · simp
  · exact h.isDigit

theorem IsLead.ne_nil (h : IsLead digits) : digits ≠ [] := by
  rcases h with rfl | h
  · exact List.cons_ne_nil '0' []
  · obtain ⟨c, rest, rfl, -⟩ := h.starts
    exact List.cons_ne_nil c rest

theorem isDigit_of_mem_zeros {k : Nat} {c : Char} (h : c ∈ List.replicate k '0') :
    c.isDigit = true := by
  rw [List.eq_of_mem_replicate h]
  rfl

/-- Where digits end, the reading of digits stops. -/
theorem takeWhile_digits (h : ∀ c ∈ digits, c.isDigit = true)
    (hrest : ∀ c ∈ rest.head?, c.isDigit = false) :
    (digits ++ rest).takeWhile Char.isDigit = digits ∧
      (digits ++ rest).dropWhile Char.isDigit = rest := by
  induction digits with
  | nil =>
    cases rest with
    | nil => exact ⟨rfl, rfl⟩
    | cons c rest =>
      have hc : c.isDigit = false := hrest c rfl
      simp [hc]
  | cons c digits ih =>
    have hc := h c (by simp)
    obtain ⟨htake, hdrop⟩ := ih fun d hd => h d (by simp [hd])
    simp [hc, htake, hdrop]

end Digits

/-! ## The parts of a numeral -/

/-- A numeral that is no whole number, taken apart: it has places behind the point or an exponent,
or both. -/
structure Parts where
  whole : List Char
  places : List Char
  power : Option Int
  isLead : IsLead whole
  isDigit : ∀ c ∈ places, c.isDigit = true
  isBroken : places ≠ [] ∨ power ≠ none

namespace Parts

def pointText : List Char → List Char
  | [] => []
  | c :: places => '.' :: c :: places

def powerText : Option Int → List Char
  | none => []
  | some k => 'e' :: (if k < 0 then '-' else '+') :: (Binary64.padded k.natAbs 2).toList

/-- What follows the whole digits. -/
def tail (p : Parts) : List Char := pointText p.places ++ powerText p.power

def body (p : Parts) : List Char := p.whole ++ p.tail

/-- The numeral that is written. -/
def numeral (p : Parts) (negative : Bool) : Decimal :=
  ⟨negative, natOfDigits (p.whole ++ p.places), p.power.getD 0 - p.places.length⟩

variable {p : Parts} {power : Option Int}

theorem pointText_of_ne_nil {places : List Char} (h : places ≠ []) :
    pointText places = '.' :: places := by
  obtain ⟨c, places, rfl⟩ := List.exists_cons_of_ne_nil h
  rfl

theorem body_of_ne_nil (h : p.places ≠ []) :
    p.body = p.whole ++ '.' :: p.places ++ powerText p.power := by
  rw [body, tail, pointText_of_ne_nil h, List.append_assoc]

theorem padded_digits (n places : Nat) :
    (∀ c ∈ (Binary64.padded n places).toList, c.isDigit = true) ∧
      (Binary64.padded n places).toList ≠ [] ∧
      natOfDigits (Binary64.padded n places).toList = n := by
  rw [Binary64.padded, String.toList_ofList]
  refine ⟨fun c hc => ?_, ?_, ?_⟩
  · rcases List.mem_append.mp hc with hzero | hdigit
    · rw [List.eq_of_mem_replicate hzero]
      rfl
    · exact isDigit_of_mem_toDigits hdigit
  · simp [Nat.toDigits_ne_nil]
  · rw [natOfDigits_zeros_append, natOfDigits_toDigits]

/-- An exponent is read as it is written. -/
theorem exponent?_powerText (power : Option Int) :
    exponent? (powerText power) = some (power.getD 0) := by
  cases power with
  | none => rfl
  | some k =>
    obtain ⟨hdigits, hne, hvalue⟩ := padded_digits k.natAbs 2
    have hall : (Binary64.padded k.natAbs 2).toList.all Char.isDigit = true := by
      rwa [List.all_eq_true]
    have hempty : (Binary64.padded k.natAbs 2).toList.isEmpty = false := by
      rwa [List.isEmpty_eq_false_iff]
    by_cases hk : k < 0
    · simp [powerText, hk, exponent?, takeSign, hall, hempty, hvalue, abs_of_neg]
    · simp [powerText, hk, exponent?, takeSign, hall, hempty, hvalue, Int.not_lt.mp hk]

theorem powerText_head {c : Char} (h : c ∈ (powerText power).head?) : c = 'e' := by
  cases power with
  | none => cases h
  | some k => exact (Option.mem_some.mp h).symm

theorem tail_head {c : Char} (h : c ∈ p.tail.head?) : c.isDigit = false := by
  rw [tail] at h
  cases hplaces : p.places with
  | nil =>
    rw [hplaces, pointText, List.nil_append] at h
    rw [powerText_head h]
    rfl
  | cons d places =>
    rw [hplaces, pointText, List.cons_append, List.head?_cons, Option.mem_some] at h
    rw [← h]
    rfl

/-- A numeral is read in the parts that it is written in. -/
theorem decimal?_body (p : Parts) (negative : Bool) :
    decimal? negative p.body = some (p.numeral negative) := by
  obtain ⟨hwhole, htail⟩ := takeWhile_digits p.isLead.isDigit fun c hc => tail_head (p := p) hc
  have hne : p.whole.isEmpty = false := List.isEmpty_eq_false_iff.mpr p.isLead.ne_nil
  simp only [decimal?, body, hwhole, htail, hne, Bool.false_and, Bool.false_eq_true, if_false]
  have hpower := exponent?_powerText p.power
  cases hplaces : p.places with
  | nil =>
    rw [tail, hplaces, pointText, List.nil_append, numeral, hplaces]
    cases hk : p.power with
    | none => simp [powerText, exponent?]
    | some k =>
      rw [hk, powerText] at hpower
      simp [powerText, hpower]
  | cons d places =>
    have hpowerText : ∀ c ∈ (powerText p.power).head?, c.isDigit = false := by
      intro c hc
      rw [powerText_head hc]
      rfl
    obtain ⟨htake, hdrop⟩ := takeWhile_digits p.isDigit hpowerText
    rw [hplaces, List.cons_append] at htake hdrop
    rw [tail, hplaces, pointText, List.cons_append, List.cons_append, numeral, hplaces]
    simp only [htake, hdrop, hpower]
    rfl

end Parts

/-! ## The parts of a double's text -/

section Doubles

variable {digits : List Char} {k : Int}

/-- The numeral of some digits in front of a power of ten. -/
def ofDigits (negative : Bool) (digits : List Char) (k : Int) : Decimal :=
  ⟨negative, natOfDigits digits, k⟩

/-- Zeros may stand among the digits or in the exponent. -/
theorem magnitude_append_zeros (s : Bool) (digits : List Char) (zeros : Nat) (k : Int) :
    (ofDigits s (digits ++ List.replicate zeros '0') k).magnitude
      = (ofDigits s digits (zeros + k)).magnitude := by
  rw [ofDigits, ofDigits, natOfDigits_append_zeros, Decimal.magnitude, Decimal.magnitude,
    Nat.cast_mul, zpow_add₀ (by norm_num), zpow_natCast, Nat.cast_pow, Nat.cast_ofNat]
  ring

/-- Digits with the point at its place make up the numeral of these digits. -/
theorem exists_parts_positional (h : IsPositive digits) (s : Bool) :
    ∃ p : Parts, Binary64.positional digits (digits.length + k) = p.body ∧
      (p.numeral s).magnitude = (ofDigits s digits k).magnitude := by
  have hne : digits ≠ [] := IsLead.ne_nil (.inr h)
  rw [Binary64.positional]
  split_ifs with hbehind hfront
  · -- All digits stand behind the point.
    generalize hzeros : (-((digits.length : Int) + k)).toNat = zeros
    have hplaces : ∀ c ∈ List.replicate zeros '0' ++ digits, c.isDigit = true := fun c hc =>
      (List.mem_append.mp hc).elim isDigit_of_mem_zeros (h.isDigit c)
    have hsome : List.replicate zeros '0' ++ digits ≠ [] := by simp [hne]
    refine ⟨⟨['0'], _, none, .inl rfl, hplaces, .inl hsome⟩, ?_, ?_⟩
    · rw [Parts.body_of_ne_nil hsome, Parts.powerText, List.append_nil]
      rfl
    · have hexponent : (0 : Int) - (List.replicate zeros '0' ++ digits).length = k := by
        rw [List.length_append, List.length_replicate]
        omega
      have hdigits : natOfDigits (['0'] ++ (List.replicate zeros '0' ++ digits))
          = natOfDigits digits := by
        rw [← List.append_assoc, ← List.replicate_one, List.replicate_append_replicate,
          natOfDigits_zeros_append]
      rw [Parts.numeral, hdigits, Option.getD_none, hexponent, ofDigits]
  · -- All digits stand before the point, with zeros behind them.
    generalize hzeros : ((digits.length : Int) + k).toNat - digits.length = zeros
    refine ⟨⟨digits ++ List.replicate zeros '0', ['0'], none,
      .inr (h.append fun c hc => isDigit_of_mem_zeros hc), by simp, .inl (List.cons_ne_nil _ _)⟩,
      ?_, ?_⟩
    · rw [Parts.body_of_ne_nil (List.cons_ne_nil _ _), Parts.powerText, List.append_nil]
    · have hdigits : digits ++ List.replicate zeros '0' ++ ['0']
          = digits ++ List.replicate (zeros + 1) '0' := by
        rw [List.append_assoc, ← List.replicate_one, List.replicate_append_replicate]
      have hexponent : ((zeros + 1 : Nat) : Int) + (0 - ((['0'] : List Char).length : Int))
          = k := by
        rw [List.length_singleton]
        omega
      show (ofDigits s (digits ++ List.replicate zeros '0' ++ ['0']) _).magnitude = _
      rw [hdigits, magnitude_append_zeros, Option.getD_none, hexponent]
  · -- The point stands among the digits.
    generalize hpoint : ((digits.length : Int) + k).toNat = point
    have hsome : digits.drop point ≠ [] := by
      rw [Ne, List.drop_eq_nil_iff]
      omega
    refine ⟨⟨digits.take point, digits.drop point, none, .inr (h.take (by omega)),
      fun c hc => h.isDigit c (List.mem_of_mem_drop hc), .inl hsome⟩, ?_, ?_⟩
    · rw [Parts.body_of_ne_nil hsome, Parts.powerText, List.append_nil]
    · have hexponent : (0 : Int) - (digits.drop point).length = k := by
        rw [List.length_drop]
        omega
      rw [Parts.numeral, List.take_append_drop, Option.getD_none, hexponent, ofDigits]

/-- Digits with the point behind the first make up the numeral of these digits as well. -/
theorem exists_parts_scientific (h : IsPositive digits) (s : Bool) :
    ∃ p : Parts, Binary64.scientific digits (digits.length + k) = p.body ∧
      (p.numeral s).magnitude = (ofDigits s digits k).magnitude := by
  refine ⟨⟨digits.take 1, digits.drop 1, some (digits.length + k - 1), .inr (h.take (by decide)),
    fun c hc => h.isDigit c (List.mem_of_mem_drop hc), .inr (Option.some_ne_none _)⟩, ?_, ?_⟩
  · have hpoint : (if digits.length ≤ 1 then [] else '.' :: digits.drop 1)
        = Parts.pointText (digits.drop 1) := by
      split
      next hone => rw [List.drop_eq_nil_iff.mpr hone, Parts.pointText]
      next hmore => rw [Parts.pointText_of_ne_nil (by rw [Ne, List.drop_eq_nil_iff]; exact hmore)]
    rw [Binary64.scientific, hpoint, Parts.body, Parts.tail, Parts.powerText, List.append_assoc]
  · have hlength := List.length_pos_iff.mpr (IsLead.ne_nil (.inr h))
    have hexponent : (digits.length : Int) + k - 1 - (digits.drop 1).length = k := by
      rw [List.length_drop]
      omega
    rw [Parts.numeral, List.take_append_drop, Option.getD_some, hexponent, ofDigits]

/-- The text of a double other than zero has parts, and the numeral of these reads as the double. -/
theorem exists_parts_text {m : Nat} {e : Int} {s : Bool} (hm : 0 < m)
    (h : (Binary64.finite s m e).IsCanonical) : ∃ p : Parts,
    (Binary64.finite s m e).text = String.ofList ((if s then ['-'] else []) ++ p.body) ∧
      (p.numeral s).toBinary64 = .finite s m e := by
  have hreads := Decimal.toBinary64_shortest hm h
  generalize hd : Decimal.shortest s m e = d at hreads
  have hsign : d.negative = s := by rw [← hd, Decimal.shortest]
  have hpos : 0 < d.digits := by
    refine Nat.pos_of_ne_zero fun hzero => ?_
    rw [Decimal.toBinary64, if_pos hzero, Binary64.zero, Binary64.finite.injEq] at hreads
    omega
  have hdigits : ofDigits s (Nat.toDigits 10 d.digits) d.exponent = d := by
    rw [ofDigits, natOfDigits_toDigits, ← hsign]
  have hparts : ∃ p : Parts, (p.numeral s).magnitude = d.magnitude ∧
      (if Binary64.leastPoint ≤ (Nat.toDigits 10 d.digits).length + d.exponent ∧
          (Nat.toDigits 10 d.digits).length + d.exponent ≤ Binary64.greatestPoint then
        Binary64.positional (Nat.toDigits 10 d.digits)
          ((Nat.toDigits 10 d.digits).length + d.exponent)
      else Binary64.scientific (Nat.toDigits 10 d.digits)
          ((Nat.toDigits 10 d.digits).length + d.exponent)) = p.body := by
    split
    · obtain ⟨p, hbody, hvalue⟩ :=
        exists_parts_positional (k := d.exponent) (isPositive_toDigits hpos) s
      exact ⟨p, by rw [hvalue, hdigits], hbody⟩
    · obtain ⟨p, hbody, hvalue⟩ :=
        exists_parts_scientific (k := d.exponent) (isPositive_toDigits hpos) s
      exact ⟨p, by rw [hvalue, hdigits], hbody⟩
  obtain ⟨p, hvalue, hbody⟩ := hparts
  refine ⟨p, ?_, ?_⟩
  · simp only [Binary64.text, if_neg hm.ne', hd, hbody]
  · rw [← hreads]
    exact Decimal.toBinary64_congr hsign.symm hvalue

end Doubles

end TensorFusion.Literal
