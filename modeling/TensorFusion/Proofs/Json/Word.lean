import Mathlib.Tactic.IntervalCases
import TensorFusion.Json.Token
import TensorFusion.Json.Writer
import TensorFusion.Proofs.Json.Readable
import TensorFusion.Proofs.Number.Literal

/-!
# Proofs — Json — Word

The words that atoms other than texts are written as. No blank, mark or quote is in one, so a scan
takes it in whole; and the atom that is read from it is the one that was written.
-/

namespace TensorFusion.Json

open Literal (Parts IsLead IsPositive)

/-- A character that does not end a word. -/
def IsInner (c : Char) : Prop := mark? c = none ∧ isBlank c = false ∧ c ≠ '"'

instance (c : Char) : Decidable (IsInner c) :=
  inferInstanceAs (Decidable (mark? c = none ∧ isBlank c = false ∧ c ≠ '"'))

/-- A word that stands for an atom. -/
structure IsWordOf (word : List Char) (a : Atom) : Prop where
  inner : ∀ c ∈ word, IsInner c
  ne_nil : word ≠ []
  reads : wordToken word = .atom a

/-! ## Numbers -/

def signText (negative : Bool) : List Char := if negative then ['-'] else []

/-- The token of a number's digits and what follows them, the sign being known. -/
def bodyToken (negative : Bool) (body : List Char) : Token :=
  let whole := body.takeWhile Char.isDigit
  let tail := body.dropWhile Char.isDigit
  if !isWhole whole then .fault
  else if startsFraction tail then
    match Literal.decimal? negative body with
    | some d => .atom (.real d.toBinary64)
    | none => .fault
  else if Literal.maxDigits < whole.length then .overlong
  else if tail.isEmpty then
    let n : Int := Literal.natOfDigits whole
    .atom (.int (if negative then -n else n))
  else .fault

section Numbers

variable {digits rest : List Char} {c : Char} {s : Bool}

theorem isInner_of_isDigit (h : c.isDigit = true) : IsInner c := by
  have hrange : 48 ≤ c.toNat ∧ c.toNat ≤ 57 := by
    simp only [Char.isDigit, Bool.and_eq_true, decide_eq_true_eq] at h
    exact h
  obtain ⟨hlow, hhigh⟩ := hrange
  rw [← Char.ofNat_toNat c]
  generalize c.toNat = n at *
  interval_cases n <;> decide

theorem isWhole_of_isLead (h : IsLead digits) : isWhole digits = true := by
  rcases h with rfl | h
  · rfl
  · obtain ⟨c, rest, rfl, hc⟩ := h.starts
    have hfirst : c.isDigit = true := h.isDigit c (by simp)
    have hrest : rest.all Char.isDigit = true :=
      List.all_eq_true.mpr fun d hd => h.isDigit d (by simp [hd])
    unfold isWhole
    split
    · rfl
    next heq =>
      cases heq
      simp [hc, hfirst, hrest]
    next heq => cases heq

theorem minus_ne_of_isDigit (h : c.isDigit = true) : c ≠ '-' := by
  rintro rfl
  cases h

/-- A number has none of the names. -/
theorem ofList_signed_ne (h : c.isDigit = true) {name : String}
    (hname : (name.toList.dropWhile (· = '-')).head?.any Char.isDigit = false) :
    String.ofList (signText s ++ c :: rest) ≠ name := by
  rintro rfl
  rw [String.toList_ofList] at hname
  cases s <;> simp [signText, minus_ne_of_isDigit h, h] at hname

/-- A number is read by its sign and the rest. -/
theorem wordToken_signed (h : c.isDigit = true) (s : Bool) (rest : List Char) :
    wordToken (signText s ++ c :: rest) = bodyToken s (c :: rest) := by
  have hnumber : numberToken (signText s ++ c :: rest) = bodyToken s (c :: rest) := by
    cases s with
    | true => rfl
    | false =>
      rw [signText, if_neg Bool.false_ne_true, List.nil_append, numberToken]
      · rfl
      · intro rest' heq
        cases heq
        exact absurd rfl (minus_ne_of_isDigit h)
  rw [wordToken]
  split
  next heq => exact absurd heq (ofList_signed_ne h (by decide))
  next heq => exact absurd heq (ofList_signed_ne h (by decide))
  next heq => exact absurd heq (ofList_signed_ne h (by decide))
  next heq => exact absurd heq (ofList_signed_ne h (by decide))
  next heq => exact absurd heq (ofList_signed_ne h (by decide))
  next heq => exact absurd heq (ofList_signed_ne h (by decide))
  next => exact hnumber

theorem startsFraction_tail (p : Parts) : startsFraction p.tail = true := by
  rw [Parts.tail]
  cases hplaces : p.places with
  | cons c places =>
    have hc : c.isDigit = true := p.isDigit c (by simp [hplaces])
    simp [Parts.pointText, startsFraction, hc]
  | nil =>
    obtain ⟨k, hk⟩ := Option.ne_none_iff_exists'.mp (p.isBroken.resolve_left (by simp [hplaces]))
    obtain ⟨hdigits, hne, -⟩ := Parts.padded_digits k.natAbs 2
    obtain ⟨c, rest, hpadded⟩ := List.exists_cons_of_ne_nil hne
    have hc : c.isDigit = true := hdigits c (by simp [hpadded])
    rw [hk, Parts.pointText, List.nil_append, Parts.powerText, hpadded]
    split <;> simp [startsFraction, hc]

/-- A number in parts is read as the double nearest to its numeral. -/
theorem bodyToken_body (p : Parts) (s : Bool) :
    bodyToken s p.body = .atom (.real (p.numeral s).toBinary64) := by
  obtain ⟨hwhole, htail⟩ :=
    Literal.takeWhile_digits p.isLead.isDigit fun c hc => Parts.tail_head (p := p) hc
  have hdecimal := p.decimal?_body s
  rw [bodyToken]
  rw [Parts.body] at hdecimal ⊢
  simp only [hdecimal, hwhole, htail, isWhole_of_isLead p.isLead,
    startsFraction_tail, Bool.not_true, Bool.false_eq_true, if_false, if_true]

/-- Digits alone are read as a whole number. -/
theorem bodyToken_digits (h : IsLead digits) (hlength : digits.length ≤ Literal.maxDigits)
    (s : Bool) : bodyToken s digits = .atom (.int
      (if s then -(Literal.natOfDigits digits : Int) else Literal.natOfDigits digits)) := by
  have hend : ∀ c ∈ ([] : List Char).head?, c.isDigit = false := by simp
  obtain ⟨hwhole, htail⟩ := Literal.takeWhile_digits h.isDigit hend
  rw [List.append_nil] at hwhole htail
  rw [bodyToken]
  simp only [hwhole, htail, isWhole_of_isLead h, startsFraction, Bool.not_true, Bool.false_eq_true,
    if_false, Nat.not_lt.mpr hlength, List.isEmpty_nil, if_true]

end Numbers

/-! ## Atoms -/

section Atoms

variable {digits word : List Char} {s : Bool} {a : Atom}

/-- A name is a word, as what is read from it tells. -/
theorem isWordOf_of_all (hinner : word.all (IsInner ·) = true) (hreads : wordToken word = .atom a) :
    IsWordOf word a where
  inner c hc := of_decide_eq_true (List.all_eq_true.mp hinner c hc)
  ne_nil := by
    rintro rfl
    cases hreads
  reads := hreads

theorem isInner_of_mem_signText {c : Char} (h : c ∈ signText s) : IsInner c := by
  cases s with
  | true =>
    rw [List.mem_singleton.mp h]
    decide
  | false => cases h

theorem isInner_of_mem_body {p : Parts} {c : Char} (h : c ∈ p.body) : IsInner c := by
  rw [Parts.body, Parts.tail, List.mem_append, List.mem_append] at h
  rcases h with hwhole | hplaces | hpower
  · exact isInner_of_isDigit (p.isLead.isDigit c hwhole)
  · cases hp : p.places with
    | nil =>
      rw [hp] at hplaces
      cases hplaces
    | cons d places =>
      rw [hp, Parts.pointText, ← hp] at hplaces
      rcases List.mem_cons.mp hplaces with rfl | hdigit
      · decide
      · exact isInner_of_isDigit (p.isDigit c hdigit)
  · cases hk : p.power with
    | none =>
      rw [hk] at hpower
      cases hpower
    | some k =>
      rw [hk, Parts.powerText, List.mem_cons, List.mem_cons] at hpower
      rcases hpower with rfl | rfl | hdigit
      · decide
      · split <;> decide
      · exact isInner_of_isDigit ((Parts.padded_digits k.natAbs 2).1 c hdigit)

theorem toList_toString_int (n : Int) :
    (toString n).toList = signText (n < 0) ++ Nat.toDigits 10 n.natAbs := by
  rw [Int.toString_eq_repr, Int.repr_eq_if]
  split
  next hn =>
    have habs : n.toNat = n.natAbs := by omega
    simp [signText, hn, habs, Nat.repr_eq_ofList_toDigits]
  next hn =>
    have habs : (-n).toNat = n.natAbs := by omega
    have hneg : n < 0 := by omega
    simp [signText, hneg, habs, Nat.repr_eq_ofList_toDigits]

/-- A whole number is written as a word. -/
theorem isWordOf_int {n : Int} (h : (Nat.toDigits 10 n.natAbs).length ≤ Literal.maxDigits) :
    IsWordOf (atomText (.int n)).toList (.int n) := by
  have hlead := Literal.isLead_toDigits n.natAbs
  obtain ⟨c, rest, hdigits⟩ := List.exists_cons_of_ne_nil hlead.ne_nil
  have hc : c.isDigit = true := hlead.isDigit c (by simp [hdigits])
  have hvalue : (if (decide (n < 0)) = true then -(n.natAbs : Int) else n.natAbs) = n := by
    split
    next hneg =>
      have := of_decide_eq_true hneg
      omega
    next hpos =>
      have := of_decide_eq_false (Bool.eq_false_iff.mpr hpos)
      omega
  rw [atomText, toList_toString_int]
  refine ⟨fun d hd => ?_, ?_, ?_⟩
  · rcases List.mem_append.mp hd with hsign | hdigit
    · exact isInner_of_mem_signText hsign
    · exact isInner_of_isDigit (hlead.isDigit d hdigit)
  · simp [hdigits]
  · rw [hdigits, wordToken_signed hc, ← hdigits, bodyToken_digits hlead h,
      Literal.natOfDigits_toDigits, hvalue]

/-- A number in parts is written as a word. -/
theorem isWordOf_parts (p : Parts) (s : Bool) :
    IsWordOf (signText s ++ p.body) (.real (p.numeral s).toBinary64) := by
  obtain ⟨c, rest, hwhole⟩ := List.exists_cons_of_ne_nil p.isLead.ne_nil
  have hc : c.isDigit = true := p.isLead.isDigit c (by simp [hwhole])
  have hbody : p.body = c :: (rest ++ p.tail) := by rw [Parts.body, hwhole, List.cons_append]
  refine ⟨fun d hd => ?_, ?_, ?_⟩
  · rcases List.mem_append.mp hd with hsign | hinner
    · exact isInner_of_mem_signText hsign
    · exact isInner_of_mem_body hinner
  · simp [hbody]
  · rw [hbody, wordToken_signed hc, ← hbody, bodyToken_body]

/-- A double is written as a word. -/
theorem isWordOf_real {x : Binary64} (h : x.IsCanonical) :
    IsWordOf (atomText (.real x)).toList (.real x) := by
  cases x with
  | nan payload =>
    obtain rfl : payload = 0 := h
    exact isWordOf_of_all rfl rfl
  | infinity s => cases s <;> exact isWordOf_of_all rfl rfl
  | finite s m e =>
    show IsWordOf (Binary64.text (.finite s m e)).toList _
    rcases Nat.eq_zero_or_pos m with rfl | hm
    · -- The one zero has no shortest numeral of its own.
      have hzero : e = Binary64.minExponent := h.2.2.2.resolve_left (by decide)
      have hparts := isWordOf_parts
        ⟨['0'], ['0'], none, .inl rfl, by simp, .inl (List.cons_ne_nil _ _)⟩ s
      have hnumeral : Decimal.toBinary64 ⟨s, 0, -1⟩ = .finite s 0 e := by rw [hzero]; rfl
      have htext : (Binary64.text (.finite s 0 e)).toList = signText s ++ ['0', '.', '0'] := by
        rw [Binary64.text]
        simp [signText]
      rw [htext, ← hnumeral]
      exact hparts
    · obtain ⟨p, htext, hreads⟩ := Literal.exists_parts_text hm h
      rw [htext, String.toList_ofList, ← hreads]
      exact isWordOf_parts p s

/-- An atom other than a text is written as a word. -/
theorem isWordOf_atomText (h : a.IsReadable) (hpoints : a.points? = none) :
    IsWordOf (atomText a).toList a := by
  cases a with
  | null => exact isWordOf_of_all rfl rfl
  | bool b => cases b <;> exact isWordOf_of_all rfl rfl
  | int n => exact isWordOf_int h
  | real x => exact isWordOf_real h
  | text s => cases hpoints
  | brokenText points => cases hpoints

end Atoms

end TensorFusion.Json
