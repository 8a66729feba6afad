import Mathlib.Data.List.Chain
import TensorFusion.Number.Literal
import TensorFusion.Proofs.Number.Rounding
import TensorFusion.Value.Table

/-!
# Proofs — Json — Readable

The values that a document can hold. Whole numbers are no longer than what is read, doubles have
their one form, the code points of a text are in range with no pair of halves left apart, and the
keys of a map are texts, no two of them the same.
-/

namespace TensorFusion

namespace Points

/-- The code points of a text that a document spells: none is out of range, and where the second
half of a pair stands behind the first, the two are joined. -/
structure AreSpelled (points : List Nat) : Prop where
  inRange : ∀ point ∈ points, point < 0x110000
  joined : points.IsChain fun a b => ¬ (isFirstHalf a = true ∧ isSecondHalf b = true)

theorem isHalf_of_isFirstHalf {point : Nat} (h : isFirstHalf point = true) :
    isHalf point = true := by
  simp only [isFirstHalf, isHalf, Bool.and_eq_true, decide_eq_true_eq] at *
  omega

theorem isHalf_of_isSecondHalf {point : Nat} (h : isSecondHalf point = true) :
    isHalf point = true := by
  simp only [isSecondHalf, isHalf, Bool.and_eq_true, decide_eq_true_eq] at *
  omega

theorem isHalf_toNat (c : Char) : isHalf c.toNat = false := by
  have hvalid : c.toNat < 0xd800 ∨ 0xdfff < c.toNat ∧ c.toNat < 0x110000 := c.valid
  simp only [isHalf, Bool.and_eq_false_iff, decide_eq_false_iff_not]
  omega

theorem toNat_lt (c : Char) : c.toNat < 0x110000 := by
  have hvalid : c.toNat < 0xd800 ∨ 0xdfff < c.toNat ∧ c.toNat < 0x110000 := c.valid
  omega

theorem isHalf_of_mem_ofText {s : String} {point : Nat} (h : point ∈ ofText s) :
    isHalf point = false := by
  obtain ⟨c, -, rfl⟩ := List.mem_map.mp h
  exact isHalf_toNat c

/-- The code points of a text have no halves to join. -/
theorem areSpelled_ofText (s : String) : AreSpelled (ofText s) where
  inRange := by
    intro point hpoint
    obtain ⟨c, -, rfl⟩ := List.mem_map.mp hpoint
    exact toNat_lt c
  joined := by
    rw [List.isChain_iff_getElem]
    intro i hi h
    have := isHalf_of_mem_ofText (List.getElem_mem (by omega : i < (ofText s).length))
    rw [isHalf_of_isFirstHalf h.1] at this
    cases this

/-- A text is what its code points spell. -/
theorem text?_ofText (s : String) : text? (ofText s) = some s := by
  have hnone : (ofText s).any isHalf = false := by
    rw [List.any_eq_false]
    intro point hpoint
    rw [isHalf_of_mem_ofText hpoint]
    exact Bool.false_ne_true
  rw [text?, hnone, ofText, List.map_map]
  simp [Function.comp_def, Char.ofNat_toNat]

end Points

namespace Atom

/-- An atom that a document can hold. -/
def IsReadable : Atom → Prop
  | .null => True
  | .bool _ => True
  | .int n => (Nat.toDigits 10 n.natAbs).length ≤ Literal.maxDigits
  | .real x => x.IsCanonical
  | .text _ => True
  | .brokenText points => points.any Points.isHalf = true ∧ Points.AreSpelled points

variable {a : Atom} {points : List Nat}

/-- Code points that a document spells are an atom. -/
theorem isReadable_ofPoints (h : Points.AreSpelled points) : (ofPoints points).IsReadable := by
  rw [ofPoints, Points.text?]
  cases hhalf : points.any Points.isHalf with
  | false => trivial
  | true => exact ⟨hhalf, h⟩

/-- A readable text is the atom of its code points, and a document can spell these. -/
theorem IsReadable.ofPoints_eq (h : a.IsReadable) (hpoints : a.points? = some points) :
    ofPoints points = a ∧ Points.AreSpelled points := by
  cases a with
  | text s =>
    cases hpoints
    exact ⟨by rw [ofPoints, Points.text?_ofText], Points.areSpelled_ofText s⟩
  | brokenText broken =>
    cases hpoints
    exact ⟨by rw [ofPoints, Points.text?, if_pos h.1], h.2⟩
  | _ => cases hpoints

end Atom

/-- A key that a document can hold: a readable text. -/
def Atom.IsKey (a : Atom) : Prop := a.IsReadable ∧ a.points?.isSome = true

/-- A value that a document can hold. -/
inductive Value.IsReadable : Value → Prop
  | atom {a : Atom} (h : a.IsReadable) : IsReadable (.atom a)
  | list {items : List Value} (h : ∀ v ∈ items, IsReadable v) : IsReadable (.list items)
  | map {entries : List (Atom × Value)}
      (distinct : (entries.map fun e => e.1.key).Nodup) (keys : ∀ e ∈ entries, e.1.IsKey)
      (h : ∀ e ∈ entries, IsReadable e.2) : IsReadable (.map entries)

namespace Value

variable {a : Atom} {items : List Value} {entries : List (Atom × Value)}

theorem isReadable_atom : IsReadable (.atom a) ↔ a.IsReadable := by
  constructor
  · intro h
    cases h with
    | atom h => exact h
  · exact .atom

theorem isReadable_list : IsReadable (.list items) ↔ ∀ v ∈ items, v.IsReadable := by
  constructor
  · intro h
    cases h with
    | list h => exact h
  · exact .list

theorem isReadable_map : IsReadable (.map entries) ↔
    (entries.map fun e => e.1.key).Nodup ∧ ∀ e ∈ entries, e.1.IsKey ∧ e.2.IsReadable := by
  constructor
  · intro h
    cases h with
    | map distinct keys h => exact ⟨distinct, fun e he => ⟨keys e he, h e he⟩⟩
  · intro h
    obtain ⟨distinct, h⟩ := h
    exact .map distinct (fun e he => (h e he).1) fun e he => (h e he).2

end Value

end TensorFusion
