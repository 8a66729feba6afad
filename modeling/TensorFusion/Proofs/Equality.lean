import TensorFusion.Program.Document

/-!
# Proofs — Equality

Values are compared by what they denote and maps in any order. A program is equal to itself, and
equal programs have equally many operators.
-/

namespace TensorFusion

namespace Value

mutual

theorem same_refl : (v : Value) → v.same v = true
  | .atom a => by rw [same_atom, Atom.same_refl]
  | .list items => by rw [same, sameItems_refl items]
  | .map entries => by
    rw [same, sameEntries_of_subset entries entries (fun _ h => h)]
    simp

theorem sameItems_refl : (items : List Value) → sameItems items items = true
  | [] => by rw [sameItems]
  | v :: items => by rw [sameItems, same_refl v, sameItems_refl items, Bool.and_self]

/-- Every entry has an equal one in a list that holds it. -/
theorem sameEntries_of_subset : (xs ys : List (Atom × Value)) → xs ⊆ ys →
    sameEntries xs ys = true
  | [], _, _ => by rw [sameEntries]
  | (k, v) :: xs, ys, h => by
    have hfirst : sameEntry (k, v) ys = true := by
      rw [sameEntry, List.any_eq_true]
      exact ⟨(k, v), h (List.mem_cons_self ..), by rw [Atom.same_refl, same_refl v, Bool.and_self]⟩
    rw [sameEntries, hfirst, sameEntries_of_subset xs ys (List.subset_of_cons_subset h),
      Bool.and_self]

end

theorem length_eq_of_sameItems {xs ys : List Value} (h : sameItems xs ys = true) :
    xs.length = ys.length := by
  induction xs generalizing ys with
  | nil =>
    cases ys with
    | nil => rfl
    | cons y ys => simp [sameItems] at h
  | cons x xs ih =>
    cases ys with
    | nil => simp [sameItems] at h
    | cons y ys =>
      rw [sameItems, Bool.and_eq_true] at h
      rw [List.length_cons, List.length_cons, ih h.2]

end Value

theorem Program.same_refl (p : Program) : p.same p = true := Value.same_refl _

/-- Equal programs of one block have equally many operators. -/
theorem Program.length_eq_of_same {b b' : Block}
    (h : ({ blocks := [b] } : Program).same { blocks := [b'] } = true) :
    b.ops.length = b'.ops.length := by
  simp only [same, toValue, Block.toValue, List.map_cons, List.map_nil, Value.same,
    Value.sameEntries, Value.sameEntry, Value.sameItems, List.any_cons, List.any_nil,
    Atom.same_text] at h
  have hfields : Value.sameItems (b.vars.map Variable.toValue) (b'.vars.map Variable.toValue)
      = true ∧ Value.sameItems (b.ops.map Op.toValue) (b'.ops.map Op.toValue) = true := by
    simpa using h
  simpa using Value.length_eq_of_sameItems hfields.2

end TensorFusion
