import TensorFusion.Proofs.Graph.Path
import TensorFusion.Proofs.Pass.Survivors

/-!
# Proofs — Pass — Renumber

A part of an arena on its own. Its nodes are numbered anew, in the order that they had, and so are
the ends of their edges. Where no edge leads out of the part, the paths of the part are those of the
whole.
-/

namespace TensorFusion

/-- A node with the ends of its edges numbered by their places in a list. -/
def Node.renumber (kept : List Nat) (node : Node) : Node where
  op := node.op
  inputs := node.inputs.map fun i => kept.idxOf i
  outputs := node.outputs.map fun i => kept.idxOf i

/-- The nodes at some positions, numbered anew. -/
def Arena.renumber (a : Arena) (kept : List Nat) : Arena where
  nodes := kept.filterMap fun i => (a.node? i).map (Node.renumber kept)

namespace Arena

variable {a b : Arena} {kept : List Nat} {x s : Nat}

/-- Arenas that agree in all of their columns are equal. -/
theorem ext_columns (hop : ∀ i, a.op? i = b.op? i) (hinputs : ∀ i, a.inputs i = b.inputs i)
    (houtputs : ∀ i, a.outputs i = b.outputs i) : a = b := by
  have hnode : ∀ i, a.node? i = b.node? i := by
    intro i
    cases h : a.op? i with
    | none =>
      have h' := (hop i).symm.trans h
      rw [op?, Option.map_eq_none_iff] at h h'
      rw [h, h']
    | some op =>
      rw [node?_of_op? h, node?_of_op? ((hop i).symm.trans h), hinputs, houtputs]
  cases a
  cases b
  exact congrArg Arena.mk (List.ext_getElem? hnode)

section InRange

variable (hrange : ∀ i ∈ kept, i < a.size)
include hrange

theorem node?_renumber (x : Nat) : (a.renumber kept).node? x
    = kept[x]?.bind fun i => (a.node? i).map (Node.renumber kept) := by
  refine getElem?_filterMap_of_forall (fun i hi => ?_) x
  obtain ⟨node, hnode⟩ := node?_of_lt (hrange i hi)
  exact ⟨_, by rw [hnode]; rfl⟩

theorem op?_renumber (x : Nat) : (a.renumber kept).op? x = kept[x]?.bind a.op? := by
  rw [op?, node?_renumber hrange]
  cases kept[x]? with
  | none => rfl
  | some i => simp [op?, Node.renumber, Function.comp_def]

theorem inputs_renumber (hx : kept[x]? = some s) :
    (a.renumber kept).inputs x = (a.inputs s).map fun i => kept.idxOf i := by
  obtain ⟨node, hnode⟩ := node?_of_lt (hrange s (List.mem_of_getElem? hx))
  simp [inputs, node?_renumber hrange, hx, hnode, Node.renumber]

theorem outputs_renumber (hx : kept[x]? = some s) :
    (a.renumber kept).outputs x = (a.outputs s).map fun i => kept.idxOf i := by
  obtain ⟨node, hnode⟩ := node?_of_lt (hrange s (List.mem_of_getElem? hx))
  simp [outputs, node?_renumber hrange, hx, hnode, Node.renumber]

theorem renumber_eq_nil (hx : kept[x]? = none) :
    (a.renumber kept).inputs x = [] ∧ (a.renumber kept).outputs x = [] := by
  simp [inputs, outputs, node?_renumber hrange, hx]

/-- A path of the part is a path of the whole. -/
theorem Path.of_renumber (hclosed : ∀ i ∈ kept, ∀ k ∈ a.outputs i, k ∈ kept) {first : Value}
    {rest : List Value} {ks : List Nat} (h : (a.renumber kept).Path first rest x ks)
    (hx : kept[x]? = some s) : ∃ ks', a.Path first rest s ks' := by
  induction h generalizing s with
  | last hop hType =>
    rw [op?_renumber hrange, hx] at hop
    exact ⟨[], .last hop hType⟩
  | @step _ _ _ x y _ _ hop hType hout _ ih =>
    rw [op?_renumber hrange, hx] at hop
    rw [outputs_renumber hrange hx] at hout
    obtain ⟨k, hk, rfl⟩ := List.map_eq_singleton_iff.mp hout
    have hmem : k ∈ kept := hclosed s (List.mem_of_getElem? hx) k (by simp [hk])
    obtain ⟨ks', hks'⟩ := ih (List.getElem?_idxOf hmem)
    exact ⟨k :: ks', .step hop hType hk hks'⟩

/-- A path of the whole that begins in the part is a path of the part. -/
theorem Path.renumber (hclosed : ∀ i ∈ kept, ∀ k ∈ a.outputs i, k ∈ kept) {first : Value}
    {rest : List Value} {ks : List Nat} (h : a.Path first rest s ks) (hs : s ∈ kept) :
    (a.renumber kept).Path first rest (kept.idxOf s) (ks.map fun i => kept.idxOf i) := by
  induction h with
  | last hop hType =>
    refine .last ?_ hType
    rw [op?_renumber hrange, List.getElem?_idxOf hs]
    exact hop
  | @step _ _ _ s k _ _ hop hType hout _ ih =>
    refine .step ?_ hType ?_ (ih (hclosed s hs k (by simp [hout])))
    · rw [op?_renumber hrange, List.getElem?_idxOf hs]
      exact hop
    · rw [outputs_renumber hrange (List.getElem?_idxOf hs), hout]
      rfl

end InRange

end Arena

end TensorFusion
