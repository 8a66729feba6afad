import TensorFusion.Proofs.Graph.Paired

/-!
# Proofs — Graph — FanOut

How far a match cares for the consumers of the nodes that it ends at. All branches of a template are
cut off at the depth of the longest. What is paired with a leaf at that depth may be used by any
number of nodes, but a leaf of a shorter branch is still looked at from below, and whatever uses a
node that is paired with it is one child too many.
-/

namespace TensorFusion

/-- A node stands at leaves of a tree only, wherever the tree leads to it from a node on. -/
def Pattern.PairsOnlyLeaves (p : Pattern) (a : Arena) (i m : Nat) : Prop :=
  ∀ path ∈ p.paths, a.placeAlong? i path = some m → path ∈ p.leafPaths

instance (p : Pattern) (a : Arena) (i m : Nat) : Decidable (p.PairsOnlyLeaves a i m) :=
  inferInstanceAs (Decidable (∀ path ∈ p.paths, _ → _))

namespace Pattern

variable {p q : Pattern} {a : Arena} {i m : Nat} {path : List Nat}

theorem PairsOnlyLeaves.children_eq_nil (h : p.PairsOnlyLeaves a i m) (hq : p.at? path = some q)
    (hm : a.placeAlong? i path = some m) : q.children = [] := by
  obtain ⟨q', hq', hleaf⟩ := mem_leafPaths_iff.mp (h path (mem_paths_iff.mpr ⟨q, hq⟩) hm)
  rw [hq] at hq'
  cases hq'
  exact hleaf

theorem pairsOnlyLeaves_of_children_eq_nil (h : ∀ path q, p.at? path = some q →
    a.placeAlong? i path = some m → q.children = []) : p.PairsOnlyLeaves a i m := by
  intro path hpath hm
  obtain ⟨q, hq⟩ := mem_paths_iff.mp hpath
  exact mem_leafPaths_iff.mpr ⟨q, hq, h path q hq hm⟩

/-- A child of a tree leads to a node at leaves only, where the tree does. -/
theorem PairsOnlyLeaves.child {child : Pattern} {k j : Nat} (h : p.PairsOnlyLeaves a i m)
    (hchild : p.children[k]? = some child) (hj : (a.outputs i)[k]? = some j) :
    child.PairsOnlyLeaves a j m := by
  refine pairsOnlyLeaves_of_children_eq_nil fun path q hq hm => ?_
  have hq' : p.at? (k :: path) = some q := by rw [at?_cons, hchild, Option.bind_some, hq]
  have hm' : a.placeAlong? i (k :: path) = some m := by
    rw [Arena.placeAlong?_cons, hj, Option.bind_some, hm]
  exact h.children_eq_nil hq' hm'

/-- The consumers of a node that stands at leaves only are not on the way to any node of the
tree. -/
theorem PairsOnlyLeaves.placeAlong?_mapOutputs (h : p.PairsOnlyLeaves a i m)
    (hq : p.at? path = some q) (g : List Nat → List Nat) :
    (a.mapOutputs m g).placeAlong? i path = a.placeAlong? i path := by
  induction path generalizing p i with
  | nil => rfl
  | cons k path ih =>
    rw [at?_cons, Option.bind_eq_some_iff] at hq
    obtain ⟨child, hchild, hq⟩ := hq
    have hne : i ≠ m := by
      rintro rfl
      have hroot : p.at? [] = some p := rfl
      have hleaf := h.children_eq_nil hroot rfl
      simp [hleaf] at hchild
    rw [Arena.placeAlong?_cons, Arena.placeAlong?_cons, Arena.outputs_mapOutputs_ne hne]
    refine Option.bind_congr fun j hj => ?_
    exact ih (h.child hchild hj) hq

end Pattern

namespace Template

variable {t : Template} {a : Arena} {i m : Nat} {ks : List Nat}

/-- A match is kept under new consumers of a node that stands at leaves only, just where there are
none or each of the leaves is at the full depth. -/
theorem matchesAt_mapOutputs_iff (hmatch : t.matchesAt a i = .ok true)
    (hleaves : t.root.PairsOnlyLeaves a i m) :
    t.matchesAt (a.mapOutputs m fun _ => ks) i = .ok true ↔
      ks = [] ∨ ∀ path ∈ t.root.paths, a.placeAlong? i path = some m →
        path.length + 1 = t.depth := by
  rw [matchesAt_iff_fitsAt] at hmatch ⊢
  constructor
  · intro h
    refine or_iff_not_imp_left.mpr fun hks path hpath hm => ?_
    obtain ⟨q, hq⟩ := Pattern.mem_paths_iff.mp hpath
    obtain ⟨j, node, hj, hnode, -, hlength⟩ := h.exists_place hq
    rw [hleaves.placeAlong?_mapOutputs hq, hm] at hj
    cases hj
    rw [Arena.node?_mapOutputs, Option.map_eq_some_iff] at hnode
    obtain ⟨old, -, rfl⟩ := hnode
    -- Above the last level the new consumers would have to be as many as the children: none.
    have hfull : ¬ path.length < t.depth - 1 := by
      intro hlt
      have hnone := hlength hlt
      rw [hleaves.children_eq_nil hq hm] at hnone
      exact hks (by simpa using hnone)
    have hle : path.length + q.depth ≤ t.depth := Pattern.length_add_depth_le hq
    have hpos := q.depth_pos
    omega
  · intro h path q hq
    obtain ⟨j, node, hj, hnode, hType, hlength⟩ := hmatch.exists_place hq
    have hchanged : (a.mapOutputs m fun _ => ks).nodeAlong? i path
        = some { node with outputs := if m = j then ks else node.outputs } := by
      rw [Arena.nodeAlong?_eq, hleaves.placeAlong?_mapOutputs hq, hj, Option.bind_some,
        Arena.node?_mapOutputs, hnode]
      rfl
    refine ⟨_, hchanged, hType, fun hlt => ?_⟩
    by_cases hmj : m = j
    · subst hmj
      have hnil : ks = [] := by
        rcases h with hnil | hfull
        · exact hnil
        · have hlast := hfull path (Pattern.mem_paths_iff.mpr ⟨q, hq⟩) hj
          omega
      simp [hnil, hleaves.children_eq_nil hq hj]
    · simpa [hmj] using hlength hlt

/-- What new consumers of a node do to a match that has the node at leaves only. The question is
still answered, and the answer stays yes just where the node has no consumers left or stands at no
leaf of a branch that is shorter than the longest. -/
theorem matchesAt_mapOutputs (t : Template) {a : Arena} {i m : Nat} {ks : List Nat}
    (ha : a.EdgesInRange) (hmatch : t.matchesAt a i = .ok true)
    (hleaves : t.root.PairsOnlyLeaves a i m) (hks : ∀ k ∈ ks, k < a.size) :
    ∃ matched, t.matchesAt (a.mapOutputs m fun _ => ks) i = .ok matched ∧
      (matched = true ↔ ks = [] ∨ ∀ path ∈ t.root.paths, a.placeAlong? i path = some m →
        path.length + 1 = t.depth) := by
  have hrange : (a.mapOutputs m fun _ => ks).EdgesInRange := by
    rw [Arena.edgesInRange_iff] at ha ⊢
    intro j k hk
    rw [Arena.size_mapOutputs]
    by_cases hj : j = m
    · subst hj
      rcases Nat.lt_or_ge j a.size with hlt | hge
      · rw [Arena.outputs_mapOutputs_self hlt] at hk
        exact hks k hk
      · rw [Arena.outputs_eq_nil (by simpa using hge)] at hk
        cases hk
    · rw [Arena.outputs_mapOutputs_ne hj] at hk
      exact ha j k hk
  have hi : i < (a.mapOutputs m fun _ => ks).size := by
    rw [Arena.size_mapOutputs]
    exact lt_size_of_matchesAt hmatch
  obtain ⟨matched, hmatched⟩ := exists_matchesAt (t := t) hrange hi
  refine ⟨matched, hmatched, ?_⟩
  rw [← matchesAt_mapOutputs_iff hmatch hleaves, hmatched, Except.ok.injEq]

end Template

/-- The end of the longer branch may be used: the answer stays yes. -/
theorem matchesAt_mapOutputs_longBranch : branchesArena.EdgesInRange ∧
    branchesTemplate.matchesAt branchesArena 0 = .ok true ∧
    branchesTemplate.root.PairsOnlyLeaves branchesArena 0 2 ∧
    (∀ k ∈ [4], k < branchesArena.size) ∧
    branchesTemplate.matchesAt (branchesArena.mapOutputs 2 fun _ => [4]) 0 = .ok true := by
  have hrange : branchesArena.EdgesInRange := by decide
  have hleaves : branchesTemplate.root.PairsOnlyLeaves branchesArena 0 2 := by decide
  have hks : ∀ k ∈ [4], k < branchesArena.size := by decide
  obtain ⟨matched, hmatched, hiff⟩ :=
    branchesTemplate.matchesAt_mapOutputs hrange matchesAt_branches hleaves hks
  have htrue : matched = true := hiff.mpr (.inr (by decide))
  exact ⟨hrange, matchesAt_branches, hleaves, hks, htrue ▸ hmatched⟩

/-- The end of the shorter branch may not be used. -/
theorem not_matchesAt_mapOutputs_shortBranch : branchesArena.EdgesInRange ∧
    branchesTemplate.matchesAt branchesArena 0 = .ok true ∧
    branchesTemplate.root.PairsOnlyLeaves branchesArena 0 3 ∧
    (∀ k ∈ [4], k < branchesArena.size) ∧
    branchesTemplate.matchesAt (branchesArena.mapOutputs 3 fun _ => [4]) 0 = .ok false := by
  have hused : branchesTemplate.matchesAt (branchesArena.mapOutputs 3 fun _ => [4]) 0
      = .ok false := by cbv
  exact ⟨by decide, matchesAt_branches, by decide, by decide, hused⟩

end TensorFusion
