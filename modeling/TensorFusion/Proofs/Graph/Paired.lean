import TensorFusion.Proofs.Graph.Matches
import TensorFusion.Proofs.Graph.Walk

/-!
# Proofs — Graph — Paired

Which node of an arena is paired with which node of a template. A path of child positions in the
template is a path of output positions in the arena, and the nodes at their ends are a pair. A walk
down a template goes through the pairs in preorder, and where the template matches, no node of it is
left without one.
-/

namespace TensorFusion

/-! ## Preorder -/

mutual

/-- The paths to the nodes of a tree in preorder: a node before its children, the children in
order. -/
def Pattern.paths : Pattern → List (List Nat)
  | .node _ children => [] :: pathsFrom 0 children

/-- The paths to the nodes of several trees that are children from a position on. -/
def Pattern.pathsFrom : Nat → List Pattern → List (List Nat)
  | _, [] => []
  | k, p :: ps => (paths p).map (k :: ·) ++ pathsFrom (k + 1) ps

end

namespace Pattern

variable {p q : Pattern} {path : List Nat} {k : Nat}

theorem paths_eq (p : Pattern) : p.paths = [] :: pathsFrom 0 p.children := by
  cases p
  rw [paths]
  rfl

theorem mem_pathsFrom {ps : List Pattern} : path ∈ pathsFrom k ps ↔
    ∃ n child rest, ps[n]? = some child ∧ rest ∈ child.paths ∧ path = (k + n) :: rest := by
  induction ps generalizing k with
  | nil => simp [pathsFrom]
  | cons p ps ih =>
    rw [pathsFrom, List.mem_append, List.mem_map, ih]
    have hshift : ∀ n, k + 1 + n = k + (n + 1) := fun n => by omega
    constructor
    · intro h
      obtain ⟨rest, hrest, rfl⟩ | ⟨n, child, rest, hchild, hrest, rfl⟩ := h
      · exact ⟨0, p, rest, rfl, hrest, rfl⟩
      · exact ⟨n + 1, child, rest, hchild, hrest, by rw [hshift]⟩
    · intro h
      obtain ⟨n, child, rest, hchild, hrest, rfl⟩ := h
      cases n with
      | zero =>
        cases hchild
        exact .inl ⟨rest, hrest, rfl⟩
      | succ n => exact .inr ⟨n, child, rest, hchild, hrest, by rw [hshift]⟩

/-- The paths of a tree are those that lead to a node of it. -/
theorem mem_paths_iff : path ∈ p.paths ↔ ∃ q, p.at? path = some q := by
  induction path generalizing p with
  | nil => simp [paths_eq, at?]
  | cons k path ih =>
    rw [paths_eq, List.mem_cons, or_iff_right (List.cons_ne_nil k path), mem_pathsFrom]
    constructor
    · intro h
      obtain ⟨n, child, rest, hchild, hrest, heq⟩ := h
      obtain ⟨rfl, rfl⟩ : k = n ∧ path = rest := by simpa using heq
      obtain ⟨q, hq⟩ := ih.mp hrest
      exact ⟨q, by rw [at?_cons, hchild, Option.bind_some, hq]⟩
    · intro h
      obtain ⟨q, hq⟩ := h
      rw [at?_cons, Option.bind_eq_some_iff] at hq
      obtain ⟨child, hchild, hq⟩ := hq
      exact ⟨k, child, path, hchild, ih.mpr ⟨q, hq⟩, by rw [Nat.zero_add]⟩

/-- A path that leads to a node is no longer than the tree is deep. -/
theorem length_add_depth_le (h : p.at? path = some q) : path.length + q.depth ≤ p.depth := by
  induction path generalizing p with
  | nil =>
    cases h
    simp
  | cons k path ih =>
    rw [at?_cons, Option.bind_eq_some_iff] at h
    obtain ⟨child, hchild, h⟩ := h
    have hlt := depth_lt_of_mem_children (List.mem_of_getElem? hchild)
    have hle := ih h
    rw [List.length_cons]
    omega

/-- The paths to the leaves of a tree, in the same order. -/
def leafPaths (p : Pattern) : List (List Nat) :=
  p.paths.filter fun path => (p.at? path).any isLeaf

theorem mem_leafPaths_iff : path ∈ p.leafPaths ↔ ∃ q, p.at? path = some q ∧ q.children = [] := by
  rw [leafPaths, List.mem_filter, mem_paths_iff]
  constructor
  · intro h
    obtain ⟨⟨q, hq⟩, hleaf⟩ := h
    rw [hq, Option.any_some] at hleaf
    exact ⟨q, hq, List.isEmpty_iff.mp hleaf⟩
  · intro h
    obtain ⟨q, hq, hleaf⟩ := h
    exact ⟨⟨q, hq⟩, by simp [hq, isLeaf, hleaf]⟩

end Pattern

/-! ## Pairs -/

namespace Arena

/-- The position at the end of a path of output positions. -/
def placeAlong? (a : Arena) : Nat → List Nat → Option Nat
  | i, [] => some i
  | i, k :: path => (a.outputs i)[k]?.bind fun j => a.placeAlong? j path

variable {a : Arena} {i m : Nat} {path : List Nat}

theorem placeAlong?_cons (a : Arena) (i k : Nat) (path : List Nat) :
    a.placeAlong? i (k :: path) = (a.outputs i)[k]?.bind fun j => a.placeAlong? j path := rfl

theorem nodeAlong?_eq (a : Arena) (i : Nat) (path : List Nat) :
    a.nodeAlong? i path = (a.placeAlong? i path).bind a.node? := by
  induction path generalizing i with
  | nil => rfl
  | cons k path ih =>
    rw [placeAlong?_cons, nodeAlong?, Option.bind_assoc]
    exact Option.bind_congr fun j _ => ih j

/-- The pair at the ends of a path. -/
def pairAt? (a : Arena) (p : Pattern) (i : Nat) (path : List Nat) : Option (Nat × Pattern) :=
  (a.placeAlong? i path).bind fun j => (p.at? path).map (Prod.mk j)

theorem pairAt?_cons {p child : Pattern} {k j : Nat} (hchild : p.children[k]? = some child)
    (hj : (a.outputs i)[k]? = some j) :
    a.pairAt? p i (k :: path) = a.pairAt? child j path := by
  simp only [pairAt?, placeAlong?_cons, Pattern.at?_cons, hchild, hj, Option.bind_some]

mutual

/-- A walk down a tree goes through the pairs at the ends of its paths, in preorder. -/
theorem pairs_eq (a : Arena) : ∀ (p : Pattern) (i : Nat),
    a.pairs p i = p.paths.filterMap (a.pairAt? p i)
  | .node opType children, i => by
    have hbelow := pairsBelow_eq a (.node opType children) i children 0 rfl
    rw [List.drop_zero] at hbelow
    have hroot : a.pairAt? (.node opType children) i [] = some (i, .node opType children) := rfl
    rw [pairs, hbelow, Pattern.paths, List.filterMap_cons_some hroot]

/-- The children of a tree from a position on are walked down as long as there are consumers. -/
theorem pairsBelow_eq (a : Arena) (p : Pattern) (i : Nat) : ∀ (ps : List Pattern) (k : Nat),
    p.children.drop k = ps → a.pairsBelow ps ((a.outputs i).drop k)
      = (Pattern.pathsFrom k ps).filterMap (a.pairAt? p i)
  | [], k, _ => by simp [Pattern.pathsFrom]
  | child :: rest, k, hdrop => by
    have hchild : p.children[k]? = some child := by
      rw [← List.head?_drop, hdrop]
      rfl
    have hrest : p.children.drop (k + 1) = rest := by
      rw [← List.tail_drop, hdrop]
      rfl
    have hlater := pairsBelow_eq a p i rest (k + 1) hrest
    rw [Pattern.pathsFrom, List.filterMap_append, ← hlater, List.filterMap_map]
    cases hj : (a.outputs i)[k]? with
    | some j =>
      obtain ⟨hlt, hget⟩ := List.getElem?_eq_some_iff.mp hj
      have hpairs : child.paths.filterMap (a.pairAt? p i ∘ (k :: ·)) = a.pairs child j := by
        rw [pairs_eq a child j]
        exact List.filterMap_congr fun path _ => pairAt?_cons hchild hj
      rw [hpairs, List.drop_eq_getElem_cons hlt, hget, pairsBelow]
    | none =>
      -- Here the consumers have run out.
      have hnone : child.paths.filterMap (a.pairAt? p i ∘ (k :: ·)) = [] := by
        refine List.filterMap_eq_nil_iff.mpr fun path _ => ?_
        simp [pairAt?, placeAlong?_cons, hj]
      have hle := List.getElem?_eq_none_iff.mp hj
      rw [hnone, List.drop_eq_nil_of_le hle, List.drop_eq_nil_of_le (Nat.le_succ_of_le hle),
        List.nil_append]
      cases rest <;> rfl

end

/-- The nodes of the pairs are at the ends of the paths. -/
theorem nodesOf_pairs_eq (a : Arena) (p : Pattern) (i : Nat) :
    nodesOf (a.pairs p i) = p.paths.filterMap (a.placeAlong? i) := by
  rw [nodesOf, pairs_eq, List.map_filterMap]
  refine List.filterMap_congr fun path hpath => ?_
  obtain ⟨q, hq⟩ := Pattern.mem_paths_iff.mp hpath
  cases hplace : a.placeAlong? i path <;> simp [pairAt?, hplace, hq]

/-- The nodes that are paired with leaves are at the ends of the paths to these. -/
theorem leavesOf_pairs_eq (a : Arena) (p : Pattern) (i : Nat) :
    leavesOf (a.pairs p i) = p.leafPaths.filterMap (a.placeAlong? i) := by
  rw [leavesOf, nodesOf, pairs_eq, List.filter_filterMap, List.map_filterMap, Pattern.leafPaths,
    List.filterMap_filter]
  refine List.filterMap_congr fun path hpath => ?_
  obtain ⟨q, hq⟩ := Pattern.mem_paths_iff.mp hpath
  cases hplace : a.placeAlong? i path <;> cases hleaf : q.isLeaf <;>
    simp [pairAt?, hplace, hq, hleaf]

end Arena

/-- Where a tree fits, each of its nodes is paired with a node of its type. -/
theorem Pattern.FitsAt.exists_place {p q : Pattern} {a : Arena} {levels i : Nat} {path : List Nat}
    (h : p.FitsAt a levels i) (hq : p.at? path = some q) :
    ∃ j node, a.placeAlong? i path = some j ∧ a.node? j = some node ∧
      node.op.opType.same q.opType = true ∧
      (path.length < levels → node.outputs.length = q.children.length) := by
  obtain ⟨node, hnode, hfits⟩ := h path q hq
  rw [Arena.nodeAlong?_eq, Option.bind_eq_some_iff] at hnode
  obtain ⟨j, hj, hnode⟩ := hnode
  exact ⟨j, node, hj, hnode, hfits⟩

theorem map_eq_map_some_filterMap {α β : Type} {f : α → Option β} {xs : List α}
    (h : ∀ x ∈ xs, ∃ y, f x = some y) : xs.map f = (xs.filterMap f).map some := by
  induction xs with
  | nil => rfl
  | cons x xs ih =>
    obtain ⟨y, hy⟩ := h x (by simp)
    rw [List.map_cons, List.filterMap_cons_some hy, List.map_cons, hy,
      ih fun x' hx' => h x' (by simp [hx'])]

/-- A template of two branches, one longer than the other. -/
def branchesTemplate : Template where
  name := .text "branches"
  root := .node (.text "relu") [
    .node (.text "sigmoid") [.leaf (.text "softmax")],
    .leaf (.text "reshape")]
  fusedType := .text "relu"

/-- Four nodes that are linked as in a tree of two branches, and one that is not linked. -/
def branchesArena : Arena where
  nodes := [
    { op := .ofTexts "relu" [] [], outputs := [1, 3] },
    { op := .ofTexts "sigmoid" [] [], inputs := [0], outputs := [2] },
    { op := .ofTexts "softmax" [] [], inputs := [1] },
    { op := .ofTexts "reshape" [] [], inputs := [0] },
    { op := .ofTexts "fetch" [] [] }]

theorem matchesAt_branches : branchesTemplate.matchesAt branchesArena 0 = .ok true := by cbv

end TensorFusion
