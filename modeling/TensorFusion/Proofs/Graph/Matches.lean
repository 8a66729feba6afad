import Mathlib.Data.List.Forall2
import TensorFusion.Proofs.Pass.Total
import TensorFusion.Proofs.Sample

/-!
# Proofs — Graph — Matches

What a match is, told by paths. A template is compared with a tree that is grown from a node, so
that a node which is reached in two ways stands in it twice, and a cycle is gone round until the
tree is cut off. Path by path the comparison says no more than this: wherever the template leads,
the arena leads as well, and above the last level it leads nowhere else.
-/

namespace TensorFusion

/-- The part of a tree at the end of a path of child positions. -/
def Pattern.at? : Pattern → List Nat → Option Pattern
  | p, [] => some p
  | p, k :: path => p.children[k]?.bind fun q => q.at? path

/-- The node at the end of a path of output positions; it need not be the only path to it. -/
def Arena.nodeAlong? (a : Arena) : Nat → List Nat → Option Node
  | i, [] => a.node? i
  | i, k :: path => (a.outputs i)[k]?.bind fun j => a.nodeAlong? j path

/-- A tree fits into an arena from a node on: its paths are paths of the arena, to nodes of the
types that it asks for. A node above the given level has as many consumers as the tree has children.
-/
def Pattern.FitsAt (p : Pattern) (a : Arena) (levels i : Nat) : Prop :=
  ∀ path q, p.at? path = some q → ∃ node, a.nodeAlong? i path = some node ∧
    node.op.opType.same q.opType = true ∧
    (path.length < levels → node.outputs.length = q.children.length)

namespace Pattern

variable {a : Arena} {i levels : Nat}

theorem at?_cons (p : Pattern) (k : Nat) (path : List Nat) :
    p.at? (k :: path) = p.children[k]?.bind fun q => q.at? path := rfl

/-- A tree without children fits where a node of its type is. -/
theorem fitsAt_zero {p : Pattern} (hp : p.children = []) :
    p.FitsAt a 0 i ↔ ∃ node, a.node? i = some node ∧ node.op.opType.same p.opType = true := by
  constructor
  · intro h
    obtain ⟨node, hnode, hType, -⟩ := h [] p rfl
    exact ⟨node, hnode, hType⟩
  · intro h path q hq
    obtain ⟨node, hnode, hType⟩ := h
    cases path with
    | nil =>
      cases hq
      exact ⟨node, hnode, hType, fun hlt => absurd hlt (Nat.not_lt_zero _)⟩
    | cons k path => simp [at?_cons, hp] at hq

/-- A tree fits at a node of its type whose consumers, one for each child, are where the children
fit. -/
theorem fitsAt_succ {p : Pattern} : p.FitsAt a (levels + 1) i ↔ ∃ node, a.node? i = some node ∧
    node.op.opType.same p.opType = true ∧
    List.Forall₂ (fun k (q : Pattern) => q.FitsAt a levels k) node.outputs p.children := by
  constructor
  · intro h
    obtain ⟨node, hnode, hType, hlength⟩ := h [] p rfl
    have hnode : a.node? i = some node := hnode
    have hlength := hlength (Nat.succ_pos levels)
    refine ⟨node, hnode, hType, List.forall₂_iff_get.mpr ⟨hlength, ?_⟩⟩
    intro k hk hk' path q hq
    have hat : p.at? (k :: path) = some q := by
      rw [at?_cons, List.getElem?_eq_getElem hk']
      exact hq
    obtain ⟨last, hlast, hType, hlength⟩ := h _ _ hat
    have hreach : a.nodeAlong? i (k :: path) = a.nodeAlong? node.outputs[k] path := by
      simp [Arena.nodeAlong?, Arena.outputs, hnode, List.getElem?_eq_getElem hk]
    rw [hreach] at hlast
    exact ⟨last, hlast, hType, fun hlt => hlength (by simpa using hlt)⟩
  · intro h path q hq
    obtain ⟨node, hnode, hType, hbelow⟩ := h
    obtain ⟨hlength, hfits⟩ := List.forall₂_iff_get.mp hbelow
    cases path with
    | nil =>
      cases hq
      exact ⟨node, hnode, hType, fun _ => hlength⟩
    | cons k path =>
      rw [at?_cons, Option.bind_eq_some_iff] at hq
      obtain ⟨child, hchild, hq⟩ := hq
      obtain ⟨hk, rfl⟩ := List.getElem?_eq_some_iff.mp hchild
      have hk' : k < node.outputs.length := by omega
      obtain ⟨last, hlast, hType, hlength⟩ := hfits k hk' hk path q hq
      have hreach : a.nodeAlong? i (k :: path) = some last := by
        simpa [Arena.nodeAlong?, Arena.outputs, hnode, List.getElem?_eq_getElem hk'] using hlast
      exact ⟨last, hreach, hType, fun hlt => hlength (by simpa using hlt)⟩

/-- Trees agree where their types and, one by one, their children do. -/
theorem same_iff {p q : Pattern} : p.same q = true ↔
    p.opType.same q.opType = true ∧ sameAll p.children q.children = true := by
  obtain ⟨s, ps⟩ := p
  obtain ⟨t, qs⟩ := q
  rw [same, Bool.and_eq_true]
  rfl

theorem sameAll_nil_left {qs : List Pattern} : sameAll [] qs = true ↔ qs = [] := by
  cases qs <;> simp [sameAll]

/-- Trees that are grown one by one agree with given ones just where each does with its own. -/
theorem exists_mapM_sameAll {f : Nat → Except Error Pattern} {ks : List Nat} {qs : List Pattern} :
    (∃ ps, ks.mapM f = .ok ps ∧ sameAll ps qs = true) ↔
      List.Forall₂ (fun k (q : Pattern) => ∃ p, f k = .ok p ∧ p.same q = true) ks qs := by
  induction ks generalizing qs with
  | nil =>
    rw [List.forall₂_nil_left_iff, ← sameAll_nil_left]
    constructor
    · intro h
      obtain ⟨ps, hps, hsame⟩ := h
      rw [List.mapM_nil, pure_eq_ok] at hps
      rwa [hps]
    · intro h
      exact ⟨[], rfl, h⟩
  | cons k ks ih =>
    constructor
    · intro h
      obtain ⟨all, hall, hsame⟩ := h
      obtain ⟨p, ps, hp, hps, rfl⟩ := mapM_cons_eq_ok.mp hall
      cases qs with
      | nil => simp [sameAll] at hsame
      | cons q qs =>
        rw [sameAll, Bool.and_eq_true] at hsame
        exact .cons ⟨p, hp, hsame.1⟩ (ih.mp ⟨ps, hps, hsame.2⟩)
    · intro h
      cases h with
      | cons hfirst hrest =>
        obtain ⟨p, hp, hsame⟩ := hfirst
        obtain ⟨ps, hps, hall⟩ := ih.mpr hrest
        exact ⟨p :: ps, mapM_cons_eq_ok.mpr ⟨p, ps, hp, hps, rfl⟩, by simp [sameAll, hsame, hall]⟩

theorem depth_pos (p : Pattern) : 0 < p.depth := by
  cases p
  rw [depth]
  omega

theorem children_eq_nil_of_depth {p : Pattern} (h : p.depth ≤ 1) : p.children = [] := by
  obtain ⟨opType, children⟩ := p
  cases children with
  | nil => rfl
  | cons q qs =>
    have hpos := q.depth_pos
    simp only [depth, deepest] at h
    omega

theorem depth_le_deepest {p : Pattern} {ps : List Pattern} (h : p ∈ ps) :
    p.depth ≤ deepest ps := by
  induction ps with
  | nil => cases h
  | cons q qs ih =>
    rw [deepest]
    rcases List.mem_cons.mp h with rfl | h
    · omega
    · have hle := ih h
      omega

theorem depth_lt_of_mem_children {p q : Pattern} (h : q ∈ p.children) : q.depth < p.depth := by
  have hle := depth_le_deepest h
  obtain ⟨opType, children⟩ := p
  show q.depth < 1 + deepest children
  have hle : q.depth ≤ deepest children := hle
  omega

end Pattern

open Pattern in
/-- The tree that is grown from a node, no less deep than a given tree, agrees with it just where
the given tree fits. The induction is on the levels that are grown: of a tree and of its children
they are one apart, and so are their depths at least. -/
theorem Arena.typesBelow_same_iff {a : Arena} {levels : Nat} {p : Pattern} {i : Nat}
    (hp : p.depth ≤ levels + 1) :
    (∃ shadow, a.typesBelow levels i = .ok shadow ∧ shadow.same p = true) ↔
      p.FitsAt a levels i := by
  induction levels generalizing p i with
  | zero =>
    have hleaf := children_eq_nil_of_depth hp
    rw [fitsAt_zero hleaf]
    simp only [typesBelow, bind_eq_ok, pure_eq_ok, node_eq_ok, same_iff, hleaf]
    constructor
    · intro h
      obtain ⟨shadow, ⟨node, hnode, rfl⟩, hType, -⟩ := h
      exact ⟨node, hnode, hType⟩
    · intro h
      obtain ⟨node, hnode, hType⟩ := h
      exact ⟨_, ⟨node, hnode, rfl⟩, hType, rfl⟩
  | succ levels ih =>
    have hbelow (node : Node) : (∃ shadows, node.outputs.mapM (a.typesBelow levels) = .ok shadows ∧
        sameAll shadows p.children = true) ↔
        List.Forall₂ (fun k (q : Pattern) => q.FitsAt a levels k) node.outputs p.children := by
      rw [exists_mapM_sameAll, List.forall₂_iff_get, List.forall₂_iff_get]
      refine and_congr_right fun _ => forall_congr' fun k => forall₂_congr fun _ hk => ih ?_
      have hlt := depth_lt_of_mem_children (List.getElem_mem hk)
      show (p.children[k]).depth ≤ levels + 1
      omega
    rw [fitsAt_succ]
    simp only [← hbelow, typesBelow, bind_eq_ok, pure_eq_ok, node_eq_ok, same_iff]
    constructor
    · intro h
      obtain ⟨shadow, ⟨node, hnode, shadows, hshadows, rfl⟩, hType, hsame⟩ := h
      exact ⟨node, hnode, hType, shadows, hshadows, hsame⟩
    · intro h
      obtain ⟨node, hnode, hType, shadows, hshadows, hsame⟩ := h
      exact ⟨_, ⟨node, hnode, shadows, hshadows, rfl⟩, hType, hsame⟩

/-- The edges of an arena end at nodes. They may run in any direction and in cycles. -/
def Arena.EdgesInRange (a : Arena) : Prop := ∀ node ∈ a.nodes, ∀ k ∈ node.outputs, k < a.size

instance (a : Arena) : Decidable a.EdgesInRange :=
  inferInstanceAs (Decidable (∀ node ∈ a.nodes, ∀ k ∈ node.outputs, k < a.size))

theorem Arena.edgesInRange_iff {a : Arena} :
    a.EdgesInRange ↔ ∀ i, ∀ k ∈ a.outputs i, k < a.size := by
  constructor
  · intro h i k hk
    obtain ⟨node, hnode⟩ : ∃ node, a.node? i = some node := by
      cases hnode : a.node? i with
      | some node => exact ⟨node, rfl⟩
      | none => simp [outputs, hnode] at hk
    have hk : k ∈ node.outputs := by simpa [outputs, hnode] using hk
    exact h node (List.mem_of_getElem? hnode) k hk
  · intro h node hnode k hk
    obtain ⟨i, hi⟩ := List.mem_iff_getElem?.mp hnode
    have hi : a.node? i = some node := hi
    exact h i k (by simpa [outputs, hi] using hk)

/-- Where edges end at nodes, trees of types can be grown from every node. -/
theorem Arena.EdgesInRange.exists_typesBelow {a : Arena} (ha : a.EdgesInRange) (levels : Nat)
    {i : Nat} (hi : i < a.size) : ∃ shadow, a.typesBelow levels i = .ok shadow := by
  induction levels generalizing i with
  | zero =>
    obtain ⟨node, hnode⟩ := node?_of_lt hi
    exact ⟨.leaf node.op.opType, by rw [typesBelow, node_eq_ok.mpr hnode]; rfl⟩
  | succ levels ih =>
    obtain ⟨node, hnode⟩ := node?_of_lt hi
    have hrange := ha node (List.mem_of_getElem? hnode)
    obtain ⟨shadows, hshadows⟩ := mapM_total fun k hk => ih (hrange k hk)
    refine ⟨.node node.op.opType shadows, ?_⟩
    simp only [typesBelow, node_eq_ok.mpr hnode, ok_bind, hshadows]
    rfl

namespace Template

variable {t : Template} {a : Arena} {i : Nat}

/-- A template matches where its tree fits. Its first type is looked at before a tree is grown,
which makes no difference. -/
theorem matchesAt_iff_fitsAt : t.matchesAt a i = .ok true ↔ t.root.FitsAt a (t.depth - 1) i := by
  have hpos : 0 < t.depth := t.root.depth_pos
  have hdepth : t.root.depth ≤ t.depth - 1 + 1 := by
    show t.depth ≤ _
    omega
  rw [← Arena.typesBelow_same_iff hdepth]
  simp only [matchesAt, examine, bind_eq_ok, pure_eq_ok]
  constructor
  · intro h
    obtain ⟨verdict, ⟨node, hnode, h⟩, hmatch⟩ := h
    split at h
    next =>
      obtain ⟨shadow, hshadow, h⟩ := bind_eq_ok.mp h
      cases h
      exact ⟨shadow, hshadow, hmatch⟩
    next =>
      cases h
      cases hmatch
  · intro h
    obtain ⟨shadow, hshadow, hsame⟩ := h
    obtain ⟨node, hnode, hType, -⟩ := (Arena.typesBelow_same_iff hdepth).mp ⟨shadow, hshadow, hsame⟩
      [] t.root rfl
    have htrigger : node.op.opType.same t.trigger = true := hType
    refine ⟨.compared shadow true, ⟨node, Arena.node_eq_ok.mpr hnode, ?_⟩, rfl⟩
    rw [if_pos htrigger, Arena.typeTree, hshadow, ok_bind, hsame]
    rfl

theorem lt_size_of_matchesAt (h : t.matchesAt a i = .ok true) : i < a.size := by
  obtain ⟨node, hnode, -⟩ := matchesAt_iff_fitsAt.mp h [] t.root rfl
  have hnode : a.node? i = some node := hnode
  have hop : a.op? i = some node.op := by simp [Arena.op?, hnode]
  exact Arena.lt_size_of_op? hop

theorem exists_matchesAt (ha : a.EdgesInRange) (hi : i < a.size) :
    ∃ matched, t.matchesAt a i = .ok matched := by
  obtain ⟨node, hnode⟩ := Arena.node?_of_lt hi
  obtain ⟨shadow, hshadow⟩ := ha.exists_typesBelow (t.depth - 1) hi
  simp only [matchesAt, examine, Arena.node_eq_ok.mpr hnode, ok_bind, Arena.typeTree, hshadow]
  split
  · exact ⟨shadow.same t.root, rfl⟩
  · exact ⟨false, rfl⟩

/-- The exact meaning of a match, in any arena whose edges end at nodes, with cycles or without. The
question is answered for every node. The answer is yes just if every path of child positions in the
template is a path of output positions from the node on, to a node of the type that the template has
there, and nodes above the last level have as many outputs as the template has children. -/
theorem matchesAt_exact (t : Template) {a : Arena} (ha : a.EdgesInRange) (i : Nat) :
    (i < a.size → ∃ matched, t.matchesAt a i = .ok matched) ∧
    (t.matchesAt a i = .ok true ↔
      ∀ path q, t.root.at? path = some q → ∃ node, a.nodeAlong? i path = some node ∧
        node.op.opType.same q.opType = true ∧
        (path.length < t.depth - 1 → node.outputs.length = q.children.length)) :=
  ⟨exists_matchesAt ha, matchesAt_iff_fitsAt⟩

end Template

/-- Three nodes, one of which is led back to: a convolution whose first consumer feeds it again. -/
def cyclicArena : Arena where
  nodes := [
    { op := .ofTexts "conv2d" [] [], inputs := [1], outputs := [1, 2] },
    { op := .ofTexts "relu" [] [], inputs := [0], outputs := [0] },
    { op := .ofTexts "elementwise_add" [] [], inputs := [0] }]

/-- A template with branches of different lengths. -/
def unevenTemplate : Template where
  name := .text "uneven"
  root := .node (.text "conv2d") [
    .node (.text "relu") [.leaf (.text "conv2d")],
    .leaf (.text "elementwise_add")]
  fusedType := .text "fused"

theorem matchesAt_unevenTemplate : cyclicArena.EdgesInRange ∧
    unevenTemplate.matchesAt cyclicArena 0 = .ok true ∧
    ∀ path q, unevenTemplate.root.at? path = some q → ∃ node,
      cyclicArena.nodeAlong? 0 path = some node ∧ node.op.opType.same q.opType = true ∧
      (path.length < 2 → node.outputs.length = q.children.length) := by
  have hrange : cyclicArena.EdgesInRange := by decide
  have hmatch : unevenTemplate.matchesAt cyclicArena 0 = .ok true := by cbv
  have hexact := Template.matchesAt_exact unevenTemplate hrange 0
  exact ⟨hrange, hmatch, hexact.2.mp hmatch⟩

end TensorFusion
