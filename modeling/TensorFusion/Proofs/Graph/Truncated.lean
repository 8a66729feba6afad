import TensorFusion.Proofs.Graph.Matches
import TensorFusion.Proofs.Graph.Path

/-!
# Proofs — Graph — Truncated

Trees of types at one depth and at a greater one. What is grown to a smaller depth is what is grown
to a greater one, cut off. So a template that matches still does if its tree is cut off, though the
nodes that come to stand at the last level may then have any consumers.
-/

namespace TensorFusion

namespace Pattern

/-- A tree without what is further below its root than the given number of levels. -/
def cutBelow : Nat → Pattern → Pattern
  | 0, p => leaf p.opType
  | levels + 1, p => .node p.opType (p.children.map (cutBelow levels))

/-- A tree cut off at a depth; it keeps at least its root. -/
def cut (p : Pattern) (depth : Nat) : Pattern := p.cutBelow (depth - 1)

/-- The deepest of some trees is cut off with them. -/
theorem deepest_map {f : Pattern → Pattern} {levels : Nat}
    (h : ∀ p, (f p).depth = min p.depth levels) (ps : List Pattern) :
    deepest (ps.map f) = min (deepest ps) levels := by
  induction ps with
  | nil => exact (Nat.zero_min levels).symm
  | cons p ps ih =>
    rw [List.map_cons, deepest, deepest, h, ih]
    omega

theorem depth_cutBelow (levels : Nat) (p : Pattern) :
    (p.cutBelow levels).depth = min p.depth (levels + 1) := by
  induction levels generalizing p with
  | zero =>
    have hpos := p.depth_pos
    show 1 + deepest [] = _
    rw [deepest]
    omega
  | succ levels ih =>
    obtain ⟨opType, children⟩ := p
    show 1 + deepest (children.map (cutBelow levels)) = min (1 + deepest children) (levels + 2)
    rw [deepest_map ih]
    omega

theorem sameAll_map {f : Pattern → Pattern} (h : ∀ p q, p.same q = true → (f p).same (f q) = true)
    {ps qs : List Pattern} (hsame : sameAll ps qs = true) :
    sameAll (ps.map f) (qs.map f) = true := by
  induction ps generalizing qs with
  | nil =>
    rw [sameAll_nil_left.mp hsame]
    rfl
  | cons p ps ih =>
    cases qs with
    | nil => simp [sameAll] at hsame
    | cons q qs =>
      rw [sameAll, Bool.and_eq_true] at hsame
      rw [List.map_cons, List.map_cons, sameAll, h p q hsame.1, ih hsame.2, Bool.and_self]

/-- Trees that agree do so after they are cut off. -/
theorem same_cutBelow {levels : Nat} {p q : Pattern} (h : p.same q = true) :
    (p.cutBelow levels).same (q.cutBelow levels) = true := by
  induction levels generalizing p q with
  | zero =>
    rw [same_iff] at h ⊢
    exact ⟨h.1, rfl⟩
  | succ levels ih =>
    rw [same_iff] at h ⊢
    exact ⟨h.1, sameAll_map (fun p q => ih) h.2⟩

theorem cutBelow_chain (levels : Nat) (first : Value) (rest : List Value) :
    (chain first rest).cutBelow levels = chain first (rest.take levels) := by
  induction levels generalizing first rest with
  | zero =>
    cases rest <;> rfl
  | succ levels ih =>
    cases rest with
    | nil => rfl
    | cons second rest =>
      show node first [(chain second rest).cutBelow levels] = _
      rw [ih]
      rfl

end Pattern

namespace Arena

variable {a : Arena} {i levels : Nat} {p : Pattern}

/-- What is grown to fewer levels is what is grown to more, cut off. The induction is on the fewer
levels, since a node at the last of them is not asked for its consumers. -/
theorem typesBelow_cutBelow {more : Nat} (h : a.typesBelow more i = .ok p) (hle : levels ≤ more) :
    a.typesBelow levels i = .ok (p.cutBelow levels) := by
  induction levels generalizing more i p with
  | zero =>
    cases more with
    | zero =>
      simp only [typesBelow, bind_eq_ok, pure_eq_ok] at h ⊢
      obtain ⟨node, hnode, rfl⟩ := h
      exact ⟨node, hnode, rfl⟩
    | succ more =>
      simp only [typesBelow, bind_eq_ok, pure_eq_ok] at h ⊢
      obtain ⟨node, hnode, shadows, -, rfl⟩ := h
      exact ⟨node, hnode, rfl⟩
  | succ levels ih =>
    obtain ⟨more, rfl⟩ : ∃ n, more = n + 1 := ⟨more - 1, by omega⟩
    simp only [typesBelow, bind_eq_ok, pure_eq_ok] at h ⊢
    obtain ⟨node, hnode, shadows, hshadows, rfl⟩ := h
    have hbelow : node.outputs.mapM (a.typesBelow levels)
        = .ok (shadows.map (Pattern.cutBelow levels)) :=
      mapM_eq_ok_map hshadows fun k _ shadow hshadow => ih hshadow (by omega)
    exact ⟨node, hnode, _, hbelow, rfl⟩

theorem depth_le_of_typesBelow (h : a.typesBelow levels i = .ok p) : p.depth ≤ levels + 1 := by
  have hcut := typesBelow_cutBelow h (Nat.le_refl levels)
  rw [h] at hcut
  have hdepth := Pattern.depth_cutBelow levels p
  rw [← Except.ok.inj hcut] at hdepth
  omega

theorem typesBelow_of_size_le (h : a.size ≤ i) (levels : Nat) :
    a.typesBelow levels i = .error .outOfRange := by
  have hnode : a.node i = .error .outOfRange := by
    rw [node, node?, List.getElem?_eq_none h]
  cases levels <;> simp only [typesBelow, hnode] <;> rfl

variable {d e : Nat}

/-- Where edges end at nodes, the tree of types at a depth is the one at a greater depth, cut off.
-/
theorem EdgesInRange.typeTree_eq_cut (ha : a.EdgesInRange) (hde : d ≤ e) (i : Nat) :
    a.typeTree d i = (a.typeTree e i).map (·.cut d) := by
  unfold typeTree
  by_cases hi : i < a.size
  · obtain ⟨deep, hdeep⟩ := ha.exists_typesBelow (e - 1) hi
    rw [hdeep, typesBelow_cutBelow hdeep (Nat.sub_le_sub_right hde 1)]
    rfl
  · rw [typesBelow_of_size_le (Nat.le_of_not_lt hi), typesBelow_of_size_le (Nat.le_of_not_lt hi)]
    rfl

theorem EdgesInRange.exists_typeTree (ha : a.EdgesInRange) (hd : 1 ≤ d) (hi : i < a.size) :
    ∃ p, a.typeTree d i = .ok p ∧ p.depth ≤ d := by
  obtain ⟨p, hp⟩ := ha.exists_typesBelow (d - 1) hi
  have hdepth := depth_le_of_typesBelow hp
  exact ⟨p, hp, by omega⟩

end Arena

namespace Template

variable {a : Arena} {i d : Nat} {t t' : Template}

/-- A template that matches does so if its tree is cut off. -/
theorem matchesAt_cut (h : t.matchesAt a i = .ok true) (hd : 1 ≤ d) (hle : d ≤ t.depth)
    (hroot : t'.root = t.root.cut d) : t'.depth = d ∧ t'.matchesAt a i = .ok true := by
  have hdepth : t'.depth = d := by
    have hcut := Pattern.depth_cutBelow (d - 1) t.root
    have hle : d ≤ t.root.depth := hle
    rw [depth, hroot, Pattern.cut, hcut]
    omega
  have hwhole : t.root.depth ≤ t.depth - 1 + 1 := by
    show t.depth ≤ _
    omega
  have hpart : t'.root.depth ≤ d - 1 + 1 := by
    show t'.depth ≤ _
    omega
  rw [matchesAt_iff_fitsAt, ← Arena.typesBelow_same_iff hwhole] at h
  obtain ⟨shadow, hshadow, hsame⟩ := h
  refine ⟨hdepth, ?_⟩
  rw [matchesAt_iff_fitsAt, hdepth, ← Arena.typesBelow_same_iff hpart, hroot]
  exact ⟨shadow.cut d, Arena.typesBelow_cutBelow hshadow (Nat.sub_le_sub_right hle 1),
    Pattern.same_cutBelow hsame⟩

/-- A chain that matches does so with each of its beginnings. -/
theorem matchesAt_take {first : Value} {rest : List Value} {n : Nat}
    (ht : t.root = .chain first rest) (h : t.matchesAt a i = .ok true) (hn : n ≤ rest.length)
    (ht' : t'.root = .chain first (rest.take n)) : t'.matchesAt a i = .ok true := by
  have hle : n + 1 ≤ t.depth := by
    rw [depth, ht, Pattern.depth_chain]
    omega
  have hroot : t'.root = t.root.cut (n + 1) := by
    rw [ht', ht]
    exact (Pattern.cutBelow_chain n first rest).symm
  exact (matchesAt_cut h (by omega) hle hroot).2

end Template

/-- Matching under truncation, in an arena whose edges end at nodes, with cycles or without. The
tree of types at a depth is the tree at any greater depth, cut off, and no deeper than it may be. So
a template that matches at a node does so after its tree is cut off at any depth, and a chain does
with each of its beginnings. -/
theorem Arena.EdgesInRange.truncates {a : Arena} (ha : a.EdgesInRange) (i : Nat) {d e : Nat}
    (hd : 1 ≤ d) (hde : d ≤ e) :
    a.typeTree d i = (a.typeTree e i).map (·.cut d) ∧
    (i < a.size → ∃ p, a.typeTree d i = .ok p ∧ p.depth ≤ d) ∧
    (∀ t t' : Template, t.matchesAt a i = .ok true → d ≤ t.depth → t'.root = t.root.cut d →
      t'.depth = d ∧ t'.matchesAt a i = .ok true) ∧
    ∀ (t t' : Template) (first : Value) (rest : List Value) (n : Nat),
      t.matchesAt a i = .ok true → t.root = .chain first rest → n ≤ rest.length →
      t'.root = .chain first (rest.take n) → t'.matchesAt a i = .ok true := by
  refine ⟨ha.typeTree_eq_cut hde i, ha.exists_typeTree hd, ?_, ?_⟩
  · intro t t' hmatch hle hroot
    exact Template.matchesAt_cut hmatch hd hle hroot
  · intro t t' first rest n hmatch hchain hn hchain'
    exact Template.matchesAt_take hchain hmatch hn hchain'

/-- The uneven template without the last level, at which it comes back to its beginning. -/
def evenTemplate : Template where
  name := .text "even"
  root := .node (.text "conv2d") [.leaf (.text "relu"), .leaf (.text "elementwise_add")]
  fusedType := .text "fused"

theorem truncates_cyclicArena : cyclicArena.EdgesInRange ∧ 1 ≤ 2 ∧ 2 ≤ 5 ∧
    cyclicArena.typeTree 2 0 = (cyclicArena.typeTree 5 0).map (·.cut 2) ∧
    (∃ p, cyclicArena.typeTree 2 0 = .ok p ∧ p.depth ≤ 2) ∧
    evenTemplate.root = unevenTemplate.root.cut 2 ∧ evenTemplate.depth = 2 ∧
    evenTemplate.matchesAt cyclicArena 0 = .ok true := by
  have hrange : cyclicArena.EdgesInRange := by decide
  have hmatch : unevenTemplate.matchesAt cyclicArena 0 = .ok true := by cbv
  have hroot : evenTemplate.root = unevenTemplate.root.cut 2 := rfl
  obtain ⟨hcut, hdepth, hmatches, -⟩ :=
    hrange.truncates 0 (show 1 ≤ 2 by decide) (show 2 ≤ 5 by decide)
  obtain ⟨heven, hagain⟩ := hmatches unevenTemplate evenTemplate hmatch (by decide) hroot
  exact ⟨hrange, by decide, by decide, hcut, hdepth (by decide), hroot, heven, hagain⟩

end TensorFusion
