import TensorFusion.Proofs.Graph.Sound

/-!
# Proofs — Graph — Part

Two parts of an arena that no edge connects. Each of them is an arena of its own once its nodes are
numbered anew. Looks and fusions at the nodes of a part come to the same in the part as in the
whole, and a fusion in the one part leaves the other as it is.
-/

namespace TensorFusion

/-! ## Places -/

/-- The positions below a bound that are on a side, in order. -/
def positionsOf (side : Nat → Bool) (n : Nat) : List Nat := (List.range n).filter side

/-- The number of a position among those on a side: how many of them come before it. -/
def placeOf (side : Nat → Bool) (i : Nat) : Nat := (positionsOf side i).length

section Places

variable {side : Nat → Bool} {i j n : Nat}

theorem mem_positionsOf : i ∈ positionsOf side n ↔ i < n ∧ side i = true := by
  simp [positionsOf]

theorem positionsOf_succ (side : Nat → Bool) (n : Nat) :
    positionsOf side (n + 1) = positionsOf side n ++ if side n then [n] else [] := by
  rw [positionsOf, List.range_succ, List.filter_append]
  by_cases hn : side n = true <;> simp [positionsOf, hn]

theorem placeOf_succ (side : Nat → Bool) (n : Nat) :
    placeOf side (n + 1) = placeOf side n + if side n then 1 else 0 := by
  rw [placeOf, positionsOf_succ, List.length_append]
  by_cases hn : side n = true <;> simp [placeOf, hn]

theorem placeOf_le (h : i ≤ j) : placeOf side i ≤ placeOf side j := by
  induction h with
  | refl => exact Nat.le_refl _
  | step _ ih =>
    rw [placeOf_succ]
    exact Nat.le_trans ih (Nat.le_add_right _ _)

theorem placeOf_lt (hi : side i = true) (h : i < j) : placeOf side i < placeOf side j := by
  have hle : placeOf side (i + 1) ≤ placeOf side j := placeOf_le h
  rw [placeOf_succ, if_pos hi] at hle
  exact hle

theorem placeOf_inj (hi : side i = true) (hj : side j = true)
    (h : placeOf side i = placeOf side j) : i = j := by
  rcases Nat.lt_trichotomy i j with hlt | heq | hgt
  · have hplace := placeOf_lt hi hlt
    omega
  · exact heq
  · have hplace := placeOf_lt hj hgt
    omega

theorem getElem?_positionsOf (hi : side i = true) (h : i < n) :
    (positionsOf side n)[placeOf side i]? = some i := by
  induction n with
  | zero => omega
  | succ n ih =>
    rw [positionsOf_succ]
    by_cases hin : i = n
    · subst hin
      rw [if_pos hi, placeOf, List.getElem?_concat_length]
    · have hlt : i < n := by omega
      rw [List.getElem?_append_left (placeOf_lt hi hlt), ih hlt]

/-- Every number is that of a position on the side. -/
theorem exists_of_lt_placeOf {x : Nat} (h : x < placeOf side n) :
    ∃ i < n, side i = true ∧ placeOf side i = x := by
  induction n with
  | zero => exact absurd h (Nat.not_lt_zero x)
  | succ n ih =>
    by_cases hx : x < placeOf side n
    · obtain ⟨i, hi, hside, hplace⟩ := ih hx
      exact ⟨i, Nat.lt_succ_of_lt hi, hside, hplace⟩
    · rw [placeOf_succ] at h
      split at h
      next hn => exact ⟨n, Nat.lt_succ_self n, hn, by omega⟩
      next => omega

/-- The number of a position on the side tells it. -/
theorem mem_map_placeOf {ks : List Nat} (hi : side i = true) (hks : ∀ k ∈ ks, side k = true) :
    placeOf side i ∈ ks.map (placeOf side) ↔ i ∈ ks := by
  rw [List.mem_map]
  constructor
  · rintro ⟨k, hk, hplace⟩
    rwa [← placeOf_inj (hks k hk) hi hplace]
  · exact fun h => ⟨i, h, rfl⟩

/-- Elements that are told apart by a map are added under it as they are. -/
theorem foldl_addNew_map {f : Nat → Nat} {xs ys : List Nat}
    (hf : ∀ x ∈ xs ++ ys, ∀ y ∈ xs ++ ys, f x = f y → x = y) :
    (ys.map f).foldl addNew (xs.map f) = (ys.foldl addNew xs).map f := by
  induction ys generalizing xs with
  | nil => rfl
  | cons y ys ih =>
    have hmem : f y ∈ xs.map f ↔ y ∈ xs := by
      rw [List.mem_map]
      constructor
      · rintro ⟨x, hx, heq⟩
        rwa [← hf x (by simp [hx]) y (by simp) heq]
      · exact fun hy => ⟨y, hy, rfl⟩
    have hstep : addNew (xs.map f) (f y) = (addNew xs y).map f := by
      by_cases hy : y ∈ xs
      · simp [addNew, hmem, hy]
      · rw [addNew, addNew, if_neg (by simpa using mt hmem.mp hy), if_neg (by simpa using hy)]
        simp
    have hsub : ∀ x ∈ addNew xs y ++ ys, x ∈ xs ++ y :: ys := by
      intro x hx
      rcases List.mem_append.mp hx with hx | hx
      · have hnew : x ∈ [y].foldl addNew xs := hx
        rcases mem_foldl_addNew.mp hnew with hx | hx
        · exact List.mem_append_left _ hx
        · simp [List.mem_singleton.mp hx]
      · simp [hx]
    rw [List.map_cons, List.foldl_cons, List.foldl_cons, hstep]
    exact ih fun x hx z hz => hf x (hsub x hx) z (hsub z hz)

end Places

/-! ## Sides -/

/-- No edge of an arena leads from one side to the other. -/
structure Arena.Splits (side : Nat → Bool) (a : Arena) : Prop where
  outputs : ∀ i, ∀ k ∈ a.outputs i, side k = side i
  inputs : ∀ k, ∀ i ∈ a.inputs k, side i = side k

theorem Arena.Splits.not {side : Nat → Bool} {a : Arena} (h : a.Splits side) :
    a.Splits fun i => !side i where
  outputs := fun i k hk => by rw [h.outputs i k hk]
  inputs := fun k i hi => by rw [h.inputs k i hi]

/-- An arena is one side of another, with its nodes numbered anew. -/
structure Arena.IsPart (side : Nat → Bool) (a b : Arena) : Prop where
  size : b.size = placeOf side a.size
  op? : ∀ i, side i = true → b.op? (placeOf side i) = a.op? i
  inputs : ∀ i, side i = true → b.inputs (placeOf side i) = (a.inputs i).map (placeOf side)
  outputs : ∀ i, side i = true → b.outputs (placeOf side i) = (a.outputs i).map (placeOf side)

section Sides

variable {side : Nat → Bool} {t : Template} {a b : Arena} {root i : Nat} {f : Fused}

/-- A fusion comes to nodes on the side of its root. -/
theorem Arena.Splits.side_of_mem_visits (h : a.Splits side) :
    ∀ m ∈ t.visits a root, side m = side root :=
  Arena.mem_pairsBelow_of_closed (fun j hj k hk => (h.outputs j k hk).trans hj) _ (h.outputs root)

theorem Arena.Splits.side_of_mem_leaves (h : a.Splits side) :
    ∀ m ∈ t.leaves a root, side m = side root := by
  intro m hm
  rcases Template.mem_of_mem_leaves hm with rfl | hm
  · rfl
  · exact h.side_of_mem_visits m hm

/-- A fusion makes no edge between the sides. -/
theorem Collapsed.splits (h : Collapsed t a root f) (ha : a.Splits side) :
    f.arena.Splits side where
  outputs := fun j k hk => by
    obtain ⟨l, hl, rfl | ⟨rfl, hleaf⟩⟩ := h.exists_of_mem_outputs hk
    · exact ha.outputs l k hl
    · exact (ha.outputs l k hl).trans (ha.side_of_mem_leaves l hleaf)
  inputs := fun k j hj => by
    rw [h.inputs] at hj
    obtain ⟨l, hl, rfl⟩ := List.mem_map.mp hj
    unfold Walk.graft
    split
    next hgraft =>
      rw [← ha.side_of_mem_leaves l hgraft.1]
      exact ha.inputs k l hl
    next => exact ha.inputs k l hl

/-! ## Looks -/

/-- A node of a part, with the ends of its edges numbered anew. -/
def Node.place (side : Nat → Bool) (node : Node) : Node where
  op := node.op
  inputs := node.inputs.map (placeOf side)
  outputs := node.outputs.map (placeOf side)

namespace Arena.IsPart

theorem node? (h : IsPart side a b) (hi : side i = true) :
    b.node? (placeOf side i) = (a.node? i).map (Node.place side) := by
  have hop := h.op? i hi
  cases hop' : a.op? i with
  | none =>
    rw [hop'] at hop
    simp only [Arena.op?, Option.map_eq_none_iff] at hop hop'
    rw [hop, hop']
    rfl
  | some op =>
    rw [hop'] at hop
    rw [node?_of_op? hop, node?_of_op? hop', h.inputs i hi, h.outputs i hi]
    rfl

/-- The part of a sound arena is sound. -/
theorem isSound (h : IsPart side a b) (hs : a.Splits side) (ha : a.IsSound) : b.IsSound := by
  have hplace : ∀ {x : Nat}, x < b.size → ∃ i < a.size, side i = true ∧ placeOf side i = x := by
    intro x hx
    exact exists_of_lt_placeOf (h.size ▸ hx)
  refine ⟨⟨fun x y hy => ?_, fun y x hx => ?_, fun x y hy => ?_⟩, fun x op hop => ?_⟩
  · obtain ⟨i, -, hi, rfl⟩ := hplace (lt_size_of_mem_outputs hy)
    rw [h.outputs i hi] at hy
    obtain ⟨k, hk, rfl⟩ := List.mem_map.mp hy
    exact placeOf_lt hi (ha.forward.outputs i k hk)
  · obtain ⟨k, -, hk, rfl⟩ := hplace (lt_size_of_mem_inputs hx)
    rw [h.inputs k hk] at hx
    obtain ⟨i, hi, rfl⟩ := List.mem_map.mp hx
    exact placeOf_lt ((hs.inputs k i hi).trans hk) (ha.forward.inputs k i hi)
  · obtain ⟨i, -, hi, rfl⟩ := hplace (lt_size_of_mem_outputs hy)
    rw [h.outputs i hi] at hy
    obtain ⟨k, hk, rfl⟩ := List.mem_map.mp hy
    rw [h.size]
    exact placeOf_lt ((hs.outputs i k hk).trans hi) (ha.forward.range i k hk)
  · obtain ⟨i, -, hi, rfl⟩ := hplace (lt_size_of_op? hop)
    exact ha.typed i op ((h.op? i hi).symm.trans hop)

/-- From a node of the part the same trees of types grow. -/
theorem typesBelow_eq (h : IsPart side a b) (hs : a.Splits side) (levels : Nat)
    (hi : side i = true) : b.typesBelow levels (placeOf side i) = a.typesBelow levels i := by
  induction levels generalizing i with
  | zero =>
    simp only [typesBelow, node, h.node? hi]
    cases a.node? i <;> rfl
  | succ levels ih =>
    simp only [typesBelow, node, h.node? hi]
    cases hnode : a.node? i with
    | none => rfl
    | some node =>
      have hout : node.outputs = a.outputs i := by simp [Arena.outputs, hnode]
      have hbelow : (node.outputs.map (placeOf side)).mapM (b.typesBelow levels)
          = node.outputs.mapM (a.typesBelow levels) := by
        rw [List.mapM_map]
        exact mapM_congr fun k hk => ih ((hs.outputs i k (hout ▸ hk)).trans hi)
      simp only [Option.map_some, ok_bind, Node.place, hbelow]

/-- A look at a node of the part comes to the same verdict. -/
theorem examine_eq (h : IsPart side a b) (hs : a.Splits side) (t : Template) (hi : side i = true) :
    t.examine b (placeOf side i) = t.examine a i := by
  simp only [Template.examine, node, h.node? hi, typeTree, h.typesBelow_eq hs _ hi]
  cases a.node? i <;> rfl

/-! ## Walks -/

mutual

/-- A walk from a node of the part comes to the same nodes. -/
theorem pairs_eq (h : IsPart side a b) (hs : a.Splits side) : ∀ (p : Pattern) {i : Nat},
    side i = true →
    b.pairs p (placeOf side i) = (a.pairs p i).map (Prod.map (placeOf side) id)
  | .node opType children, i, hi => by
    have hside : ∀ k ∈ a.outputs i, side k = true := fun k hk => (hs.outputs i k hk).trans hi
    have hbelow := pairsBelow_eq h hs children hside
    rw [pairs, pairs, h.outputs i hi, hbelow]
    rfl

theorem pairsBelow_eq (h : IsPart side a b) (hs : a.Splits side) : ∀ (ps : List Pattern)
    {ks : List Nat}, (∀ k ∈ ks, side k = true) →
    b.pairsBelow ps (ks.map (placeOf side)) = (a.pairsBelow ps ks).map (Prod.map (placeOf side) id)
  | [], _, _ => by simp
  | child :: rest, [], _ => by simp [pairsBelow]
  | child :: rest, k :: ks, hks => by
    rw [List.map_cons, pairsBelow, pairsBelow, List.map_append, pairs_eq h hs child (hks k (by simp)),
      pairsBelow_eq h hs rest fun k' hk' => hks k' (by simp [hk'])]

end

theorem visits_eq (h : IsPart side a b) (hs : a.Splits side) (t : Template)
    (hroot : side root = true) :
    t.visits b (placeOf side root) = (t.visits a root).map (placeOf side) := by
  rw [Template.visits, Template.visits, h.outputs root hroot,
    h.pairsBelow_eq hs _ fun k hk => (hs.outputs root k hk).trans hroot]
  simp [nodesOf]

theorem leaves_eq (h : IsPart side a b) (hs : a.Splits side) (t : Template)
    (hroot : side root = true) :
    t.leaves b (placeOf side root) = (t.leaves a root).map (placeOf side) := by
  rw [Template.leaves, Template.leaves, h.pairs_eq hs _ hroot]
  simp [leavesOf, nodesOf, List.filter_map, Function.comp_def]

theorem opsAt_eq (h : IsPart side a b) {indices : List Nat}
    (hside : ∀ i ∈ indices, side i = true) :
    Walk.opsAt b (indices.map (placeOf side)) = Walk.opsAt a indices := by
  rw [Walk.opsAt, List.filterMap_map]
  exact List.filterMap_congr fun i hi => h.op? i (hside i hi)

/-! ## Fusions -/

section Fuse

variable (h : IsPart side a b) (hs : a.Splits side) (hroot : side root = true)
include h hs hroot

/-- The producer that a consumer in the part counts is the one that it counts in the whole. -/
theorem graft_eq (t : Template) {k : Nat} (hk : side k = true) (hi : i ∈ a.inputs k) :
    Walk.graft b (placeOf side root) (t.leaves b (placeOf side root)) (placeOf side k)
        (placeOf side i)
      = placeOf side (Walk.graft a root (t.leaves a root) k i) := by
  have hside : side i = true := (hs.inputs k i hi).trans hk
  have hleaf : placeOf side i ∈ t.leaves b (placeOf side root) ↔ i ∈ t.leaves a root := by
    rw [h.leaves_eq hs t hroot]
    exact mem_map_placeOf hside fun m hm => (hs.side_of_mem_leaves m hm).trans hroot
  have hout : placeOf side k ∈ b.outputs (placeOf side i) ↔ k ∈ a.outputs i := by
    rw [h.outputs i hside]
    exact mem_map_placeOf hk fun m hm => (hs.outputs i m hm).trans hside
  simp only [Walk.graft, hleaf, hout]
  split <;> rfl

variable {f' : Fused} (hf : Collapsed t a root f) (hf' : Collapsed t b (placeOf side root) f')
include hf hf'

/-- A fusion in the part absorbs what it absorbs in the whole. -/
theorem absorbed_eq : f'.absorbed = f.absorbed.map (placeOf side) := by
  have hside : ∀ m ∈ t.visits a root, side m = true :=
    fun m hm => (hs.side_of_mem_visits m hm).trans hroot
  have hinj : ∀ x ∈ [] ++ t.visits a root, ∀ y ∈ [] ++ t.visits a root,
      placeOf side x = placeOf side y → x = y :=
    fun x hx y hy => placeOf_inj (hside x hx) (hside y hy)
  rw [hf'.absorbed, hf.absorbed, h.visits_eq hs t hroot]
  exact foldl_addNew_map hinj

/-- Where a node is not fused in the whole, the part has for it the consumers of the whole. -/
theorem outputs_outside_eq (hi : side i = true) (hout : ¬ Walk.IsInside root f.absorbed i)
    (hinputs : ∀ k, side k = true →
      f'.arena.inputs (placeOf side k) = (f.arena.inputs k).map (placeOf side)) :
    f'.arena.outputs (placeOf side i) = (f.arena.outputs i).map (placeOf side) := by
  have habsorbed : ∀ m ∈ f.absorbed, side m = true := fun m hm =>
    (hs.side_of_mem_visits m (hf.mem_absorbed.mp hm)).trans hroot
  have hmem : ∀ {k : Nat}, side k = true → (placeOf side k ∈ f'.absorbed ↔ k ∈ f.absorbed) := by
    intro k hk
    rw [h.absorbed_eq hs hroot hf hf']
    exact mem_map_placeOf hk habsorbed
  have hout' : ¬ Walk.IsInside (placeOf side root) f'.absorbed (placeOf side i) := by
    simp only [Walk.IsInside, List.contains_iff_mem, hmem hi] at hout ⊢
    exact hout.imp fun hin => hin.imp_left (placeOf_inj hi hroot)
  rw [hf'.outputs_outside _ hout', hf.outputs_outside i hout, h.outputs i hi, List.filter_map]
  refine congrArg _ (List.filter_congr fun k hk => ?_)
  have hk' : side k = true := (hs.outputs i k hk).trans hi
  have hinput : placeOf side i ∈ f'.arena.inputs (placeOf side k) ↔ i ∈ f.arena.inputs k := by
    rw [hinputs k hk']
    exact mem_map_placeOf hi fun m hm => ((hf.splits hs).inputs k m hm).trans hk'
  simp only [Function.comp_def, List.contains_eq_mem, hmem hk', hinput]

/-- A fusion in the part is the part of the fusion in the whole. -/
theorem collapsed (hlt : root < a.size) : IsPart side f.arena f'.arena := by
  have hvisits : ∀ m ∈ t.visits a root, side m = true :=
    fun m hm => (hs.side_of_mem_visits m hm).trans hroot
  have hleaves : ∀ m ∈ t.leaves a root, side m = true :=
    fun m hm => (hs.side_of_mem_leaves m hm).trans hroot
  have hinputs : ∀ i, side i = true →
      f'.arena.inputs (placeOf side i) = (f.arena.inputs i).map (placeOf side) := by
    intro i hi
    rw [hf'.inputs, hf.inputs, h.inputs i hi, List.map_map, List.map_map]
    exact List.map_congr_left fun j hj => h.graft_eq hs hroot t hi hj
  refine ⟨?_, fun i hi => ?_, hinputs, fun i hi => ?_⟩
  · rw [hf'.size, hf.size, h.size]
  · by_cases hir : i = root
    · subst hir
      obtain ⟨op, hop⟩ := Arena.op?_of_lt hlt
      rw [hf'.op?_root op ((h.op? i hroot).trans hop), hf.op?_root op hop, h.visits_eq hs t hroot,
        h.leaves_eq hs t hroot, h.opsAt_eq hvisits, h.opsAt_eq hleaves]
    · rw [hf'.op?_ne _ (mt (placeOf_inj hi hroot) hir), hf.op?_ne i hir, h.op? i hi]
  · by_cases hir : i = root
    · subst hir
      rw [hf'.outputs_root, hf.outputs_root, h.leaves_eq hs t hroot, List.flatMap_map,
        List.map_flatMap]
      exact List.flatMap_congr fun m hm => h.outputs m (hleaves m hm)
    · by_cases hin : i ∈ f.absorbed
      · have hin' : placeOf side i ∈ f'.absorbed := by
          rw [h.absorbed_eq hs hroot hf hf']
          exact List.mem_map_of_mem hin
        rw [hf'.outputs_absorbed _ hin' (mt (placeOf_inj hi hroot) hir),
          hf.outputs_absorbed i hin hir, h.outputs i hi]
      · exact h.outputs_outside_eq hs hroot hf hf' hi (by simp [Walk.IsInside, hir, hin]) hinputs

end Fuse

/-- A fusion on the other side leaves the part as it is. -/
theorem other (h : IsPart side a b) (hs : a.Splits side) (hroot : side root = false)
    (hf : Collapsed t a root f) : IsPart side f.arena b := by
  have hne : ∀ i, side i = true → i ≠ root := by
    rintro i hi rfl
    rw [hroot] at hi
    cases hi
  have habsorbed : ∀ i, side i = true → i ∉ f.absorbed := fun i hi hmem => by
    rw [hs.side_of_mem_visits i (hf.mem_absorbed.mp hmem), hroot] at hi
    cases hi
  have hleaves : ∀ i, side i = true → i ∉ t.leaves a root := fun i hi hmem => by
    rw [hs.side_of_mem_leaves i hmem, hroot] at hi
    cases hi
  refine ⟨?_, fun i hi => ?_, fun k hk => ?_, fun i hi => ?_⟩
  · rw [hf.size, h.size]
  · rw [hf.op?_ne i (hne i hi), h.op? i hi]
  · have hgraft : (a.inputs k).map (Walk.graft a root (t.leaves a root) k) = a.inputs k := by
      refine (List.map_congr_left fun i hi => ?_).trans (List.map_id _)
      simp [Walk.graft, hleaves i ((hs.inputs k i hi).trans hk)]
    rw [hf.inputs, hgraft, h.inputs k hk]
  · have hfilter : (a.outputs i).filter
        (fun k => !(f.absorbed.contains k && (f.arena.inputs k).contains i)) = a.outputs i := by
      refine List.filter_eq_self.mpr fun k hk => ?_
      simp [habsorbed k ((hs.outputs i k hk).trans hi)]
    rw [hf.outputs_outside i (by simp [Walk.IsInside, hne i hi, habsorbed i hi]), hfilter,
      h.outputs i hi]

end Arena.IsPart

end Sides

end TensorFusion
