import TensorFusion.Proofs.Graph.Fuse

/-!
# Proofs — Graph — Walk

The walk of a fusion down a template of any shape. It pairs the nodes of the template with nodes of
the arena, branch by branch; every paired node hands over its attributes and parameters, and those
that are paired with a leaf hand over their consumers and output slots as well. Where the walk does
not come back to the root, it sees the arena as it was, so all of this can be told from the arena
before the fusion.
-/

namespace TensorFusion

namespace Arena

mutual

/-- The nodes that those of a tree are paired with from a node on, each with the tree below it: the
node first, then branch by branch. -/
def pairs (a : Arena) : Pattern → Nat → List (Nat × Pattern)
  | .node opType children, i =>
      (i, .node opType children) :: pairsBelow a children (a.outputs i)

/-- The nodes that those of several trees are paired with, as long as there are consumers. -/
def pairsBelow (a : Arena) : List Pattern → List Nat → List (Nat × Pattern)
  | child :: rest, consumer :: consumers =>
      pairs a child consumer ++ pairsBelow a rest consumers
  | _, _ => []

end

end Arena

/-- The nodes of some pairs. -/
def nodesOf (pairs : List (Nat × Pattern)) : List Nat := pairs.map (·.1)

/-- The nodes of some pairs that are paired with a leaf. -/
def leavesOf (pairs : List (Nat × Pattern)) : List Nat :=
  nodesOf (pairs.filter fun pair => pair.2.isLeaf)

@[simp] theorem nodesOf_append (ps qs : List (Nat × Pattern)) :
    nodesOf (ps ++ qs) = nodesOf ps ++ nodesOf qs := by
  simp [nodesOf]

@[simp] theorem leavesOf_append (ps qs : List (Nat × Pattern)) :
    leavesOf (ps ++ qs) = leavesOf ps ++ leavesOf qs := by
  simp [leavesOf]

theorem nodesOf_of_mem_leavesOf {pairs : List (Nat × Pattern)} {i : Nat}
    (h : i ∈ leavesOf pairs) : i ∈ nodesOf pairs := by
  obtain ⟨pair, hpair, rfl⟩ := List.mem_map.mp h
  exact List.mem_map_of_mem (List.mem_filter.mp hpair).1

namespace Arena

variable {a b : Arena}

@[simp] theorem pairsBelow_nil (ks : List Nat) : a.pairsBelow [] ks = [] := by rw [pairsBelow]; simp

mutual

/-- A walk stays where the edges from its first node lead. -/
theorem mem_pairs_of_closed {P : Nat → Prop} (hP : ∀ i, P i → ∀ k ∈ a.outputs i, P k) :
    ∀ (p : Pattern) {i : Nat}, P i → ∀ m ∈ nodesOf (a.pairs p i), P m
  | .node _ children, i, hi, m, hm => by
    rcases List.mem_cons.mp hm with rfl | hm
    · exact hi
    · exact mem_pairsBelow_of_closed hP children (hP i hi) m hm

theorem mem_pairsBelow_of_closed {P : Nat → Prop} (hP : ∀ i, P i → ∀ k ∈ a.outputs i, P k) :
    ∀ (ps : List Pattern) {ks : List Nat}, (∀ k ∈ ks, P k) →
      ∀ m ∈ nodesOf (a.pairsBelow ps ks), P m
  | [], _, _, m, hm => by simp [pairsBelow, nodesOf] at hm
  | child :: rest, [], _, m, hm => by simp [pairsBelow, nodesOf] at hm
  | child :: rest, k :: ks, hks, m, hm => by
    rw [pairsBelow, nodesOf_append, List.mem_append] at hm
    rcases hm with hm | hm
    · exact mem_pairs_of_closed hP child (hks k (by simp)) m hm
    · exact mem_pairsBelow_of_closed hP rest (fun k' hk' => hks k' (by simp [hk'])) m hm

end

mutual

/-- A walk that does not come to a node does not see its edges. -/
theorem pairs_congr {root : Nat} (h : ∀ i, i ≠ root → b.outputs i = a.outputs i) :
    ∀ (p : Pattern) (i : Nat), root ∉ nodesOf (a.pairs p i) → b.pairs p i = a.pairs p i
  | .node _ children, i, hroot => by
    obtain ⟨hi, hbelow⟩ := not_or.mp (mt List.mem_cons.mpr hroot)
    rw [pairs, pairs, h i (Ne.symm hi), pairsBelow_congr h children (a.outputs i) hbelow]

theorem pairsBelow_congr {root : Nat} (h : ∀ i, i ≠ root → b.outputs i = a.outputs i) :
    ∀ (ps : List Pattern) (ks : List Nat), root ∉ nodesOf (a.pairsBelow ps ks) →
      b.pairsBelow ps ks = a.pairsBelow ps ks
  | [], _, _ => rfl
  | _ :: _, [], _ => rfl
  | child :: rest, k :: ks, hroot => by
    rw [pairsBelow, nodesOf_append, List.mem_append, not_or] at hroot
    rw [pairsBelow, pairsBelow, pairs_congr h child k hroot.1, pairsBelow_congr h rest ks hroot.2]

end

end Arena

/-! ## What a walk gathers -/

/-- Adds an element that is not yet there. -/
def addNew (xs : List Nat) (x : Nat) : List Nat := if xs.contains x then xs else xs ++ [x]

theorem mem_foldl_addNew {xs ys : List Nat} {m : Nat} :
    m ∈ ys.foldl addNew xs ↔ m ∈ xs ∨ m ∈ ys := by
  induction ys generalizing xs with
  | nil => simp
  | cons y ys ih =>
    rw [List.foldl_cons, ih, addNew]
    split
    next hy =>
      rw [List.contains_iff_mem] at hy
      constructor
      · rintro (h | h)
        · exact .inl h
        · exact .inr (List.mem_cons_of_mem _ h)
      · rintro (h | h)
        · exact .inl h
        · rcases List.mem_cons.mp h with rfl | h
          · exact .inl hy
          · exact .inr h
    next => simp [or_assoc]

/-- Elements that are all new and different are added as they come. -/
theorem foldl_addNew_eq {xs ys : List Nat} (h : (xs ++ ys).Nodup) :
    ys.foldl addNew xs = xs ++ ys := by
  induction ys generalizing xs with
  | nil => simp
  | cons y ys ih =>
    have hy : y ∉ xs := fun hmem => (List.nodup_append.mp h).2.2 y hmem y (by simp) rfl
    rw [List.foldl_cons, addNew, if_neg (by simpa using hy), ih (by simpa using h)]
    simp

/-- What is gathered is what an operator has under its new names, also where the type of the
operator is no key, as then it has nothing. -/
theorem Gathered.eq_of_take {t : Template} {g g' : Gathered} {op : Op}
    (h : g.take t op = .ok g') : g' = g.addAs t op := by
  cases hType : op.opType with
  | atom opType =>
    rw [Gathered.take_eq hType] at h
    exact (Except.ok.inj h).symm
  | list items | map entries =>
    unfold Gathered.take at h
    split at h
    next hempty =>
      simp only [Bool.and_eq_true, List.isEmpty_iff] at hempty
      cases h
      simp [Gathered.addAs, Gathered.add, hempty.1, hempty.2]
    next => simp [hType, Template.renamesFor, bind, Except.bind] at h

namespace Walk

variable {t : Template} {root : Nat} {a b c : Arena}

/-- The producer that a consumer counts once some nodes have handed their consumers over. -/
def graft (a : Arena) (root : Nat) (leaves : List Nat) (consumer i : Nat) : Nat :=
  if i ∈ leaves ∧ consumer ∈ a.outputs i then root else i

/-- An arena in which some nodes have handed over their consumers and their output slots to another,
one after the other. -/
structure Grafted (root : Nat) (leaves : List Nat) (a b : Arena) : Prop where
  size : b.size = a.size
  op?_root : ∀ op, a.op? root = some op → b.op? root = some { op with
    outputs := (opsAt a leaves).foldl (fun slots leaf => slots.join leaf.outputs) op.outputs }
  op?_ne : ∀ i, i ≠ root → b.op? i = a.op? i
  outputs_root : b.outputs root = a.outputs root ++ leaves.flatMap a.outputs
  outputs_ne : ∀ i, i ≠ root → b.outputs i = a.outputs i
  inputs : ∀ k, b.inputs k = (a.inputs k).map (graft a root leaves k)

theorem Grafted.refl (root : Nat) (a : Arena) : Grafted root [] a a where
  size := rfl
  op?_root := fun op hop => by simpa [opsAt] using hop
  op?_ne := fun _ _ => rfl
  outputs_root := by simp
  outputs_ne := fun _ _ => rfl
  inputs := fun k => (List.map_id'' (fun i => by simp [graft]) _).symm

theorem HandedOver.grafted {leaf : Nat} {last : Op} (h : HandedOver root leaf a b)
    (hlast : a.op? leaf = some last) : Grafted root [leaf] a b where
  size := h.size
  op?_root := fun op hop => by
    rw [h.op?_root op last hop hlast]
    simp [opsAt, hlast]
  op?_ne := h.op?_ne
  outputs_root := by simpa using h.outputs_root
  outputs_ne := h.outputs_ne
  inputs := fun k => by
    rw [h.inputs]
    split
    next hk =>
      refine List.map_congr_left fun i _ => ?_
      by_cases hi : i = leaf <;> simp [redirect, graft, hi, hk]
    next hk =>
      refine (List.map_id'' (fun i => ?_) _).symm
      by_cases hi : i = leaf <;> simp [graft, hi, hk]

/-- What is handed over to the root later comes behind what was handed over before. -/
theorem Grafted.trans {front back : List Nat} (h : Grafted root front a b)
    (h' : Grafted root back b c) (hroot : root ∉ back) : Grafted root (front ++ back) a c := by
  have hne : ∀ i ∈ back, i ≠ root := by
    rintro i hi rfl
    exact hroot hi
  have hops : opsAt b back = opsAt a back :=
    List.filterMap_congr fun i hi => h.op?_ne i (hne i hi)
  refine ⟨h'.size.trans h.size, fun op hop => ?_, fun i hi => ?_, ?_, fun i hi => ?_, fun k => ?_⟩
  · rw [h'.op?_root _ (h.op?_root op hop), hops]
    simp [opsAt]
  · rw [h'.op?_ne i hi, h.op?_ne i hi]
  · have hback : back.flatMap b.outputs = back.flatMap a.outputs :=
      List.flatMap_congr fun i hi => h.outputs_ne i (hne i hi)
    rw [h'.outputs_root, h.outputs_root, hback, List.flatMap_append, List.append_assoc]
  · rw [h'.outputs_ne i hi, h.outputs_ne i hi]
  · rw [h'.inputs, h.inputs, List.map_map]
    refine List.map_congr_left fun i _ => ?_
    -- A producer that was replaced by the root stays so; another is as it was at first.
    by_cases hfront : i ∈ front ∧ k ∈ a.outputs i
    · simp [graft, hfront]
    · by_cases hback : i ∈ back
      · simp [graft, hfront, hback, h.outputs_ne i (hne i hback)]
      · simp [graft, hfront, hback]

/-- What a part of a walk has made of the state before it: all paired nodes are gathered from and
absorbed, and those paired with leaves have handed over. -/
structure Absorbs (t : Template) (root : Nat) (pairs : List (Nat × Pattern)) (w w' : Walk) :
    Prop where
  grafted : Grafted root (leavesOf pairs) w.arena w'.arena
  gathered : w'.gathered = (opsAt w.arena (nodesOf pairs)).foldl (Gathered.addAs t) w.gathered
  absorbed : w'.absorbed = (nodesOf pairs).foldl addNew w.absorbed

theorem Absorbs.refl (t : Template) (root : Nat) (w : Walk) : Absorbs t root [] w w where
  grafted := Grafted.refl root w.arena
  gathered := rfl
  absorbed := rfl

theorem Absorbs.trans {front back : List (Nat × Pattern)} {w w' w'' : Walk}
    (h : Absorbs t root front w w') (h' : Absorbs t root back w' w'')
    (hroot : root ∉ nodesOf back) : Absorbs t root (front ++ back) w w'' where
  grafted := by
    rw [leavesOf_append]
    exact h.grafted.trans h'.grafted fun hmem => hroot (nodesOf_of_mem_leavesOf hmem)
  gathered := by
    have hops : opsAt w'.arena (nodesOf back) = opsAt w.arena (nodesOf back) :=
      List.filterMap_congr fun i hi => h.grafted.op?_ne i fun heq => hroot (heq ▸ hi)
    rw [h'.gathered, h.gathered, hops]
    simp [opsAt]
  absorbed := by rw [h'.absorbed, h.absorbed, nodesOf_append, List.foldl_append]

theorem eq_of_visit {w w' : Walk} {i : Nat} {op : Op} (h : w.visit t i op = .ok w') :
    w' = { w with gathered := w.gathered.addAs t op, absorbed := addNew w.absorbed i } := by
  simp only [visit, bind_eq_ok, pure_eq_ok] at h
  obtain ⟨gathered, htake, rfl⟩ := h
  rw [Gathered.eq_of_take htake]
  rfl

theorem relink_eq_ok {leaf consumer : Nat} :
    relink root leaf a consumer = .ok b ↔
      consumer < a.size ∧ a.mapInputs consumer (List.map (redirect leaf root)) = b := by
  unfold relink
  split
  next h =>
    show Except.ok (a.mapInputs consumer (List.map (redirect leaf root))) = _ ↔ _
    simp [h]
  next h => simp [h]

/-- Consumers can be relinked where they all exist. -/
theorem lt_size_of_foldlM_relink {leaf : Nat} {consumers : List Nat}
    (h : consumers.foldlM (relink root leaf) a = .ok b) : ∀ k ∈ consumers, k < a.size := by
  induction consumers generalizing a with
  | nil => simp
  | cons consumer consumers ih =>
    rw [List.foldlM_cons, bind_eq_ok] at h
    obtain ⟨a', hfirst, hrest⟩ := h
    obtain ⟨hlt, rfl⟩ := relink_eq_ok.mp hfirst
    intro k hk
    rcases List.mem_cons.mp hk with rfl | hk
    · exact hlt
    · simpa using ih hrest k hk

/-- A node that has handed over to the root has consumers that exist. -/
theorem handedOver_of_handOver {leaf : Nat} {w w' : Walk}
    (h : handOver root leaf w = .ok w') (hroot : root < w.arena.size) :
    ∃ b, w' = { w with arena := b } ∧ HandedOver root leaf w.arena b := by
  have hrange : ∀ k ∈ w.arena.outputs leaf, k < w.arena.size := by
    have h' := h
    simp only [handOver, bind_eq_ok] at h'
    obtain ⟨a', hrelink, -⟩ := h'
    intro k hk
    simpa using lt_size_of_foldlM_relink hrelink k (List.mem_eraseDups.mpr hk)
  obtain ⟨b, hb, hover⟩ := handOver_eq leaf hroot hrange
  rw [h] at hb
  exact ⟨b, Except.ok.inj hb, hover⟩

mutual

/-- A walk from a node absorbs all that are paired with the nodes of the tree. -/
theorem absorbs_of_absorb : ∀ (p : Pattern) {i : Nat} {w w' : Walk},
    absorb t root p i w = .ok w' → root < w.arena.size →
    root ∉ nodesOf (w.arena.pairs p i) → Absorbs t root (w.arena.pairs p i) w w'
  | .node opType children, i, w, w', h, hroot, hnot => by
    have hi : i ≠ root := by
      rintro rfl
      exact hnot (List.mem_cons_self ..)
    have hbelow : root ∉ nodesOf (w.arena.pairsBelow children (w.arena.outputs i)) :=
      fun hmem => hnot (List.mem_cons_of_mem _ hmem)
    rw [absorb] at h
    split at h
    · cases h
    next node hnode =>
      simp only [bind_eq_ok, before_eq_ok] at h
      obtain ⟨w₁, hvisit, h⟩ := h
      have hw₁ := eq_of_visit hvisit
      have hop : w.arena.op? i = some node.op := by simp [Arena.op?, hnode]
      split at h
      next hleaf =>
        rw [List.isEmpty_iff] at hleaf
        subst hleaf hw₁
        obtain ⟨b, rfl, hover⟩ := handedOver_of_handOver h hroot
        exact ⟨hover.grafted hop, by simp [Arena.pairs, Arena.pairsBelow, nodesOf, opsAt, hop],
          by simp [Arena.pairs, Arena.pairsBelow, nodesOf]⟩
      next hinner =>
        have hnoLeaf : (Pattern.node opType children).isLeaf = false := by
          simpa [Pattern.isLeaf, Pattern.children] using hinner
        subst hw₁
        have hrest := absorbs_of_absorbOutputs children h hroot hi (by simpa using hbelow)
        refine ⟨?_, ?_, ?_⟩
        · rw [Arena.pairs, leavesOf, List.filter_cons_of_neg (by simp [hnoLeaf])]
          exact hrest.grafted
        · rw [hrest.gathered, Arena.pairs]
          simp [nodesOf, opsAt, hop]
        · rw [hrest.absorbed, Arena.pairs]
          simp [nodesOf]

/-- A walk along the consumers of a node, from a position on, absorbs all that are paired with the
nodes of the trees. -/
theorem absorbs_of_absorbOutputs : ∀ (ps : List Pattern) {i position : Nat} {w w' : Walk},
    absorbOutputs t root ps i position w = .ok w' → root < w.arena.size → i ≠ root →
    root ∉ nodesOf (w.arena.pairsBelow ps ((w.arena.outputs i).drop position)) →
    Absorbs t root (w.arena.pairsBelow ps ((w.arena.outputs i).drop position)) w w'
  | [], i, position, w, w', h, _, _, _ => by
    rw [absorbOutputs] at h
    cases h
    exact Absorbs.refl t root w
  | child :: rest, i, position, w, w', h, hroot, hi, hnot => by
    rw [absorbOutputs] at h
    split at h
    next hnone =>
      cases h
      rw [List.drop_eq_nil_of_le (List.getElem?_eq_none_iff.mp hnone)]
      exact Absorbs.refl t root w
    next consumer hconsumer =>
      obtain ⟨hlt, hget⟩ := List.getElem?_eq_some_iff.mp hconsumer
      rw [bind_eq_ok] at h
      obtain ⟨w₁, hchild, h⟩ := h
      rw [List.drop_eq_getElem_cons hlt, hget] at hnot ⊢
      rw [Arena.pairsBelow, nodesOf_append, List.mem_append, not_or] at hnot
      have hfirst := absorbs_of_absorb child hchild hroot hnot.1
      -- The walk so far has changed the edges of the root alone.
      have hsame : w₁.arena.pairsBelow rest ((w₁.arena.outputs i).drop (position + 1))
          = w.arena.pairsBelow rest ((w.arena.outputs i).drop (position + 1)) := by
        rw [hfirst.grafted.outputs_ne i hi]
        exact Arena.pairsBelow_congr hfirst.grafted.outputs_ne rest _ hnot.2
      have hrest := absorbs_of_absorbOutputs rest h (hfirst.grafted.size ▸ hroot) hi
        (hsame ▸ hnot.2)
      rw [hsame] at hrest
      exact hfirst.trans hrest hnot.2

end

/-- A walk from several nodes absorbs all that are paired with the nodes of their trees. -/
theorem absorbs_of_absorbPairs {ps : List Pattern} {ks : List Nat} {w w' : Walk}
    (h : absorbPairs t root (ks.zip ps) w = .ok w') (hroot : root < w.arena.size)
    (hnot : root ∉ nodesOf (w.arena.pairsBelow ps ks)) :
    Absorbs t root (w.arena.pairsBelow ps ks) w w' := by
  induction ps generalizing ks w with
  | nil =>
    rw [List.zip_nil_right] at h
    cases h
    exact Absorbs.refl t root _
  | cons child rest ih =>
    cases ks with
    | nil =>
      cases h
      exact Absorbs.refl t root _
    | cons consumer consumers =>
      rw [List.zip_cons_cons, absorbPairs, List.foldlM_cons, bind_eq_ok] at h
      obtain ⟨w₁, hchild, h⟩ := h
      rw [Arena.pairsBelow, nodesOf_append, List.mem_append, not_or] at hnot
      have hfirst := absorbs_of_absorb child hchild hroot hnot.1
      have hsame : w₁.arena.pairsBelow rest consumers = w.arena.pairsBelow rest consumers :=
        Arena.pairsBelow_congr hfirst.grafted.outputs_ne rest consumers hnot.2
      have hrest := ih h (hfirst.grafted.size ▸ hroot) (hsame ▸ hnot.2)
      rw [hsame] at hrest
      exact hfirst.trans hrest hnot.2

end Walk

/-! ## Fusions -/

namespace Template

/-- The nodes that a fusion visits below its root, in order; a node that several branches lead to is
visited as often. -/
def visits (t : Template) (a : Arena) (root : Nat) : List Nat :=
  nodesOf (a.pairsBelow t.root.children (a.outputs root))

/-- The nodes that a fusion pairs with the leaves of its template, the root where that is one. -/
def leaves (t : Template) (a : Arena) (root : Nat) : List Nat := leavesOf (a.pairs t.root root)

variable {t : Template} {a : Arena} {root : Nat}

theorem pairs_root (t : Template) (a : Arena) (root : Nat) : a.pairs t.root root
    = (root, t.root) :: a.pairsBelow t.root.children (a.outputs root) := by
  cases t.root
  rfl

theorem visits_of_isLeaf (h : t.root.isLeaf = true) : t.visits a root = [] := by
  rw [visits, List.isEmpty_iff.mp h]
  rfl

theorem leaves_of_isLeaf (h : t.root.isLeaf = true) : t.leaves a root = [root] := by
  rw [leaves, pairs_root, leavesOf, List.filter_cons_of_pos (by simpa using h),
    List.isEmpty_iff.mp h]
  rfl

theorem leaves_of_not_isLeaf (h : t.root.isLeaf = false) :
    t.leaves a root = leavesOf (a.pairsBelow t.root.children (a.outputs root)) := by
  rw [leaves, pairs_root, leavesOf, List.filter_cons_of_neg (by simp [h])]
  rfl

/-- What is paired with a leaf is the root or is visited below it. -/
theorem mem_of_mem_leaves {i : Nat} (h : i ∈ t.leaves a root) : i = root ∨ i ∈ t.visits a root := by
  have hmem := nodesOf_of_mem_leavesOf h
  rw [pairs_root] at hmem
  exact List.mem_cons.mp hmem

/-- The output slots of a fused operator: those of the operators that are paired with leaves,
joined, or its own where the template has one node only. -/
def fusedOutputs (t : Template) (op : Op) (leaves : List Op) : Slots :=
  if t.root.isLeaf then op.outputs
  else leaves.foldl (fun slots leaf => slots.join leaf.outputs) {}

end Template

/-! ## The end of a walk -/

theorem Arena.clear_eq (a : Arena) (root : Nat) :
    (a.update root fun node => { node with outputs := [], op.outputs := {} }) = a.clear root := by
  rw [clear, mapOp, mapOutputs, update_update]
  rfl

namespace Walk

variable {t : Template} {a : Arena} {root : Nat} {op : Op}

theorem opsAt_clear {indices : List Nat} (h : root ∉ indices) :
    opsAt (a.clear root) indices = opsAt a indices :=
  List.filterMap_congr fun _ hi => Arena.op?_clear_ne fun heq => h (heq ▸ hi)

/-- The end of the walk of a fusion: the root has what it takes over, and the edges from outside to
what was visited are gone. -/
structure Ends (t : Template) (a : Arena) (root : Nat) (op : Op) (w : Walk) : Prop where
  gathered : w.gathered = t.merge (op :: opsAt a (t.visits a root))
  absorbed : w.absorbed = (t.visits a root).foldl addNew []
  size : w.arena.size = a.size
  op?_root : w.arena.op? root
    = some { op with outputs := t.fusedOutputs op (opsAt a (t.leaves a root)) }
  op?_ne : ∀ i, i ≠ root → w.arena.op? i = a.op? i
  inputs : ∀ k, w.arena.inputs k = (a.inputs k).map (graft a root (t.leaves a root) k)
  outputs_root : w.arena.outputs root = (t.leaves a root).flatMap a.outputs
  outputs_absorbed : ∀ i ∈ w.absorbed, i ≠ root → w.arena.outputs i = a.outputs i
  outputs_outside : ∀ i, ¬ IsInside root w.absorbed i → w.arena.outputs i
    = (a.outputs i).filter fun k => !(w.absorbed.contains k && (w.arena.inputs k).contains i)

/-- With a template of one node there is nothing to walk. -/
theorem ends_of_isLeaf (hleaf : t.root.isLeaf = true) (hop : a.op? root = some op) :
    Ends t a root op { arena := a, gathered := Gathered.addAs t {} op } where
  gathered := by
    rw [Template.visits_of_isLeaf hleaf]
    rfl
  absorbed := by
    rw [Template.visits_of_isLeaf hleaf]
    rfl
  size := rfl
  op?_root := by rw [hop, Template.fusedOutputs, if_pos hleaf]
  op?_ne := fun _ _ => rfl
  inputs := fun k => by
    rw [Template.leaves_of_isLeaf hleaf]
    refine (List.map_id'' (fun i => ?_) _).symm
    by_cases hi : i = root <;> simp [graft, hi]
  outputs_root := by simp [Template.leaves_of_isLeaf hleaf]
  outputs_absorbed := fun i hi => by simp at hi
  outputs_outside := fun i _ => by simp

theorem ends_of_descend {w : Walk} (hinner : t.root.isLeaf = false) (hop : a.op? root = some op)
    (hnot : root ∉ t.visits a root)
    (h : descend t root { arena := a, gathered := Gathered.addAs t {} op } = .ok w) :
    Ends t a root op w := by
  simp only [descend, Arena.clear_eq, bind_eq_ok, pure_eq_ok] at h
  obtain ⟨w, habsorb, rfl⟩ := h
  have hroot : root < a.size := Arena.lt_size_of_op? hop
  have hleaves : root ∉ t.leaves a root := fun hmem => by
    rw [Template.leaves_of_not_isLeaf hinner] at hmem
    exact hnot (nodesOf_of_mem_leavesOf hmem)
  -- The walk does not come to the root, so it does not see that it was cleared.
  have hpairs : (a.clear root).pairsBelow t.root.children (a.outputs root)
      = a.pairsBelow t.root.children (a.outputs root) :=
    Arena.pairsBelow_congr (fun i hi => Arena.outputs_clear_ne hi) _ _ hnot
  obtain ⟨hgrafted, hgathered, habsorbed⟩ :=
    absorbs_of_absorbPairs habsorb (by simpa using hroot) (by rw [hpairs]; exact hnot)
  rw [hpairs, ← Template.leaves_of_not_isLeaf hinner] at hgrafted
  rw [hpairs, ← Template.visits, opsAt_clear hnot] at hgathered
  rw [hpairs] at habsorbed
  have hdetach := detach_detached root w.absorbed w.arena
  have hout : ∀ i, i ≠ root → w.arena.outputs i = a.outputs i := fun i hi => by
    rw [hgrafted.outputs_ne i hi, Arena.outputs_clear_ne hi]
  refine ⟨hgathered, habsorbed, ?_, ?_, fun i hi => ?_, fun k => ?_, ?_, fun i hi hne => ?_,
    fun i hi => ?_⟩
  · rw [hdetach.size, hgrafted.size, Arena.size_clear]
  · have hcleared : (a.clear root).op? root = some { op with outputs := {} } := by
      rw [Arena.op?_clear_self, hop]
      rfl
    rw [hdetach.op?, hgrafted.op?_root _ hcleared, opsAt_clear hleaves, Template.fusedOutputs,
      hinner]
    rfl
  · rw [hdetach.op?, hgrafted.op?_ne i hi, Arena.op?_clear_ne hi]
  · rw [hdetach.inputs, hgrafted.inputs, Arena.inputs_clear]
    refine List.map_congr_left fun i _ => ?_
    by_cases hi : i ∈ t.leaves a root
    · have hne : i ≠ root := fun heq => hleaves (heq ▸ hi)
      simp [graft, Arena.outputs_clear_ne hne]
    · simp [graft, hi]
  · rw [hdetach.outputs_inside root (.inl rfl), hgrafted.outputs_root,
      Arena.outputs_clear_self hroot, List.nil_append]
    exact List.flatMap_congr fun i hi => Arena.outputs_clear_ne fun heq => hleaves (heq ▸ hi)
  · rw [hdetach.outputs_inside i (.inr (by simpa using hi)), hout i hne]
  · rw [hdetach.outputs_outside i hi, hout i fun heq => hi (.inl heq)]
    refine List.filter_congr fun k _ => ?_
    rw [hdetach.inputs]

end Walk

/-! ## Fusions -/

/-- What a fusion makes of an arena, whatever the shape of its template. -/
structure Collapsed (t : Template) (a : Arena) (root : Nat) (f : Fused) : Prop where
  absorbed : f.absorbed = (t.visits a root).foldl addNew []
  size : f.arena.size = a.size
  op?_root : ∀ op, a.op? root = some op → f.arena.op? root = some {
    opType := t.fusedType
    inputs := op.inputs
    outputs := t.fusedOutputs op (Walk.opsAt a (t.leaves a root))
    attrs := (t.merge (op :: Walk.opsAt a (t.visits a root))).attrs
    params := (t.merge (op :: Walk.opsAt a (t.visits a root))).params }
  op?_ne : ∀ i, i ≠ root → f.arena.op? i = a.op? i
  inputs : ∀ k, f.arena.inputs k = (a.inputs k).map (Walk.graft a root (t.leaves a root) k)
  outputs_root : f.arena.outputs root = (t.leaves a root).flatMap a.outputs
  outputs_absorbed : ∀ i ∈ f.absorbed, i ≠ root → f.arena.outputs i = a.outputs i
  outputs_outside : ∀ i, ¬ Walk.IsInside root f.absorbed i → f.arena.outputs i
    = (a.outputs i).filter fun k => !(f.absorbed.contains k && (f.arena.inputs k).contains i)

namespace Collapsed

variable {t : Template} {a : Arena} {root : Nat} {f : Fused}

theorem mem_absorbed (h : Collapsed t a root f) {m : Nat} :
    m ∈ f.absorbed ↔ m ∈ t.visits a root := by
  rw [h.absorbed, mem_foldl_addNew]
  simp

theorem absorbed_eq (h : Collapsed t a root f) (hnodup : (t.visits a root).Nodup) :
    f.absorbed = t.visits a root := by
  rw [h.absorbed, foldl_addNew_eq (by simpa using hnodup), List.nil_append]

end Collapsed

/-- At the end of the walk, the fused operator is put in the place of the root. -/
theorem Walk.Ends.collapsed {t : Template} {a : Arena} {root : Nat} {op : Op} {w : Walk}
    (h : Ends t a root op w) (hop : a.op? root = some op) :
    Collapsed t a root ⟨t.put w.gathered root w.arena, w.absorbed⟩ where
  absorbed := h.absorbed
  size := by simp [Template.put, h.size]
  op?_root := fun op' hop' => by
    rw [hop] at hop'
    cases hop'
    rw [Template.put, Arena.op?_mapOp_self, h.op?_root, h.gathered]
    rfl
  op?_ne := fun i hi => by rw [Template.put, Arena.op?_mapOp_ne hi, h.op?_ne i hi]
  inputs := fun k => by rw [Template.put, Arena.inputs_mapOp, h.inputs]
  outputs_root := by rw [Template.put, Arena.outputs_mapOp, h.outputs_root]
  outputs_absorbed := fun i hi hne => by
    rw [Template.put, Arena.outputs_mapOp, h.outputs_absorbed i hi hne]
  outputs_outside := fun i hi => by
    rw [Template.put, Arena.outputs_mapOp, h.outputs_outside i hi]
    refine List.filter_congr fun k _ => ?_
    rw [Arena.inputs_mapOp]

/-- A fusion that comes to an end has collapsed what it has visited, as long as it does not come
back to its root. -/
theorem Template.collapsed_of_fuse {t : Template} {a : Arena} {root : Nat} {f : Fused}
    (h : t.fuse a root = .ok f) (hnot : root ∉ t.visits a root) : Collapsed t a root f := by
  unfold fuse at h
  split at h
  · cases h
  next node hnode =>
    have hop : a.op? root = some node.op := by simp [Arena.op?, hnode]
    simp only [bind_eq_ok, before_eq_ok] at h
    obtain ⟨g, htake, h⟩ := h
    rw [Gathered.eq_of_take htake] at h
    cases hleaf : t.root.isLeaf with
    | true =>
      simp only [hleaf, if_true, pure_bind, pure_eq_ok] at h
      subst h
      exact (Walk.ends_of_isLeaf hleaf hop).collapsed hop
    | false =>
      simp only [hleaf, Bool.false_eq_true, if_false, bind_eq_ok, pure_eq_ok] at h
      obtain ⟨w, hwalk, rfl⟩ := h
      exact (Walk.ends_of_descend hleaf hop hnot hwalk).collapsed hop

end TensorFusion
