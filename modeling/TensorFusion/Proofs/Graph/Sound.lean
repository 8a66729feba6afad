import TensorFusion.Proofs.Graph.Build
import TensorFusion.Proofs.Graph.Walk

/-!
# Proofs — Graph — Sound

Arenas in which every fusion comes to an end. Their edges lead forward, to nodes that exist, and the
types of their operators are texts. A fusion keeps all of this, whatever its template looks like and
whatever edges earlier fusions have left behind: the root stands before all that it takes over.
-/

namespace TensorFusion

/-- Whether a value is a text, one with halves of surrogate pairs included. -/
def Value.isString (v : Value) : Bool := (v.atom?.bind Atom.points?).isSome

theorem Value.exists_atom_of_isString {v : Value} (h : v.isString = true) : ∃ a, v = .atom a := by
  cases v with
  | atom a => exact ⟨a, rfl⟩
  | list items => cases h
  | map entries => cases h

/-- A leaf that is named by a text has a text. -/
theorem Pattern.leavesNamed_leaf {v : Value} (h : v.isString = true) :
    (Pattern.leaf v).leavesNamed = true := by
  obtain ⟨a, rfl⟩ := Value.exists_atom_of_isString h
  cases a with
  | text s => rfl
  | brokenText points => rfl
  | null | bool b | int n | real x => cases h

namespace Arena

/-- The edges of an arena lead forward, as both of their ends have it, and to nodes that exist. -/
structure IsForward (a : Arena) : Prop where
  outputs : ∀ i, ∀ k ∈ a.outputs i, i < k
  inputs : ∀ k, ∀ i ∈ a.inputs k, i < k
  range : ∀ i, ∀ k ∈ a.outputs i, k < a.size

theorem WellLinked.isForward {a : Arena} (h : a.WellLinked) : a.IsForward where
  outputs := h.forward
  inputs := fun k i hi => h.forward i k (h.mem_iff.mpr hi)
  range := h.range

/-- The types of all operators of an arena are texts. -/
def IsTyped (a : Arena) : Prop := ∀ i op, a.op? i = some op → op.opType.isString = true

theorem isTyped_iff {a : Arena} :
    a.IsTyped ↔ ∀ node ∈ a.nodes, node.op.opType.isString = true := by
  constructor
  · intro h node hnode
    obtain ⟨i, hi⟩ := List.mem_iff_getElem?.mp hnode
    have hi : a.node? i = some node := hi
    exact h i node.op (by simp [op?, hi])
  · intro h i op hop
    have hnode := node?_of_op? hop
    exact h _ (List.mem_of_getElem? hnode)

instance (a : Arena) : Decidable a.IsTyped := decidable_of_iff' _ isTyped_iff

/-- An arena of forward edges between operators whose types are texts. -/
structure IsSound (a : Arena) : Prop where
  forward : a.IsForward
  typed : a.IsTyped

end Arena

/-- A graph whose arena is sound, and whose candidates are positions in it. -/
structure Graph.IsSound (g : Graph) : Prop where
  arena : g.arena.IsSound
  candidates : ∀ v indices, g.candidates v = .ok indices → ∀ i ∈ indices, i < g.arena.size

/-- The graph of operators whose types are texts is sound. -/
theorem Graph.IsOf.isSound {r : Registry} {ops : List Op} {g : Graph} (h : g.IsOf r ops)
    (hTypes : ∀ op ∈ ops, op.opType.isString = true) : g.IsSound where
  arena := {
    forward := h.wellLinked.isForward
    typed := fun i op hop => by
      rw [h.op?] at hop
      exact hTypes op (List.mem_of_getElem? hop) }
  candidates := fun v indices hindices i hi => by
    cases v with
    | atom a =>
      cases hindices
      rw [h.groups, List.mem_filter, List.mem_range] at hi
      rw [h.size]
      exact hi.1
    | list items => cases hindices
    | map entries => cases hindices

/-! ## What a fusion keeps -/

namespace Template

variable {t : Template} {a : Arena} {root : Nat}

/-- Where edges lead forward, a fusion comes to nodes behind its root. -/
theorem root_lt_of_mem_visits (h : ∀ i, ∀ k ∈ a.outputs i, i < k) :
    ∀ m ∈ t.visits a root, root < m :=
  Arena.mem_pairsBelow_of_closed (fun i hi k hk => Nat.lt_trans hi (h i k hk)) _ (h root)

theorem root_not_mem_visits (h : ∀ i, ∀ k ∈ a.outputs i, i < k) : root ∉ t.visits a root := by
  intro hmem
  have hlt := root_lt_of_mem_visits h root hmem
  omega

theorem root_le_of_mem_leaves (h : ∀ i, ∀ k ∈ a.outputs i, i < k) {i : Nat}
    (hi : i ∈ t.leaves a root) : root ≤ i := by
  rcases mem_of_mem_leaves hi with rfl | hi
  · exact Nat.le_refl i
  · exact Nat.le_of_lt (root_lt_of_mem_visits h i hi)

end Template

namespace Collapsed

variable {t : Template} {a : Arena} {root : Nat} {f : Fused}

/-- A node other than the root gets no new consumer. -/
theorem mem_outputs_of_ne (h : Collapsed t a root f) {i k : Nat} (hi : i ≠ root)
    (hk : k ∈ f.arena.outputs i) : k ∈ a.outputs i := by
  by_cases habsorbed : i ∈ f.absorbed
  · rwa [h.outputs_absorbed i habsorbed hi] at hk
  · rw [h.outputs_outside i (by simp [Walk.IsInside, hi, habsorbed])] at hk
    exact (List.mem_filter.mp hk).1

/-- The root has consumers of leaves. -/
theorem exists_leaf_of_mem_outputs (h : Collapsed t a root f) {k : Nat}
    (hk : k ∈ f.arena.outputs root) : ∃ leaf ∈ t.leaves a root, k ∈ a.outputs leaf := by
  rw [h.outputs_root] at hk
  exact List.mem_flatMap.mp hk

/-- A consumer of a node was one before, of the node or, where the node is the root, of a leaf. -/
theorem exists_of_mem_outputs (h : Collapsed t a root f) {i k : Nat} (hk : k ∈ f.arena.outputs i) :
    ∃ j, k ∈ a.outputs j ∧ (j = i ∨ i = root ∧ j ∈ t.leaves a root) := by
  by_cases hroot : i = root
  · subst hroot
    obtain ⟨leaf, hleaf, hk⟩ := h.exists_leaf_of_mem_outputs hk
    exact ⟨leaf, hk, .inr ⟨rfl, hleaf⟩⟩
  · exact ⟨i, h.mem_outputs_of_ne hroot hk, .inl rfl⟩

/-- An operator other than the root is as it was, and the root has the fused type. -/
theorem op_cases (h : Collapsed t a root f) {i : Nat} {op : Op} (hop : f.arena.op? i = some op) :
    (i ≠ root ∧ a.op? i = some op) ∨ (i = root ∧ op.opType = t.fusedType) := by
  by_cases hi : i = root
  · subst hi
    have hlt : i < a.size := by
      rw [← h.size]
      exact Arena.lt_size_of_op? hop
    obtain ⟨op₀, hop₀⟩ := Arena.op?_of_lt hlt
    rw [h.op?_root op₀ hop₀] at hop
    cases hop
    exact .inr ⟨rfl, rfl⟩
  · rw [h.op?_ne i hi] at hop
    exact .inl ⟨hi, hop⟩

/-- A fusion keeps edges forward. -/
theorem isForward (h : Collapsed t a root f) (ha : a.IsForward) : f.arena.IsForward := by
  refine ⟨fun i k hk => ?_, fun k i hi => ?_, fun i k hk => ?_⟩
  · obtain ⟨j, hj, rfl | ⟨rfl, hleaf⟩⟩ := h.exists_of_mem_outputs hk
    · exact ha.outputs j k hj
    · exact Nat.lt_of_le_of_lt (t.root_le_of_mem_leaves ha.outputs hleaf) (ha.outputs j k hj)
  · rw [h.inputs] at hi
    obtain ⟨j, hj, rfl⟩ := List.mem_map.mp hi
    have hlt := ha.inputs k j hj
    unfold Walk.graft
    split
    next hgraft => exact Nat.lt_of_le_of_lt (t.root_le_of_mem_leaves ha.outputs hgraft.1) hlt
    next => exact hlt
  · obtain ⟨j, hj, -⟩ := h.exists_of_mem_outputs hk
    rw [h.size]
    exact ha.range j k hj

theorem isSound (h : Collapsed t a root f) (ha : a.IsSound) (ht : t.fusedType.isString = true) :
    f.arena.IsSound where
  forward := h.isForward ha.forward
  typed := fun i op hop => by
    rcases h.op_cases hop with ⟨-, hop⟩ | ⟨-, hType⟩
    · exact ha.typed i op hop
    · rwa [hType]

end Collapsed

/-! ## Walks come to an end -/

namespace Walk

variable {t : Template} {root i : Nat} {w w' : Walk}

/-- A walk can go on from a node: consumers exist, and what is come to can be looked up. -/
structure CanGoOn (root : Nat) (w : Walk) : Prop where
  root_lt : root < w.arena.size
  range : ∀ i, ∀ k ∈ w.arena.outputs i, k < w.arena.size
  typed : w.arena.IsTyped

theorem exists_visit (hw : w.CanGoOn root) {op : Op} (hop : w.arena.op? i = some op) :
    ∃ w', w.visit t i op = .ok w' ∧ w'.arena = w.arena := by
  obtain ⟨b, hb⟩ := Value.exists_atom_of_isString (hw.typed i op hop)
  have hvisit : w.visit t i op = .ok { w with
      gathered := w.gathered.addAs t op
      absorbed := if w.absorbed.contains i then w.absorbed else w.absorbed ++ [i] } := by
    rw [visit, Gathered.take_eq hb, ok_bind]
    rfl
  exact ⟨_, hvisit, rfl⟩

/-- A walk can go on once a node has handed over. -/
theorem exists_handOver (hw : w.CanGoOn root) (hi : i < w.arena.size) :
    ∃ w', handOver root i w = .ok w' ∧ w'.CanGoOn root ∧ w'.arena.size = w.arena.size := by
  obtain ⟨b, hb, hover⟩ := handOver_eq i hw.root_lt (hw.range i)
  refine ⟨_, hb, ⟨?_, fun j k hk => ?_, fun j op hop => ?_⟩, hover.size⟩
  · exact hover.size ▸ hw.root_lt
  · show k < b.size
    rw [hover.size]
    by_cases hj : j = root
    · subst hj
      rw [hover.outputs_root, List.mem_append] at hk
      exact hk.elim (hw.range j k) (hw.range i k)
    · rw [hover.outputs_ne j hj] at hk
      exact hw.range j k hk
  · by_cases hj : j = root
    · subst hj
      obtain ⟨op₀, hop₀⟩ := Arena.op?_of_lt hw.root_lt
      obtain ⟨last, hlast⟩ := Arena.op?_of_lt hi
      rw [hover.op?_root op₀ last hop₀ hlast] at hop
      cases hop
      exact hw.typed j op₀ hop₀
    · rw [hover.op?_ne j hj] at hop
      exact hw.typed j op hop

mutual

/-- A walk from a node that exists comes to an end. -/
theorem exists_absorb (t : Template) : ∀ (p : Pattern) {i : Nat} {w : Walk}, w.CanGoOn root →
    i < w.arena.size → ∃ w', absorb t root p i w = .ok w' ∧ w'.CanGoOn root ∧
      w'.arena.size = w.arena.size
  | .node _ children, i, w, hw, hi => by
    obtain ⟨op, hop⟩ := Arena.op?_of_lt hi
    obtain ⟨w₁, hvisit, harena⟩ := exists_visit (t := t) hw hop
    have hw₁ : w₁.CanGoOn root := ⟨harena ▸ hw.root_lt, harena ▸ hw.range, harena ▸ hw.typed⟩
    rw [absorb, Arena.node?_of_op? hop]
    simp only [hvisit, before_ok, ok_bind]
    rw [← harena] at hi ⊢
    split
    · exact exists_handOver hw₁ hi
    · exact exists_absorbOutputs t children i 0 hw₁

/-- A walk along the consumers of a node comes to an end. -/
theorem exists_absorbOutputs (t : Template) : ∀ (ps : List Pattern) (i position : Nat) {w : Walk},
    w.CanGoOn root → ∃ w', absorbOutputs t root ps i position w = .ok w' ∧ w'.CanGoOn root ∧
      w'.arena.size = w.arena.size
  | [], i, position, w, hw => ⟨w, by rw [absorbOutputs], hw, rfl⟩
  | child :: rest, i, position, w, hw => by
    rw [absorbOutputs]
    split
    next => exact ⟨w, rfl, hw, rfl⟩
    next consumer hconsumer =>
      have hrange := hw.range i consumer (List.mem_of_getElem? hconsumer)
      obtain ⟨w₁, hchild, hw₁, hsize⟩ := exists_absorb t child hw hrange
      obtain ⟨w₂, hrest, hw₂, hsize'⟩ := exists_absorbOutputs t rest i (position + 1) hw₁
      exact ⟨w₂, by rw [hchild, ok_bind, hrest], hw₂, hsize'.trans hsize⟩

end

theorem exists_absorbPairs {pairs : List (Nat × Pattern)} (hw : w.CanGoOn root)
    (hpairs : ∀ pair ∈ pairs, pair.1 < w.arena.size) :
    ∃ w', absorbPairs t root pairs w = .ok w' := by
  suffices hloop : ∃ w', absorbPairs t root pairs w = .ok w' ∧ w'.CanGoOn root ∧
      w'.arena.size = w.arena.size from hloop.imp fun _ h => h.1
  refine foldlM_total (motive := fun _ (w' : Walk) => w'.CanGoOn root ∧
    w'.arena.size = w.arena.size) ⟨hw, rfl⟩ fun done pair rest w' hsplit hw' => ?_
  have hlt := hpairs pair (by simp [hsplit])
  obtain ⟨w₁, hfirst, hw₁, hsize⟩ := exists_absorb t pair.2 hw'.1 (hw'.2 ▸ hlt)
  exact ⟨w₁, hfirst, hw₁, hsize.trans hw'.2⟩

end Walk

/-- Where edges end at nodes and types are texts, every template can be fused at every node, also
where it does not match. -/
theorem Template.exists_fuse_of_range (t : Template) {a : Arena} {root : Nat} (hTypes : a.IsTyped)
    (hrange : ∀ i, ∀ k ∈ a.outputs i, k < a.size) (hroot : root < a.size) :
    ∃ f, t.fuse a root = .ok f := by
  obtain ⟨op, hop⟩ := Arena.op?_of_lt hroot
  obtain ⟨b, hb⟩ := Value.exists_atom_of_isString (hTypes root op hop)
  simp only [fuse, Arena.node?_of_op? hop, Gathered.take_eq hb, before_ok, ok_bind]
  split
  next => exact ⟨_, rfl⟩
  next =>
    have hw : Walk.CanGoOn root { arena := a.clear root, gathered := Gathered.addAs t {} op } := by
      refine ⟨by simpa using hroot, fun i k hk => ?_, fun i op' hop' => ?_⟩
      · rw [Arena.size_clear]
        by_cases hi : i = root
        · subst hi
          simp [Arena.outputs_clear_self hroot] at hk
        · rw [Arena.outputs_clear_ne hi] at hk
          exact hrange i k hk
      · by_cases hi : i = root
        · subst hi
          rw [Arena.op?_clear_self, hop] at hop'
          cases hop'
          exact hTypes i op hop
        · rw [Arena.op?_clear_ne hi] at hop'
          exact hTypes i op' hop'
    have hpairs : ∀ pair ∈ (a.outputs root).zip t.root.children, pair.1 < (a.clear root).size := by
      intro pair hpair
      rw [Arena.size_clear]
      exact hrange root pair.1 (List.of_mem_zip hpair).1
    obtain ⟨w, hwalk⟩ := Walk.exists_absorbPairs (t := t) hw hpairs
    simp only [Walk.descend, Arena.clear_eq, hwalk, ok_bind]
    exact ⟨_, rfl⟩

/-- In a sound arena every template can be fused at every node, also where it does not match, and
what is fused is collapsed. -/
theorem Template.exists_fuse (t : Template) {a : Arena} {root : Nat} (ha : a.IsSound)
    (hroot : root < a.size) : ∃ f, t.fuse a root = .ok f ∧ Collapsed t a root f := by
  obtain ⟨f, hf⟩ := t.exists_fuse_of_range ha.typed ha.forward.range hroot
  exact ⟨f, hf, collapsed_of_fuse hf (root_not_mem_visits ha.forward.outputs)⟩

end TensorFusion
