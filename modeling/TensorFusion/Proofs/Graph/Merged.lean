import Mathlib.Data.Option.Basic
import TensorFusion.Graph.Build
import TensorFusion.Proofs.Graph.Merge
import TensorFusion.Proofs.Graph.Paired

/-!
# Proofs — Graph — Merged

What a fusion makes of the root of a match, whatever the shape of the template. The root takes over
what it is paired with, node by node in preorder: attributes and parameters are written one after
another, each under its new name, and where several leaves have the same slot, the names in it are
strung together. Edges may run in any direction, as long as none of them leads back to the root.
-/

namespace TensorFusion

/-! ## Slots of several operators -/

/-- Names that are added as far as they are new are the first occurrences of names. -/
theorem appendNew_nil_eq (names : List Value) :
    appendNew [] names = names.eraseDupsBy fun new old => old.same new := by
  suffices hloop : ∀ kept : List Value, appendNew kept names
      = List.eraseDupsBy.loop (fun new old => old.same new) names kept.reverse from hloop []
  induction names with
  | nil => exact fun kept => (List.reverse_reverse kept).symm
  | cons name names ih =>
    intro kept
    rw [appendNew_cons, List.eraseDupsBy.loop, List.any_reverse]
    cases kept.any (·.same name) with
    | true => exact ih kept
    | false => simpa using ih (kept ++ [name])

theorem appendNew_append (names more rest : List Value) :
    appendNew names (more ++ rest) = appendNew (appendNew names more) rest :=
  List.foldl_append ..

namespace Slots

/-- The names that some operators put out in a slot, one operator after another. -/
def outputsAt (ops : List Op) (slot : Atom) : List Value :=
  ops.flatMap fun op => (op.outputs.get? slot).getD []

/-- A slot of joined slots has the names of the one and, as far as they are new, of the other. -/
theorem get?_join (slots more : Slots) (slot : Atom) : (slots.join more).get? slot
    = (more.get? slot).elim (slots.get? slot) fun names =>
        some (appendNew ((slots.get? slot).getD []) names) := by
  obtain ⟨entries, hdistinct⟩ := more
  show Table.get? (entries.foldl (fun slots e =>
    Table.insert slots e.1 (appendNew ((Table.get? slots e.1).getD []) e.2)) slots) slot
    = (Table.lookup entries slot).elim _ _
  induction entries generalizing slots with
  | nil => rfl
  | cons e rest ih =>
    obtain ⟨key, names⟩ := e
    obtain ⟨hhead, hrest⟩ := List.nodup_cons.mp hdistinct
    rw [List.foldl_cons, ih _ hrest, Table.get?_insert, Table.lookup]
    by_cases hkey : key.same slot = true
    · have hlater : Table.lookup rest slot = none := by
        refine Table.lookup_eq_none_iff.mpr fun e he => ?_
        rw [← Bool.not_eq_true, Atom.same_iff, ← Atom.same_iff.mp hkey]
        exact fun heq => hhead (List.mem_map.mpr ⟨e, he, heq⟩)
      simp [hkey, hlater, Table.get?_congr slots hkey]
    · simp [hkey]

/-- Where one of several operators has a slot, their joined slots have it, with all names that they
put out in it. -/
theorem get?_foldl_join (slots : Slots) (ops : List Op) (slot : Atom) :
    (ops.foldl (fun slots op => slots.join op.outputs) slots).get? slot
      = if ops.any (·.outputs.contains slot)
        then some (appendNew ((slots.get? slot).getD []) (outputsAt ops slot))
        else slots.get? slot := by
  induction ops generalizing slots with
  | nil => rfl
  | cons op ops ih =>
    have hcontains : op.outputs.contains slot = (op.outputs.get? slot).isSome := rfl
    rw [List.foldl_cons, ih, get?_join, List.any_cons, hcontains, outputsAt, outputsAt,
      List.flatMap_cons]
    cases op.outputs.get? slot with
    | none => simp
    | some names =>
      simp only [Option.elim_some, Option.getD_some, Option.isSome_some, Bool.true_or, if_true,
        appendNew_append]
      split
      next => rfl
      next hnone =>
        -- No later operator has the slot, so no more names come.
        have hnil : ops.flatMap (fun op => (op.outputs.get? slot).getD []) = [] := by
          refine List.flatMap_eq_nil_iff.mpr fun op hop => ?_
          have hop : op.outputs.get? slot = none := by
            simpa [Table.contains] using fun h => hnone (List.any_eq_true.mpr ⟨op, hop, h⟩)
          rw [hop, Option.getD_none]
        rw [hnil]
        rfl

end Slots

/-! ## The law of merging -/

/-- What a fusion at a match makes of its root, which held one operator and holds another. -/
structure Template.Merges (t : Template) (a : Arena) (root : Nat) (nodes leaves : List Nat)
    (op fused : Op) (f : Fused) : Prop where
  /-- The nodes are the ones that those of the template are paired with, in preorder. -/
  nodes_eq : t.root.paths.map (a.placeAlong? root) = nodes.map some
  /-- The leaves are the ones that those of the template are paired with, in preorder. -/
  leaves_eq : t.root.leafPaths.map (a.placeAlong? root) = leaves.map some
  range : ∀ m ∈ nodes, m < a.size
  before : a.op? root = some op
  after : f.arena.op? root = some fused
  opType : fused.opType = t.fusedType
  inputs : fused.inputs = op.inputs
  /-- A key of an operator is renamed for the type that the operator had. -/
  renames : ∀ o ∈ Walk.opsAt a nodes, ∀ key,
    t.renameKey o.opType (.atom key) = .ok (.atom (renameIn (t.renaming o.opType) key))
  /-- All attributes and parameters of the nodes are written in order under their new keys. A later
  one takes the place of an earlier. -/
  attrs : fused.attrs = .ofList (t.attrWrites (Walk.opsAt a nodes))
  params : fused.params = .ofList (t.paramWrites (Walk.opsAt a nodes))
  /-- All nodes but the root are absorbed, each once. -/
  absorbed : ∀ m, m ∈ f.absorbed ↔ m ∈ nodes ∧ m ≠ root
  nodup : f.absorbed.Nodup
  /-- A slot that a leaf puts out has what the leaves put out in it, each name where it first
  occurs. -/
  outputs : t.root.isLeaf = false → ∀ slot, fused.outputs.get? slot =
    if (Walk.opsAt a leaves).any (·.outputs.contains slot)
    then some ((Slots.outputsAt (Walk.opsAt a leaves) slot).eraseDupsBy fun new old => old.same new)
    else none
  outputs_of_isLeaf : t.root.isLeaf = true → fused.outputs = op.outputs
  /-- The consumers of the leaves follow one another. -/
  consumers : f.arena.outputs root = leaves.flatMap a.outputs

theorem nodup_foldl_addNew {xs ys : List Nat} (h : xs.Nodup) : (ys.foldl addNew xs).Nodup := by
  induction ys generalizing xs with
  | nil => exact h
  | cons y ys ih =>
    refine ih ?_
    unfold addNew
    split
    next => exact h
    next hy =>
      rw [List.contains_iff_mem] at hy
      exact List.nodup_append.mpr ⟨h, by simp, by grind⟩

namespace Template

variable {t : Template} {a : Arena} {root : Nat}

/-- A fusion comes to nodes that edges lead to from its root. -/
theorem transGen_of_mem_visits : ∀ m ∈ t.visits a root,
    Relation.TransGen (fun i k => k ∈ a.outputs i) root m :=
  Arena.mem_pairsBelow_of_closed (fun _ hi _ hk => hi.tail hk) _ fun _ hk => .single hk

theorem renameKey_eq {o : Op} {b : Atom} (h : o.opType = .atom b) (key : Atom) :
    t.renameKey o.opType (.atom key) = .ok (.atom (renameIn (t.renaming o.opType) key)) := by
  rw [h]
  rfl

/-- At a match every path of the template leads to a node. -/
theorem exists_placeAlong (hmatch : t.matchesAt a root = .ok true) :
    ∀ path ∈ t.root.paths, ∃ m, a.placeAlong? root path = some m ∧ m < a.size := by
  intro path hpath
  obtain ⟨q, hq⟩ := Pattern.mem_paths_iff.mp hpath
  obtain ⟨m, node, hm, hnode, -⟩ := (matchesAt_iff_fitsAt.mp hmatch).exists_place hq
  have hop : a.op? m = some node.op := by simp [Arena.op?, hnode]
  exact ⟨m, hm, Arena.lt_size_of_op? hop⟩

/-- What is collapsed at a match is merged. -/
theorem merges_of_collapsed {op : Op} {f : Fused} (hmatch : t.matchesAt a root = .ok true)
    (hTypes : a.IsTyped) (hnot : root ∉ t.visits a root) (hop : a.op? root = some op)
    (h : Collapsed t a root f) : ∃ fused,
      t.Merges a root (root :: t.visits a root) (t.leaves a root) op fused f := by
  have hplaces := exists_placeAlong hmatch
  have hleafPlaces : ∀ path ∈ t.root.leafPaths, ∃ m, a.placeAlong? root path = some m :=
    fun path hpath => (hplaces path (List.mem_filter.mp hpath).1).imp fun _ hm => hm.1
  have hnodes : root :: t.visits a root = t.root.paths.filterMap (a.placeAlong? root) := by
    rw [← Arena.nodesOf_pairs_eq, pairs_root]
    rfl
  have hops : Walk.opsAt a (root :: t.visits a root) = op :: Walk.opsAt a (t.visits a root) :=
    List.filterMap_cons_some hop
  obtain ⟨fused, hfused⟩ := Arena.op?_of_lt (h.size ▸ Arena.lt_size_of_op? hop)
  have hafter := h.op?_root op hop
  rw [hfused, Option.some.injEq] at hafter
  exact ⟨fused, {
    nodes_eq := by
      rw [hnodes]
      exact map_eq_map_some_filterMap fun path hpath => (hplaces path hpath).imp fun _ hm => hm.1
    leaves_eq := by
      rw [leaves, Arena.leavesOf_pairs_eq]
      exact map_eq_map_some_filterMap hleafPlaces
    range := fun m hm => by
      rw [hnodes] at hm
      obtain ⟨path, hpath, hm⟩ := List.mem_filterMap.mp hm
      obtain ⟨m', hm', hlt⟩ := hplaces path hpath
      rw [hm] at hm'
      cases hm'
      exact hlt
    before := hop
    after := hfused
    opType := by rw [hafter]
    inputs := by rw [hafter]
    renames := fun o ho key => by
      obtain ⟨m, -, ho⟩ := List.mem_filterMap.mp ho
      obtain ⟨b, hb⟩ := Value.exists_atom_of_isString (hTypes m o ho)
      exact renameKey_eq hb key
    attrs := by rw [hafter, hops, merge_eq]
    params := by rw [hafter, hops, merge_eq]
    absorbed := fun m => by
      rw [h.mem_absorbed, List.mem_cons]
      constructor
      · intro hm
        exact ⟨.inr hm, fun heq => hnot (heq ▸ hm)⟩
      · intro hm
        exact hm.1.resolve_left hm.2
    nodup := by
      rw [h.absorbed]
      exact nodup_foldl_addNew List.nodup_nil
    outputs := fun hinner slot => by
      have hslots := Slots.get?_foldl_join {} (Walk.opsAt a (t.leaves a root)) slot
      rw [Table.get?_empty, Option.getD_none, appendNew_nil_eq] at hslots
      simpa [hafter, fusedOutputs, hinner] using hslots
    outputs_of_isLeaf := fun hleaf => by rw [hafter, fusedOutputs, if_pos hleaf]
    consumers := h.outputs_root }⟩

/-- The law of merging. At a match whose root no path leads back to, a fusion comes to an end, and
it merges what is paired with the template into the root. Nodes may be paired several times, and
keys may come to coincide. -/
theorem exists_merges (t : Template) {a : Arena} {root : Nat} (ha : a.EdgesInRange)
    (hTypes : a.IsTyped) (hmatch : t.matchesAt a root = .ok true)
    (hacyclic : ¬ Relation.TransGen (fun i k => k ∈ a.outputs i) root root) :
    ∃ f, t.fuse a root = .ok f ∧
      ∃ nodes leaves op fused, t.Merges a root nodes leaves op fused f := by
  have hlt := lt_size_of_matchesAt hmatch
  have hnot : root ∉ t.visits a root := fun hmem => hacyclic (transGen_of_mem_visits root hmem)
  obtain ⟨f, hf⟩ := t.exists_fuse_of_range hTypes (Arena.edgesInRange_iff.mp ha) hlt
  obtain ⟨op, hop⟩ := Arena.op?_of_lt hlt
  obtain ⟨fused, hmerges⟩ :=
    merges_of_collapsed hmatch hTypes hnot hop (collapsed_of_fuse hf hnot)
  exact ⟨f, hf, _, _, op, fused, hmerges⟩

end Template

/-- Four operators linked as in a tree of two branches. Both branches end with values for the same
keys. -/
def shallowLater : List Op := [
  .ofTexts "relu" [("X", ["x"])] [("Out", ["a"])],
  .ofTexts "sigmoid" [("X", ["a"])] [("Out", ["b"])],
  { Op.ofTexts "softmax" [("X", ["b"])] [("Out", ["c"])] [("Scale", ["deep"])] with
    attrs := .ofList [(.text "axis", .int 3)] },
  { Op.ofTexts "reshape" [("X", ["a"])] [("Out", ["d"])] [("Scale", ["shallow"])] with
    attrs := .ofList [(.text "axis", .int 2)] }]

/-- The graph of the four, and where the template finds them in it. -/
theorem build_shallowLater : ∃ g, Graph.build .standard shallowLater = .ok g ∧
    g.arena.EdgesInRange ∧ g.arena.IsTyped ∧ branchesTemplate.matchesAt g.arena 0 = .ok true ∧
    Walk.opsAt g.arena [0, 1, 2, 3] = shallowLater ∧
    Walk.opsAt g.arena [2, 3] = shallowLater.drop 2 ∧
    branchesTemplate.root.paths.map (g.arena.placeAlong? 0) = [0, 1, 2, 3].map some ∧
    branchesTemplate.root.leafPaths.map (g.arena.placeAlong? 0) = [2, 3].map some ∧
    g.arena.size = 4 ∧ ∀ i < 4, ∀ k ∈ g.arena.outputs i, i < k :=
  ⟨_, rfl, by decide +kernel, by decide +kernel, eq_ok_of_toOption (by decide +kernel), rfl, rfl,
    by decide +kernel, by decide +kernel, rfl, by decide +kernel⟩

/-- Both branches are merged into the root: it has the later value of each key, and the results of
both. -/
theorem exists_merges_shallowLater : ∃ g, Graph.build .standard shallowLater = .ok g ∧
    g.arena.EdgesInRange ∧ g.arena.IsTyped ∧ branchesTemplate.matchesAt g.arena 0 = .ok true ∧
    ¬ Relation.TransGen (fun i k => k ∈ g.arena.outputs i) 0 0 ∧
    ∃ f, branchesTemplate.fuse g.arena 0 = .ok f ∧
      ∃ nodes leaves op fused, branchesTemplate.Merges g.arena 0 nodes leaves op fused f ∧
        nodes = [0, 1, 2, 3] ∧ leaves = [2, 3] ∧
        fused.attrs.entries = [(.text "axis", .int 2)] ∧
        fused.params.entries = [(.text "Scale", [.text "shallow"])] ∧
        fused.outputs.get? (.text "Out") = some [.text "c", .text "d"] := by
  obtain ⟨g, hg, hrange, hTypes, hmatch, hops, hends, hpaths, hleafPaths, hsize,
    hforward⟩ := build_shallowLater
  have hacyclic : ¬ Relation.TransGen (fun i k => k ∈ g.arena.outputs i) 0 0 := by
    refine Arena.acyclic_of_forward (fun i k hk => ?_) 0
    rcases Nat.lt_or_ge i 4 with hlt | hge
    · exact hforward i hlt k hk
    · simp [Arena.outputs_eq_nil (hsize ▸ hge)] at hk
  obtain ⟨f, hf, nodes, leaves, op, fused, hmerges⟩ :=
    branchesTemplate.exists_merges hrange hTypes hmatch hacyclic
  have hsome : Function.Injective (List.map (some : Nat → Option Nat)) :=
    List.map_injective_iff.mpr (Option.some_injective Nat)
  have hnodes : nodes = [0, 1, 2, 3] := hsome (hmerges.nodes_eq.symm.trans hpaths)
  have hleaves : leaves = [2, 3] := hsome (hmerges.leaves_eq.symm.trans hleafPaths)
  refine ⟨g, hg, hrange, hTypes, hmatch, hacyclic, f, hf, nodes, leaves, op, fused, hmerges,
    hnodes, hleaves, ?_, ?_, ?_⟩
  · rw [hmerges.attrs, hnodes, hops]
    rfl
  · rw [hmerges.params, hnodes, hops]
    rfl
  · have hslot : ((shallowLater.drop 2).any (·.outputs.contains (.text "Out"))) = true := by
      decide +kernel
    have hnames : Slots.outputsAt (shallowLater.drop 2) (.text "Out") = [.text "c", .text "d"] := rfl
    rw [hmerges.outputs rfl, hleaves, hends, if_pos hslot, hnames]
    simp [List.eraseDupsBy, List.eraseDupsBy.loop]

end TensorFusion
