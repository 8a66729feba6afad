import Mathlib.Data.List.Basic
import TensorFusion.Graph.Build
import TensorFusion.Graph.Fuse
import TensorFusion.Graph.Match
import TensorFusion.Proofs.Results
import TensorFusion.Proofs.Table

/-!
# Proofs — Graph — Relabel

Other names for the tensors of a program. Names are compared and looked up, and nothing else is done
with them, so what is made of a graph is made of it under other names as well: the same edges are
drawn, the same templates match, and a fusion joins the renamed slots into the renamed slots of the
fused operator. Errors come at the same places.
-/

namespace TensorFusion

/-- Other names, told apart just where the old ones are, and keys just where these are. -/
structure Value.IsRelabeling (f : Value → Value) : Prop where
  same : ∀ v w, (f v).same (f w) = v.same w
  isKey : ∀ v, (f v).atom?.isSome = v.atom?.isSome

/-- Other names for all that are texts. -/
def Value.onTexts (f : String → String) : Value → Value
  | .text s => .text (f s)
  | v => v

/-! ## Programs and graphs under other names -/

def Slots.relabel (f : Value → Value) (slots : Slots) : Slots := slots.mapValues (List.map f)

/-- Other names in all slots; the type, the keys and the attributes stay. -/
def Op.relabel (f : Value → Value) (op : Op) : Op :=
  { op with
    inputs := Slots.relabel f op.inputs
    outputs := Slots.relabel f op.outputs
    params := Slots.relabel f op.params }

/-- Other names in all operators; what is declared stays. -/
def Block.relabel (f : Value → Value) (block : Block) : Block :=
  { block with ops := block.ops.map (Op.relabel f) }

def Program.relabel (f : Value → Value) (p : Program) : Program :=
  { blocks := p.blocks.map (Block.relabel f) }

def Node.relabel (f : Value → Value) (node : Node) : Node := { node with op := node.op.relabel f }

def Arena.relabel (f : Value → Value) (a : Arena) : Arena := ⟨a.nodes.map (Node.relabel f)⟩

def Graph.relabel (f : Value → Value) (g : Graph) : Graph :=
  { g with arena := g.arena.relabel f }

def Gathered.relabel (f : Value → Value) (g : Gathered) : Gathered :=
  { g with params := Slots.relabel f g.params }

def Walk.relabel (f : Value → Value) (w : Walk) : Walk :=
  { w with arena := w.arena.relabel f, gathered := w.gathered.relabel f }

def Fused.relabel (f : Value → Value) (made : Fused) : Fused :=
  { made with arena := made.arena.relabel f }

section Relabel

variable {f : Value → Value}

/-! ## Names -/

namespace Value

theorem IsRelabeling.exists_atom (hf : IsRelabeling f) (a : Atom) : ∃ b, f (.atom a) = .atom b := by
  have hkey := hf.isKey (.atom a)
  cases hfa : f (.atom a) with
  | atom b => exact ⟨b, rfl⟩
  | list items =>
    rw [hfa] at hkey
    cases hkey
  | map entries =>
    rw [hfa] at hkey
    cases hkey

theorem IsRelabeling.atom?_eq_none (hf : IsRelabeling f) {v : Value} (h : v.atom? = none) :
    (f v).atom? = none := by
  have hkey := hf.isKey v
  rw [h] at hkey
  exact Option.isSome_eq_false_iff.mp hkey |> Option.isNone_iff_eq_none.mp

end Value

theorem any_same_map (hf : Value.IsRelabeling f) (names : List Value) (name : Value) :
    (names.map f).any (·.same (f name)) = names.any (·.same name) := by
  simp only [List.any_map, Function.comp_def, hf.same]

/-- New names are new under other names. -/
theorem appendNew_map (hf : Value.IsRelabeling f) (names more : List Value) :
    appendNew (names.map f) (more.map f) = (appendNew names more).map f := by
  unfold appendNew
  rw [List.foldl_map]
  refine List.foldl_hom (List.map f) fun names name => ?_
  rw [any_same_map hf]
  by_cases h : names.any (·.same name) = true
  · rw [if_pos h, if_pos h]
  · rw [if_neg h, if_neg h, List.map_append, List.map_singleton]

/-! ## Slots -/

namespace Slots

theorem get?_relabel (slots : Slots) (slot : Atom) :
    Table.get? (slots.relabel f) slot = (Table.get? slots slot).map (List.map f) :=
  Table.get?_mapValues ..

theorem select_relabel (slots : Slots) (declared : List Atom) :
    select (slots.relabel f) declared = (select slots declared).map f := by
  simp only [select, List.map_flatMap]
  refine List.flatMap_congr fun slot _ => ?_
  rw [get?_relabel]
  cases Table.get? slots slot <;> rfl

/-- Slots are joined under other names as they are under the old ones. -/
theorem join_relabel (hf : Value.IsRelabeling f) (slots more : Slots) :
    join (slots.relabel f) (more.relabel f) = (join slots more).relabel f := by
  show (more.entries.map fun e => (e.1, e.2.map f)).foldl _ _ = _
  rw [List.foldl_map]
  refine List.foldl_hom (relabel f) fun slots e => ?_
  have hold : ((Table.get? slots e.1).map (List.map f)).getD []
      = ((Table.get? slots e.1).getD []).map f := by
    cases Table.get? slots e.1 <;> rfl
  rw [get?_relabel, hold, appendNew_map hf]
  exact (Table.mapValues_insert ..).symm

end Slots

namespace Gathered

theorem add_relabel (pairs : Renaming) (g : Gathered) (op : Op) :
    (g.relabel f).add pairs (op.relabel f) = (g.add pairs op).relabel f := by
  have hparams : (op.params.entries.map fun e => (e.1, e.2.map f)).foldl
        (fun table e => table.insert (Template.renameIn pairs e.1) e.2) (g.params.relabel f)
      = Slots.relabel f (op.params.entries.foldl
        (fun table e => table.insert (Template.renameIn pairs e.1) e.2) g.params) := by
    rw [List.foldl_map]
    exact List.foldl_hom (Slots.relabel f) fun slots e => (Table.mapValues_insert ..).symm
  show Gathered.mk _ _ = Gathered.mk _ _
  exact congrArg _ hparams

theorem take_relabel (t : Template) (g : Gathered) (op : Op) :
    Alike Eq (fun g g' => g' = g.relabel f) (g.take t op)
      ((g.relabel f).take t (op.relabel f)) := by
  have hempty : ((op.relabel f).attrs.entries.isEmpty && (op.relabel f).params.entries.isEmpty)
      = (op.attrs.entries.isEmpty && op.params.entries.isEmpty) := by
    show (_ && (op.params.entries.map _).isEmpty) = _
    rw [List.isEmpty_map]
    rfl
  unfold take
  rw [hempty]
  split
  · exact .ok rfl
  · refine (Alike.refl (t.renamesFor op.opType)).bind ?_
    rintro pairs _ rfl
    exact .ok (add_relabel pairs g op)

end Gathered

/-! ## Arenas -/

namespace Arena

variable (a : Arena) (i : Nat)

@[simp] theorem size_relabel : (a.relabel f).size = a.size := by
  simp [relabel, size]

theorem node?_relabel : (a.relabel f).node? i = (a.node? i).map (Node.relabel f) := by
  simp [relabel, node?]

@[simp] theorem outputs_relabel : (a.relabel f).outputs i = a.outputs i := by
  rw [outputs, node?_relabel, Option.map_map]
  rfl

@[simp] theorem inputs_relabel : (a.relabel f).inputs i = a.inputs i := by
  rw [inputs, node?_relabel, Option.map_map]
  rfl

/-- A node is changed under other names as it is under the old ones. -/
theorem update_relabel {change change' : Node → Node}
    (h : ∀ node, change' (node.relabel f) = (change node).relabel f) :
    (a.relabel f).update i change' = (a.update i change).relabel f := by
  refine congrArg Arena.mk (List.ext_getElem? fun k => ?_)
  show ((a.nodes.map (Node.relabel f)).modify i change')[k]?
    = ((a.nodes.modify i change).map (Node.relabel f))[k]?
  rw [List.getElem?_modify, List.getElem?_map, List.getElem?_map, List.getElem?_modify]
  by_cases hk : i = k
  · cases a.nodes[k]? <;> simp [hk, h]
  · cases a.nodes[k]? <;> simp [hk]

theorem add_relabel (op : Op) : (a.relabel f).add (op.relabel f) = (a.add op).relabel f := by
  simp only [relabel, add, List.map_append]
  rfl

theorem link_relabel (producer consumer : Nat) :
    (a.relabel f).link producer consumer = (a.link producer consumer).relabel f := by
  have hproducer : (a.relabel f).addOutput producer consumer
      = (a.addOutput producer consumer).relabel f := a.update_relabel producer fun _ => rfl
  rw [link, hproducer]
  exact update_relabel _ consumer fun _ => rfl

end Arena

/-! ## Building -/

namespace Wiring

theorem read_of_not_atom {v : Value} (h : v.atom? = none) (index : Nat) (w : Wiring) :
    w.read index v = .error .wrongKind := by
  cases v with
  | atom a => cases h
  | list items => rfl
  | map entries => rfl

theorem write_of_not_atom {v : Value} (h : v.atom? = none) (index : Nat) (w : Wiring) :
    w.write index v = .error .wrongKind := by
  cases v with
  | atom a => cases h
  | list items => rfl
  | map entries => rfl

/-- Two graphs under construction, the second under other names. -/
structure Relabeled (f : Value → Value) (w w' : Wiring) : Prop where
  graph : w'.graph = w.graph.relabel f
  writers : ∀ a b, f (.atom a) = .atom b → w'.writers.get? b = w.writers.get? a

variable {w w' : Wiring}

theorem Relabeled.size (h : Relabeled f w w') : w'.graph.arena.size = w.graph.arena.size := by
  rw [h.graph]
  exact Arena.size_relabel _

/-- A name is read by the same node, from the same writer. -/
theorem Relabeled.read (hf : Value.IsRelabeling f) (h : Relabeled f w w') (index : Nat)
    (name : Value) : Alike Eq (Relabeled f) (w.read index name) (w'.read index (f name)) := by
  cases name with
  | atom a =>
    obtain ⟨b, hb⟩ := hf.exists_atom a
    simp only [hb, Wiring.read, h.writers a b hb]
    cases w.writers.get? a with
    | none => exact .ok h
    | some writer =>
      refine .ok ⟨?_, h.writers⟩
      rw [h.graph]
      exact congrArg (Graph.mk · _) (Arena.link_relabel _ writer index)
  | list items =>
    rw [read_of_not_atom rfl, read_of_not_atom (hf.atom?_eq_none rfl)]
    exact .error rfl
  | map entries =>
    rw [read_of_not_atom rfl, read_of_not_atom (hf.atom?_eq_none rfl)]
    exact .error rfl

theorem Relabeled.write (hf : Value.IsRelabeling f) (h : Relabeled f w w') (index : Nat)
    (name : Value) : Alike Eq (Relabeled f) (w.write index name) (w'.write index (f name)) := by
  cases name with
  | atom a =>
    obtain ⟨b, hb⟩ := hf.exists_atom a
    simp only [hb, Wiring.write]
    refine .ok ⟨h.graph, fun c d hd => ?_⟩
    have hsame : b.same d = a.same c := by
      have := hf.same (.atom a) (.atom c)
      rwa [hb, hd, Value.same_atom, Value.same_atom] at this
    rw [Table.get?_insert, Table.get?_insert, hsame, h.writers c d hd]
  | list items =>
    rw [write_of_not_atom rfl, write_of_not_atom (hf.atom?_eq_none rfl)]
    exact .error rfl
  | map entries =>
    rw [write_of_not_atom rfl, write_of_not_atom (hf.atom?_eq_none rfl)]
    exact .error rfl

theorem Relabeled.group (h : Relabeled f w w') (index : Nat) (opType : Value) :
    Alike Eq (Relabeled f) (w.group index opType) (w'.group index opType) := by
  cases opType with
  | atom a =>
    refine .ok ⟨?_, h.writers⟩
    rw [h.graph]
    rfl
  | list items => exact .error rfl
  | map entries => exact .error rfl

/-- An operator takes its place under other names as it does under the old ones. -/
theorem Relabeled.place (hf : Value.IsRelabeling f) (h : Relabeled f w w') (op : Op)
    (slots : SlotKeys) :
    Alike Eq (Relabeled f) (w.place (op, slots)) (w'.place (op.relabel f, slots)) := by
  have hadd : Relabeled f { w with graph.arena := w.graph.arena.add op }
      { w' with graph.arena := w'.graph.arena.add (op.relabel f) } := by
    refine ⟨?_, h.writers⟩
    rw [h.graph]
    exact congrArg (Graph.mk · _) (Arena.add_relabel _ op)
  have hreads : Slots.select (op.relabel f).inputs slots.inputs
      = (Slots.select op.inputs slots.inputs).map f := Slots.select_relabel _ _
  have hwrites : Slots.select (op.relabel f).outputs slots.outputs
      = (Slots.select op.outputs slots.outputs).map f := Slots.select_relabel _ _
  simp only [Wiring.place, hreads, hwrites, h.size]
  refine (Alike.foldlM hadd fun name _ w w' h => h.read hf _ name).bind fun w w' h => ?_
  refine (Alike.foldlM h fun name _ w w' h => h.write hf _ name).bind fun w w' h => ?_
  exact h.group _ op.opType

end Wiring

namespace Graph

/-- The graph of operators under other names is their graph under other names. -/
theorem build_relabel (hf : Value.IsRelabeling f) (r : Registry) (ops : List Op) :
    Alike Eq (fun g g' => g' = g.relabel f) (build r ops)
      (build r (ops.map (Op.relabel f))) := by
  have hlookup : (ops.map (Op.relabel f)).mapM (fun op => r.lookup op.opType)
      = ops.mapM fun op => r.lookup op.opType := List.mapM_map ..
  unfold build
  rw [hlookup]
  refine (Alike.refl _).bind ?_
  rintro signatures _ rfl
  refine (Alike.refl _).bind ?_
  rintro slots _ rfl
  rw [List.zip_map_left]
  have hstart : Wiring.Relabeled f {} {} := ⟨rfl, fun _ _ _ => rfl⟩
  refine (Alike.foldlM hstart ?_).bind ?_
  · intro entry _ w w' h
    exact h.place hf entry.1 entry.2
  · intro w w' h
    exact .ok h.graph

@[simp] theorem candidates_relabel (g : Graph) (opType : Value) :
    (g.relabel f).candidates opType = g.candidates opType := by
  cases opType <;> rfl

end Graph

/-! ## Matching -/

/-- The same trees of types grow under other names. -/
theorem Arena.typesBelow_relabel (a : Arena) (levels i : Nat) :
    (a.relabel f).typesBelow levels i = a.typesBelow levels i := by
  induction levels generalizing i with
  | zero =>
    simp only [typesBelow, node, node?_relabel]
    cases a.node? i <;> rfl
  | succ levels ih =>
    simp only [typesBelow, node, node?_relabel]
    cases a.node? i with
    | none => rfl
    | some node =>
      have hbelow : (node.relabel f).outputs.mapM ((a.relabel f).typesBelow levels)
          = node.outputs.mapM (a.typesBelow levels) := mapM_congr fun k _ => ih k
      simp only [Option.map_some, ok_bind, hbelow]
      rfl

theorem Template.examine_relabel (t : Template) (a : Arena) (i : Nat) :
    t.examine (a.relabel f) i = t.examine a i := by
  simp only [examine, Arena.typeTree, Arena.typesBelow_relabel, Arena.node, Arena.node?_relabel]
  cases a.node? i <;> rfl

/-! ## Fusing -/

namespace Walk

/-- What comes of a walk under other names. -/
abbrev Stops (f : Value → Value) : Interrupted Arena → Interrupted Arena → Prop :=
  Interrupted.Alike fun a a' => a' = a.relabel f

/-- Walks that go alike, the second under other names. -/
abbrev Follows (f : Value → Value) :
    Except (Interrupted Arena) Walk → Except (Interrupted Arena) Walk → Prop :=
  Alike (Stops f) fun w w' => w' = w.relabel f

variable (w : Walk) (t : Template) (root index : Nat)

theorem visit_relabel (op : Op) : Alike Eq (fun w w' => w' = w.relabel f) (w.visit t index op)
    ((w.relabel f).visit t index (op.relabel f)) := by
  refine (w.gathered.take_relabel t op).bind ?_
  rintro g _ rfl
  exact .ok rfl

theorem relink_relabel (a : Arena) (consumer : Nat) :
    Alike (Stops f) (fun a a' => a' = a.relabel f) (relink root index a consumer)
      (relink root index (a.relabel f) consumer) := by
  unfold relink
  rw [Arena.size_relabel]
  split
  · exact .ok (a.update_relabel consumer fun _ => rfl)
  · exact .error ⟨rfl, rfl⟩

/-- A node hands over the same consumers, and its slots under other names. -/
theorem handOver_relabel (hf : Value.IsRelabeling f) :
    Follows f (handOver root index w) (handOver root index (w.relabel f)) := by
  have hmoved : (w.relabel f).arena.outputs index = w.arena.outputs index :=
    Arena.outputs_relabel ..
  have hstart : (w.relabel f).arena.update root
        (fun node => { node with outputs := node.outputs ++ w.arena.outputs index })
      = (w.arena.update root
        fun node => { node with outputs := node.outputs ++ w.arena.outputs index }).relabel f :=
    Arena.update_relabel _ root fun _ => rfl
  have hloop : Alike (Stops f) (fun a a' => a' = a.relabel f)
      ((w.arena.outputs index).eraseDups.foldlM (relink root index) (w.arena.update root
        fun node => { node with outputs := node.outputs ++ w.arena.outputs index }))
      ((w.arena.outputs index).eraseDups.foldlM (relink root index)
        ((w.relabel f).arena.update root
          fun node => { node with outputs := node.outputs ++ w.arena.outputs index })) := by
    apply Alike.foldlM_same
    · exact hstart
    · rintro consumer - a _ rfl
      exact relink_relabel root index a consumer
  unfold handOver
  rw [hmoved]
  apply hloop.bind
  rintro a _ rfl
  have hslots : (((a.relabel f).node? index).map (·.op.outputs)).getD {}
      = Slots.relabel f (((a.node? index).map (·.op.outputs)).getD {}) := by
    rw [Arena.node?_relabel]
    cases a.node? index <;> rfl
  apply Alike.ok
  show Walk.mk _ _ _ = Walk.mk _ _ _
  congr 1
  apply Arena.update_relabel
  intro node
  have hjoin := Slots.join_relabel hf node.op.outputs
    (((a.node? index).map (·.op.outputs)).getD {})
  simp only [hslots, Node.relabel, Op.relabel, hjoin]

mutual

/-- A walk pairs the same nodes under other names. -/
theorem absorb_relabel (hf : Value.IsRelabeling f) (t : Template) (root : Nat) :
    ∀ (p : Pattern) (index : Nat) (w : Walk),
      Follows f (absorb t root p index w) (absorb t root p index (w.relabel f))
  | .node opType children, index, w => by
    have hnode : (w.relabel f).arena.node? index = (w.arena.node? index).map (Node.relabel f) :=
      Arena.node?_relabel ..
    rw [absorb, absorb, hnode]
    cases w.arena.node? index with
    | none => exact .error ⟨rfl, rfl⟩
    | some node =>
      have hvisit : Follows f
          (Interrupted.before w.arena (w.visit t index node.op))
          (Interrupted.before (w.relabel f).arena
            ((w.relabel f).visit t index (node.op.relabel f))) :=
        (w.visit_relabel t index node.op).before rfl
      apply hvisit.bind
      rintro w _ rfl
      split
      · exact w.handOver_relabel root index hf
      · exact absorbOutputs_relabel hf t root children index 0 w

theorem absorbOutputs_relabel (hf : Value.IsRelabeling f) (t : Template) (root : Nat) :
    ∀ (ps : List Pattern) (index position : Nat) (w : Walk),
      Follows f (absorbOutputs t root ps index position w)
        (absorbOutputs t root ps index position (w.relabel f))
  | [], _, _, _ => .ok rfl
  | child :: rest, index, position, w => by
    have houtputs : (w.relabel f).arena.outputs index = w.arena.outputs index :=
      Arena.outputs_relabel ..
    rw [absorbOutputs, absorbOutputs, houtputs]
    cases (w.arena.outputs index)[position]? with
    | none => exact .ok rfl
    | some consumer =>
      refine (absorb_relabel hf t root child consumer w).bind ?_
      rintro w _ rfl
      exact absorbOutputs_relabel hf t root rest index (position + 1) w

end

theorem detach_relabel (absorbed : List Nat) (a : Arena) :
    detach root absorbed (a.relabel f) = (detach root absorbed a).relabel f := by
  refine List.foldl_hom (Arena.relabel f) fun a index => ?_
  unfold detachOne
  rw [Arena.inputs_relabel]
  refine List.foldl_hom (Arena.relabel f) fun a producer => ?_
  split
  · rfl
  · exact a.update_relabel producer fun _ => rfl

theorem descend_relabel (hf : Value.IsRelabeling f) :
    Follows f (w.descend t root) ((w.relabel f).descend t root) := by
  have hconsumers : (w.relabel f).arena.outputs root = w.arena.outputs root :=
    Arena.outputs_relabel ..
  have hstart : (w.relabel f).arena.update root
        (fun node => { node with outputs := [], op.outputs := {} })
      = (w.arena.update root
        fun node => { node with outputs := [], op.outputs := {} }).relabel f :=
    Arena.update_relabel _ root fun _ => rfl
  have hpairs : Follows f
      (absorbPairs t root ((w.arena.outputs root).zip t.root.children) { w with
        arena := w.arena.update root
          fun node => { node with outputs := [], op.outputs := {} } })
      (absorbPairs t root ((w.arena.outputs root).zip t.root.children) { w.relabel f with
        arena := (w.relabel f).arena.update root
          fun node => { node with outputs := [], op.outputs := {} } }) := by
    apply Alike.foldlM_same
    · rw [hstart]
      rfl
    · rintro pair - w _ rfl
      exact absorb_relabel hf t root pair.2 pair.1 w
  unfold descend
  rw [hconsumers]
  apply hpairs.bind
  rintro w _ rfl
  exact .ok (congrArg (Walk.mk · _ _) (detach_relabel root w.absorbed w.arena))

end Walk

/-- A fusion under other names is the fusion under other names. -/
theorem Template.fuse_relabel (hf : Value.IsRelabeling f) (t : Template) (a : Arena) (root : Nat) :
    Alike (Walk.Stops f) (fun made made' => made' = made.relabel f) (t.fuse a root)
      (t.fuse (a.relabel f) root) := by
  unfold fuse
  rw [Arena.node?_relabel]
  cases a.node? root with
  | none => exact .error ⟨rfl, rfl⟩
  | some node =>
    have htake : Alike (Walk.Stops f) (fun g g' => g' = g.relabel f)
        (Interrupted.before a (Gathered.take t {} node.op))
        (Interrupted.before (a.relabel f) (Gathered.take t {} (node.op.relabel f))) :=
      (Gathered.take_relabel t {} node.op).before rfl
    apply htake.bind
    rintro g _ rfl
    have hdone (w : Walk) : Fused.mk ((w.relabel f).arena.update root fun node =>
          { node with op.attrs := (w.relabel f).gathered.attrs,
                      op.params := (w.relabel f).gathered.params, op.opType := t.fusedType })
          w.absorbed
        = Fused.relabel f (Fused.mk (w.arena.update root fun node =>
          { node with op.attrs := w.gathered.attrs, op.params := w.gathered.params,
                      op.opType := t.fusedType }) w.absorbed) :=
      congrArg (Fused.mk · _) (w.arena.update_relabel root fun _ => rfl)
    by_cases hleaf : t.root.isLeaf = true
    · simp only [hleaf, if_true]
      exact .ok (hdone { arena := a, gathered := g })
    · simp only [hleaf]
      apply (Walk.descend_relabel { arena := a, gathered := g } t root hf).bind
      rintro w _ rfl
      exact .ok (hdone w)

end Relabel

end TensorFusion
