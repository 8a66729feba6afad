import Mathlib.Logic.Relation
import TensorFusion.Graph.Arena

/-!
# Proofs — Graph — Edges

An arena seen through its three columns: the operators, the consumers and the producers. A change
of one node is a change of one place in a column, and a change that spares a column leaves it as it
was.
-/

namespace TensorFusion.Arena

variable {a : Arena} {r i : Nat}

/-- The operator at a position; none outside of the arena. -/
def op? (a : Arena) (i : Nat) : Option Op := (a.node? i).map (·.op)

theorem node?_eq_none_iff : a.node? i = none ↔ a.size ≤ i := by
  simp [node?, size]

theorem node?_of_lt (h : i < a.size) : ∃ node, a.node? i = some node :=
  ⟨a.nodes[i], List.getElem?_eq_getElem h⟩

theorem lt_size_of_op? {op : Op} (h : a.op? i = some op) : i < a.size := by
  rw [← Nat.not_le, ← node?_eq_none_iff]
  intro hnone
  simp [op?, hnone] at h

theorem op?_of_lt (h : i < a.size) : ∃ op, a.op? i = some op := by
  obtain ⟨node, hnode⟩ := node?_of_lt h
  exact ⟨node.op, by simp [op?, hnode]⟩

theorem op?_eq_none (h : a.size ≤ i) : a.op? i = none := by
  simp [op?, node?_eq_none_iff.mpr h]

theorem outputs_eq_nil (h : a.size ≤ i) : a.outputs i = [] := by
  simp [outputs, node?_eq_none_iff.mpr h]

theorem inputs_eq_nil (h : a.size ≤ i) : a.inputs i = [] := by
  simp [inputs, node?_eq_none_iff.mpr h]

theorem lt_size_of_mem_outputs {k : Nat} (h : k ∈ a.outputs i) : i < a.size := by
  refine Nat.lt_of_not_le fun hi => ?_
  simp [outputs_eq_nil hi] at h

theorem lt_size_of_mem_inputs {k : Nat} (h : k ∈ a.inputs i) : i < a.size := by
  refine Nat.lt_of_not_le fun hi => ?_
  simp [inputs_eq_nil hi] at h

/-- A node is made up of its entries in the three columns. -/
theorem node?_of_op? {op : Op} (h : a.op? i = some op) :
    a.node? i = some ⟨op, a.inputs i, a.outputs i⟩ := by
  obtain ⟨node, hnode⟩ := node?_of_lt (lt_size_of_op? h)
  simp only [op?, hnode, Option.map_some, Option.some.injEq] at h
  subst h
  simp [inputs, outputs, hnode]

/-- An arena whose edges lead forward, to nodes that exist, and are entered at both ends. -/
structure WellLinked (a : Arena) : Prop where
  forward : ∀ i, ∀ k ∈ a.outputs i, i < k
  range : ∀ i, ∀ k ∈ a.outputs i, k < a.size
  mirrored : ∀ i k, (a.outputs i).count k = (a.inputs k).count i

theorem WellLinked.mem_iff {a : Arena} (h : a.WellLinked) {i k : Nat} :
    k ∈ a.outputs i ↔ i ∈ a.inputs k := by
  rw [← List.count_pos_iff, ← List.count_pos_iff, h.mirrored]

/-- Where edges lead forward, no path leads back to where it begins. -/
theorem acyclic_of_forward {a : Arena} (h : ∀ i, ∀ k ∈ a.outputs i, i < k) (i : Nat) :
    ¬ Relation.TransGen (fun i k => k ∈ a.outputs i) i i := by
  intro hcycle
  have hforward {k : Nat} (hpath : Relation.TransGen (fun i k => k ∈ a.outputs i) i k) :
      i < k := by
    induction hpath with
    | single hk => exact h i _ hk
    | tail _ hk ih => exact Nat.lt_trans ih (h _ _ hk)
  exact Nat.lt_irrefl i (hforward hcycle)

/-! ## Changes -/

/-- Changes the operator of a node. -/
def mapOp (a : Arena) (r : Nat) (g : Op → Op) : Arena :=
  a.update r fun node => { node with op := g node.op }

/-- Changes the producers of a node. -/
def mapInputs (a : Arena) (r : Nat) (g : List Nat → List Nat) : Arena :=
  a.update r fun node => { node with inputs := g node.inputs }

/-- Changes the consumers of a node. -/
def mapOutputs (a : Arena) (r : Nat) (g : List Nat → List Nat) : Arena :=
  a.update r fun node => { node with outputs := g node.outputs }

variable {g : List Nat → List Nat} {change : Op → Op}

@[simp] theorem size_mapOp : (a.mapOp r change).size = a.size := size_update ..

@[simp] theorem size_mapInputs : (a.mapInputs r g).size = a.size := size_update ..

@[simp] theorem size_mapOutputs : (a.mapOutputs r g).size = a.size := size_update ..

theorem node?_mapOp : (a.mapOp r change).node? i = (a.node? i).map fun node =>
    { node with op := if r = i then change node.op else node.op } := by
  rw [mapOp, node?_update]
  by_cases h : r = i <;> cases a.node? i <;> simp [h]

theorem node?_mapInputs : (a.mapInputs r g).node? i = (a.node? i).map fun node =>
    { node with inputs := if r = i then g node.inputs else node.inputs } := by
  rw [mapInputs, node?_update]
  by_cases h : r = i <;> cases a.node? i <;> simp [h]

theorem node?_mapOutputs : (a.mapOutputs r g).node? i = (a.node? i).map fun node =>
    { node with outputs := if r = i then g node.outputs else node.outputs } := by
  rw [mapOutputs, node?_update]
  by_cases h : r = i <;> cases a.node? i <;> simp [h]

@[simp] theorem inputs_mapOp : (a.mapOp r change).inputs i = a.inputs i := by
  simp [inputs, node?_mapOp, Function.comp_def]

@[simp] theorem outputs_mapOp : (a.mapOp r change).outputs i = a.outputs i := by
  simp [outputs, node?_mapOp, Function.comp_def]

@[simp] theorem op?_mapInputs : (a.mapInputs r g).op? i = a.op? i := by
  simp [op?, node?_mapInputs, Function.comp_def]

@[simp] theorem outputs_mapInputs : (a.mapInputs r g).outputs i = a.outputs i := by
  simp [outputs, node?_mapInputs, Function.comp_def]

@[simp] theorem op?_mapOutputs : (a.mapOutputs r g).op? i = a.op? i := by
  simp [op?, node?_mapOutputs, Function.comp_def]

@[simp] theorem inputs_mapOutputs : (a.mapOutputs r g).inputs i = a.inputs i := by
  simp [inputs, node?_mapOutputs, Function.comp_def]

@[simp] theorem op?_mapOp_self : (a.mapOp r change).op? r = (a.op? r).map change := by
  simp [op?, node?_mapOp, Function.comp_def]

theorem op?_mapOp_ne (h : i ≠ r) : (a.mapOp r change).op? i = a.op? i := by
  simp [op?, node?_mapOp, Ne.symm h]

theorem inputs_mapInputs_self (h : r < a.size) : (a.mapInputs r g).inputs r = g (a.inputs r) := by
  obtain ⟨node, hnode⟩ := node?_of_lt h
  simp [inputs, node?_mapInputs, hnode]

theorem inputs_mapInputs_ne (h : i ≠ r) : (a.mapInputs r g).inputs i = a.inputs i := by
  simp [inputs, node?_mapInputs, Ne.symm h]

theorem outputs_mapOutputs_self (h : r < a.size) :
    (a.mapOutputs r g).outputs r = g (a.outputs r) := by
  obtain ⟨node, hnode⟩ := node?_of_lt h
  simp [outputs, node?_mapOutputs, hnode]

theorem outputs_mapOutputs_ne (h : i ≠ r) : (a.mapOutputs r g).outputs i = a.outputs i := by
  simp [outputs, node?_mapOutputs, Ne.symm h]

theorem update_update (change change' : Node → Node) :
    (a.update r change).update r change' = a.update r (change' ∘ change) := by
  simp only [update, Arena.mk.injEq]
  exact List.modify_modify_eq ..

/-! ## Growth -/

theorem node?_add (op : Op) (i : Nat) :
    (a.add op).node? i = if i = a.size then some { op := op } else a.node? i := by
  by_cases h : i = a.size
  · subst h
    simp [add, node?, size]
  · rw [if_neg h]
    rcases Nat.lt_or_gt_of_ne h with hlt | hgt
    · exact List.getElem?_append_left hlt
    · rw [node?_eq_none_iff.mpr (Nat.le_of_lt hgt), node?_eq_none_iff, size_add]
      exact hgt

/-- A node that is added has no edges yet. -/
@[simp] theorem outputs_add (op : Op) (i : Nat) : (a.add op).outputs i = a.outputs i := by
  by_cases hi : i = a.size
  · rw [hi, outputs_eq_nil (Nat.le_refl a.size)]
    simp [outputs, node?_add]
  · simp [outputs, node?_add, hi]

@[simp] theorem inputs_add (op : Op) (i : Nat) : (a.add op).inputs i = a.inputs i := by
  by_cases hi : i = a.size
  · rw [hi, inputs_eq_nil (Nat.le_refl a.size)]
    simp [inputs, node?_add]
  · simp [inputs, node?_add, hi]

theorem node?_link (producer consumer i : Nat) :
    (a.link producer consumer).node? i = (a.node? i).map fun node => { node with
      inputs := node.inputs ++ if i = consumer then [producer] else []
      outputs := node.outputs ++ if i = producer then [consumer] else [] } := by
  simp only [link, addInput, addOutput, node?_update]
  by_cases hc : consumer = i <;> by_cases hp : producer = i <;>
    cases a.node? i <;> simp [hc, hp, eq_comm]

/-- Edges from several producers to one consumer. -/
def linkAll (a : Arena) (producers : List Nat) (consumer : Nat) : Arena :=
  producers.foldl (fun a producer => a.link producer consumer) a

@[simp] theorem size_linkAll (producers : List Nat) (consumer : Nat) :
    (a.linkAll producers consumer).size = a.size := by
  induction producers generalizing a with
  | nil => rfl
  | cons producer producers ih => exact (ih (a := a.link producer consumer)).trans (by simp)

theorem node?_linkAll (producers : List Nat) (consumer i : Nat) :
    (a.linkAll producers consumer).node? i = (a.node? i).map fun node => { node with
      inputs := node.inputs ++ if i = consumer then producers else []
      outputs := node.outputs ++ List.replicate (producers.count i) consumer } := by
  induction producers generalizing a with
  | nil =>
    show a.node? i = _
    cases a.node? i <;> simp
  | cons producer producers ih =>
    have hstep : a.linkAll (producer :: producers) consumer
        = (a.link producer consumer).linkAll producers consumer := rfl
    rw [hstep, ih, node?_link, Option.map_map]
    congr 1
    funext node
    by_cases hp : producer = i
    · by_cases hc : i = consumer <;> simp [hc, hp, List.replicate_succ]
    · rw [List.count_cons_of_ne hp, if_neg (Ne.symm hp)]
      by_cases hc : i = consumer <;> simp [hc]

end TensorFusion.Arena
