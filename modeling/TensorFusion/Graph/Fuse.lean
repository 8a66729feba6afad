import TensorFusion.Event
import TensorFusion.Graph.Arena
import TensorFusion.Template.Basic

/-!
# Graph — Fuse

Fusing a match into its root. The template is walked from the root down, each of its nodes paired
with a node of the arena. Every paired node hands its attributes and parameters to the root,
renamed, a later one overwriting an earlier; a node paired with a leaf hands over its consumers and
its output slots as well. The paired nodes other than the root are absorbed: they are left out of
the program, and no edge from a node outside leads to them any more.
-/

namespace TensorFusion

/-- The attributes and parameters gathered for a fused operator. -/
structure Gathered where
  attrs : Table Value := {}
  params : Slots := {}
  deriving Inhabited

/-- Adds what an operator has, under the names that a renaming gives. -/
def Gathered.add (pairs : Renaming) (g : Gathered) (op : Op) : Gathered where
  attrs := op.attrs.entries.foldl
    (fun table e => table.insert (Template.renameIn pairs e.1) e.2) g.attrs
  params := op.params.entries.foldl
    (fun table e => table.insert (Template.renameIn pairs e.1) e.2) g.params

/-- Adds what an operator has, under the names that a template gives. An operator that has nothing
is not looked up in the template. -/
def Gathered.take (t : Template) (g : Gathered) (op : Op) : Except Error Gathered :=
  if op.attrs.entries.isEmpty && op.params.entries.isEmpty then .ok g
  else do return g.add (← t.renamesFor op.opType) op

/-- The names with those of a second list that are not yet there, each once. -/
def appendNew (names more : List Value) : List Value :=
  more.foldl (fun names name => if names.any (·.same name) then names else names ++ [name]) names

/-- Slots with the names of other slots joined in, slot by slot. -/
def Slots.join (slots more : Slots) : Slots :=
  more.entries.foldl
    (fun slots e => Table.insert slots e.1 (appendNew ((Table.get? slots e.1).getD []) e.2)) slots

/-- The walk of a fusion: the arena as changed so far, what is gathered, and the nodes absorbed in
the order of the first visit. -/
structure Walk where
  arena : Arena
  gathered : Gathered := {}
  absorbed : List Nat := []
  deriving Inhabited

namespace Walk

/-- Visits a node: it is absorbed and hands over its attributes and parameters. -/
def visit (t : Template) (w : Walk) (index : Nat) (op : Op) : Except Error Walk := do
  return { w with
    gathered := ← w.gathered.take t op
    absorbed := if w.absorbed.contains index then w.absorbed else w.absorbed ++ [index] }

/-- Lets consumers of one node count another as their producer. -/
def relink (root index : Nat) (a : Arena) (consumer : Nat) : Except (Interrupted Arena) Arena :=
  if consumer < a.size then
    .ok (a.update consumer fun node =>
      { node with inputs := node.inputs.map fun i => if i = index then root else i })
  else .error ⟨.outOfRange, a⟩

/-- Hands the consumers and the output slots of a node to the root. -/
def handOver (root index : Nat) (w : Walk) : Except (Interrupted Arena) Walk := do
  let moved := w.arena.outputs index
  let a := w.arena.update root fun node => { node with outputs := node.outputs ++ moved }
  let a ← moved.eraseDups.foldlM (relink root index) a
  let slots := ((a.node? index).map (·.op.outputs)).getD {}
  let a := a.update root fun node => { node with op.outputs := Slots.join node.op.outputs slots }
  return { w with arena := a }

mutual

/-- Pairs a node of the template with a node of the arena, and with it all below. -/
def absorb (t : Template) (root : Nat) : Pattern → Nat → Walk → Except (Interrupted Arena) Walk
  | .node _ children, index, w =>
      match w.arena.node? index with
      | none => .error ⟨.outOfRange, w.arena⟩
      | some node => do
          let w ← Interrupted.before w.arena (w.visit t index node.op)
          if children.isEmpty then handOver root index w
          else absorbOutputs t root children index 0 w

/-- Pairs nodes of the template with the consumers of a node from a position on, as long as there
are both. -/
def absorbOutputs (t : Template) (root : Nat) :
    List Pattern → Nat → Nat → Walk → Except (Interrupted Arena) Walk
  | [], _, _, w => .ok w
  | child :: rest, index, position, w =>
      match (w.arena.outputs index)[position]? with
      | none => .ok w
      | some consumer => do
          let w ← absorb t root child consumer w
          absorbOutputs t root rest index (position + 1) w

end

/-- Pairs nodes of the template with given nodes of the arena. -/
def absorbPairs (t : Template) (root : Nat) (pairs : List (Nat × Pattern)) (w : Walk) :
    Except (Interrupted Arena) Walk :=
  pairs.foldlM (fun w pair => absorb t root pair.2 pair.1 w) w

/-- Takes away the edges that lead from nodes outside to one absorbed node. -/
def detachOne (root : Nat) (absorbed : List Nat) (a : Arena) (index : Nat) : Arena :=
  (a.inputs index).eraseDups.foldl (fun a producer =>
    if producer = root ∨ absorbed.contains producer then a
    else a.update producer fun node =>
      { node with outputs := node.outputs.filter (· ≠ index) }) a

/-- Takes away the edges that lead from nodes outside to absorbed nodes. -/
def detach (root : Nat) (absorbed : List Nat) (a : Arena) : Arena :=
  absorbed.foldl (detachOne root absorbed) a

/-- Starts at the root, whose consumers and outputs are set aside, and walks down. -/
def descend (t : Template) (root : Nat) (w : Walk) : Except (Interrupted Arena) Walk := do
  let consumers := w.arena.outputs root
  let a := w.arena.update root fun node => { node with outputs := [], op.outputs := {} }
  let w ← absorbPairs t root (consumers.zip t.root.children) { w with arena := a }
  return { w with arena := detach root w.absorbed w.arena }

end Walk

/-- A fusion that was made: the arena, and the nodes absorbed. -/
structure Fused where
  arena : Arena
  absorbed : List Nat

/-- What is reported of a fusion, where reports on single nodes are wanted. -/
def Fused.report (wanted : Bool) (index : Nat) (t : Template) (f : Fused) : List Event :=
  if wanted then [.fused index t.fusedType f.absorbed] else []

/-- Fuses what is below a node into it. A template of a single node changes the type and the keys
alone. -/
def Template.fuse (t : Template) (a : Arena) (root : Nat) : Except (Interrupted Arena) Fused :=
  match a.node? root with
  | none => .error ⟨.outOfRange, a⟩
  | some node => do
      let gathered ← Interrupted.before a (Gathered.take t {} node.op)
      let w : Walk := { arena := a, gathered }
      let w ← if t.root.isLeaf then pure w else w.descend t root
      let a := w.arena.update root fun node =>
        { node with op.attrs := w.gathered.attrs, op.params := w.gathered.params,
                    op.opType := t.fusedType }
      return { arena := a, absorbed := w.absorbed }

end TensorFusion
