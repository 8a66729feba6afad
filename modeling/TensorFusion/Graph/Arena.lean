import TensorFusion.Program.Text

/-!
# Graph — Arena

Operators linked by the tensors they pass on. A node is known by its position in the arena, and its
edges are lists of positions: one edge for each tensor name that a consumer reads.
-/

namespace TensorFusion

/-- An operator with the positions of its producers and of its consumers. -/
structure Node where
  op : Op
  inputs : List Nat := []
  outputs : List Nat := []
  deriving Inhabited

/-- The nodes in program order. -/
structure Arena where
  nodes : List Node := []
  deriving Inhabited

/-- An error in the middle of a change, and what was changed as it was left. -/
structure Interrupted (σ : Type) where
  error : Error
  state : σ

/-- An error that comes before anything is changed further. -/
def Interrupted.before {σ α : Type} (state : σ) (result : Except Error α) :
    Except (Interrupted σ) α :=
  result.mapError fun error => ⟨error, state⟩

namespace Arena

def size (a : Arena) : Nat := a.nodes.length

def node? (a : Arena) (index : Nat) : Option Node := a.nodes[index]?

/-- The node at a position, or the error of a position outside. -/
def node (a : Arena) (index : Nat) : Except Error Node :=
  match a.node? index with
  | some node => .ok node
  | none => .error .outOfRange

/-- The consumers of a node; none outside of the arena. -/
def outputs (a : Arena) (index : Nat) : List Nat := ((a.node? index).map (·.outputs)).getD []

/-- The producers of a node; none outside of the arena. -/
def inputs (a : Arena) (index : Nat) : List Nat := ((a.node? index).map (·.inputs)).getD []

def update (a : Arena) (index : Nat) (change : Node → Node) : Arena :=
  ⟨a.nodes.modify index change⟩

/-- Adds an operator without edges behind the others; its position is the old size. -/
def add (a : Arena) (op : Op) : Arena := ⟨a.nodes ++ [{ op := op }]⟩

def addOutput (a : Arena) (producer consumer : Nat) : Arena :=
  a.update producer fun node => { node with outputs := node.outputs ++ [consumer] }

def addInput (a : Arena) (producer consumer : Nat) : Arena :=
  a.update consumer fun node => { node with inputs := node.inputs ++ [producer] }

def link (a : Arena) (producer consumer : Nat) : Arena :=
  (a.addOutput producer consumer).addInput producer consumer

@[simp] theorem size_update (a : Arena) (index : Nat) (change : Node → Node) :
    (a.update index change).size = a.size := by
  simp [update, size]

@[simp] theorem size_add (a : Arena) (op : Op) : (a.add op).size = a.size + 1 := by
  simp [add, size]

@[simp] theorem size_link (a : Arena) (producer consumer : Nat) :
    (a.link producer consumer).size = a.size := by
  simp [link, addOutput, addInput]

theorem node?_update (a : Arena) (index i : Nat) (change : Node → Node) :
    (a.update index change).node? i
      = if index = i then (a.node? i).map change else a.node? i := by
  simp only [update, node?, List.getElem?_modify]
  by_cases h : index = i <;> simp [h]

/-- An edge between two positions. The producer is written first, so its half of the edge stays
where there is no consumer. -/
def connect (a : Arena) (producer consumer : Nat) : Except (Interrupted Arena) Arena :=
  if producer < a.size then
    if consumer < a.size then .ok (a.link producer consumer)
    else .error ⟨.outOfRange, a.addOutput producer consumer⟩
  else .error ⟨.outOfRange, a⟩

/-- The nodes at all of the given positions exist, or the error of the first that does not. -/
def checkAll (a : Arena) (indices : List Nat) : Except Error (List Nat) :=
  indices.mapM fun index => do
    let _ ← a.node index
    return index

/-- The positions of the consumers of a node, each of which must exist. -/
def successors (a : Arena) (index : Nat) : Except Error (List Nat) := do
  a.checkAll (← a.node index).outputs

/-- The positions of the producers of a node, each of which must exist. -/
def predecessors (a : Arena) (index : Nat) : Except Error (List Nat) := do
  a.checkAll (← a.node index).inputs

end Arena

def Node.describe (node : Node) (index : Nat) : String :=
  "GraphNode(#" ++ toString index ++ " " ++ node.op.opType.plain
    ++ ", in=" ++ Value.bracketed (node.inputs.map toString)
    ++ ", out=" ++ Value.bracketed (node.outputs.map toString) ++ ")"

end TensorFusion
