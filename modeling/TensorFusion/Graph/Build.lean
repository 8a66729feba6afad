import TensorFusion.Graph.Arena
import TensorFusion.Registry

/-!
# Graph — Build

The graph of a block. Operators are taken in program order; each one is linked to the last writer
of every name in its declared input slots, and then becomes the last writer of the names in its
declared output slots. Edges therefore always lead forward.
-/

namespace TensorFusion

/-- The names in some of the slots, slot by slot in the order asked for. -/
def Slots.select (slots : Slots) (declared : List Atom) : List Value :=
  declared.flatMap fun slot => (Table.get? slots slot).getD []

/-- An arena, and the positions of the nodes by the type they were built with. -/
structure Graph where
  arena : Arena := {}
  groups : Table (List Nat) := {}
  deriving Inhabited

/-- A graph under construction, with the last writer of each name. -/
structure Wiring where
  graph : Graph := {}
  writers : Table Nat := {}
  deriving Inhabited

namespace Wiring

/-- Links a reader to the last writer of a name, if there is one. -/
def read (index : Nat) (w : Wiring) : Value → Except Error Wiring
  | .atom name => match w.writers.get? name with
    | some writer => .ok { w with graph.arena := w.graph.arena.link writer index }
    | none => .ok w
  | _ => .error .wrongKind

def write (index : Nat) (w : Wiring) : Value → Except Error Wiring
  | .atom name => .ok { w with writers := w.writers.insert name index }
  | _ => .error .wrongKind

def group (index : Nat) (w : Wiring) : Value → Except Error Wiring
  | .atom opType =>
      let members := (w.graph.groups.get? opType).getD []
      .ok { w with graph.groups := w.graph.groups.insert opType (members ++ [index]) }
  | _ => .error .wrongKind

def place (w : Wiring) (entry : Op × SlotKeys) : Except Error Wiring := do
  let (op, slots) := entry
  let index := w.graph.arena.size
  let w := { w with graph.arena := w.graph.arena.add op }
  let w ← (Slots.select op.inputs slots.inputs).foldlM (read index) w
  let w ← (Slots.select op.outputs slots.outputs).foldlM (write index) w
  w.group index op.opType

end Wiring

namespace Graph

/-- The graph of a list of operators, all of whose types must be registered. -/
def build (r : Registry) (ops : List Op) : Except Error Graph := do
  let signatures ← ops.mapM fun op => r.lookup op.opType
  let slots ← signatures.mapM Signature.slotKeys
  let w ← (ops.zip slots).foldlM Wiring.place {}
  return w.graph

/-- The positions of the nodes that were built with a type. What cannot be a key cannot be asked
for. -/
def candidates (g : Graph) : Value → Except Error (List Nat)
  | .atom opType => .ok ((g.groups.get? opType).getD [])
  | _ => .error .wrongKind

end Graph

end TensorFusion
