import TensorFusion.Event
import TensorFusion.Graph.Arena
import TensorFusion.Template.Basic

/-!
# Graph — Match

Whether a template matches at a node. The tree of types that grows from the node along its consumers
is cut off at the depth of the template and compared with the template's tree. A node in the middle
must therefore have the right number of consumers, while those at the full depth may have any.
-/

namespace TensorFusion

namespace Arena

/-- The tree of types that grows from a node, down to the given number of levels below it. -/
def typesBelow (a : Arena) : Nat → Nat → Except Error Pattern
  | 0, index => do return .leaf (← a.node index).op.opType
  | levels + 1, index => do
      let node ← a.node index
      return .node node.op.opType (← node.outputs.mapM (a.typesBelow levels))

/-- The tree of types that grows from a node, cut off at a depth; it has at least its root. -/
def typeTree (a : Arena) (depth index : Nat) : Except Error Pattern :=
  a.typesBelow (depth - 1) index

end Arena

/-- What a look at a node says about a template. -/
inductive Verdict where
  /-- The node is not of the type that the template starts at. -/
  | otherType
  /-- The tree of types at the node was compared with the template. -/
  | compared (shadow : Pattern) (agrees : Bool)

namespace Verdict

def isMatch : Verdict → Bool
  | .otherType => false
  | .compared _ agrees => agrees

/-- What is reported of a look, where reports on single nodes are wanted. A report that is heard has
to have a text. -/
def report (wanted heard : Bool) (index : Nat) (t : Template) : Verdict → Except Error (List Event)
  | .otherType => .ok []
  | .compared shadow agrees => do
      if !wanted then return []
      if heard then
        let _ ← shadow.describe?
      return [.compared agrees index t.name shadow]

end Verdict

namespace Template

def examine (t : Template) (a : Arena) (index : Nat) : Except Error Verdict := do
  let node ← a.node index
  if node.op.opType.same t.trigger then
    let shadow ← a.typeTree t.depth index
    return .compared shadow (shadow.same t.root)
  else return .otherType

def matchesAt (t : Template) (a : Arena) (index : Nat) : Except Error Bool := do
  return (← t.examine a index).isMatch

end Template

end TensorFusion
