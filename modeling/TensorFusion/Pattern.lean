import TensorFusion.Error

/-!
# Pattern

Trees of operator types. A template is matched against the tree of types that grows from a node
along its successors, so two trees are compared in everything: types, number of children and their
order.
-/

namespace TensorFusion

/-- An operator type and, in order, the trees of its successors. -/
inductive Pattern where
  | node (opType : Value) (children : List Pattern)
  deriving Inhabited

namespace Pattern

def opType : Pattern → Value
  | .node opType _ => opType

def children : Pattern → List Pattern
  | .node _ children => children

def leaf (opType : Value) : Pattern := .node opType []

/-- Whether a tree has one node only. -/
def isLeaf (p : Pattern) : Bool := p.children.isEmpty

mutual

/-- The number of nodes on the longest path down. -/
def depth : Pattern → Nat
  | .node _ children => 1 + deepest children

def deepest : List Pattern → Nat
  | [] => 0
  | p :: ps => max p.depth (deepest ps)

end

/-- A tree without branches, from a first type and the ones that follow it. -/
def chain (first : Value) : List Value → Pattern
  | [] => leaf first
  | second :: rest => .node first [chain second rest]

/-- A tree without branches, of at least one type. -/
def chain? : List Value → Except Error Pattern
  | [] => .error (.template .emptyChain)
  | first :: rest => .ok (chain first rest)

mutual

/-- Whether two trees agree in types and shape. -/
def same : Pattern → Pattern → Bool
  | .node s ps, .node t qs => s.same t && sameAll ps qs

/-- Whether two lists of trees agree tree by tree. -/
def sameAll : List Pattern → List Pattern → Bool
  | [], [] => true
  | p :: ps, q :: qs => same p q && sameAll ps qs
  | _, _ => false

end

mutual

/-- A tree as text: the root, and its children behind an arrow. -/
def describe : Pattern → String
  | .node opType [] => opType.plain
  | .node opType (p :: ps) =>
      opType.plain ++ " -> (" ++ ", ".intercalate (describe p :: describeAll ps) ++ ")"

def describeAll : List Pattern → List String
  | [] => []
  | p :: ps => describe p :: describeAll ps

end

mutual

def leavesNamed : Pattern → Bool
  | .node (.text _) [] => true
  | .node (.atom (.brokenText _)) [] => true
  | .node _ [] => false
  | .node _ (p :: ps) => leavesNamed p && allLeavesNamed ps

/-- Whether every leaf of several trees is named by a text. -/
def allLeavesNamed : List Pattern → Bool
  | [] => true
  | p :: ps => leavesNamed p && allLeavesNamed ps

end

mutual

def typesAreKeys : Pattern → Bool
  | .node opType children => opType.atom?.isSome && allTypesAreKeys children

def allTypesAreKeys : List Pattern → Bool
  | [] => true
  | p :: ps => typesAreKeys p && allTypesAreKeys ps

end

/-- A tree as text. Leaves stand as they are named, so a tree with a leaf without a name has none. -/
def describe? (p : Pattern) : Except Error String :=
  if p.leavesNamed then .ok p.describe else .error .wrongKind

end Pattern

end TensorFusion
