import TensorFusion.Pattern
import TensorFusion.Value.Table

/-!
# Template — Basic

Fusion templates: a tree of operator types to look for, the type that replaces it, and how the
attribute and parameter keys of the operators that are taken in are renamed.
-/

namespace TensorFusion

/-- New names of keys, each with the old one before it, all of them texts. The first pair for a key
counts. -/
abbrev Renaming := List (Atom × Atom)

/-- A fusion template. -/
structure Template where
  name : Value
  root : Pattern
  fusedType : Value
  rename : Table Renaming := {}
  deriving Inhabited

namespace Template

def trigger (t : Template) : Value := t.root.opType

/-- The number of nodes on the longest path of the tree. -/
def depth (t : Template) : Nat := t.root.depth

/-- The renaming for operators of a type. What cannot be a key has none that could be asked for. -/
def renamesFor (t : Template) : Value → Except Error Renaming
  | .atom opType => .ok ((t.rename.get? opType).getD [])
  | _ => .error .wrongKind

/-- The new name of a key under a renaming; a key that is not renamed stays. -/
def renameIn (pairs : Renaming) (key : Atom) : Atom :=
  match pairs.find? fun pair => pair.1.same key with
  | some pair => pair.2
  | none => key

/-- The name that a key of an operator of the given type takes in the fused operator. What cannot be
a key is not renamed. -/
def renameKey (t : Template) (opType key : Value) : Except Error Value := do
  let pairs ← t.renamesFor opType
  match key with
  | .atom key => return .atom (renameIn pairs key)
  | v => return v

/-- How many parts a value has that may be taken for a pair. -/
def partCount? : Value → Option Nat
  | .text s => some s.length
  | .atom (.brokenText points) => some points.length
  | .list items => some items.length
  | .map entries => some entries.length
  | _ => none

/-- The part of a pair at one of its two positions; a map has it under that number. -/
def part (pair : Value) (position : Nat) : Except Error Value :=
  match pair with
  | .map entries => match Table.lookup entries (.int position) with
    | some v => .ok v
    | none => .error (.missing (.int position))
  | v => match (v.elements?.getD [])[position]? with
    | some part => .ok part
    | none => .error .outOfRange

/-- Reads one pair of a renaming. Anything of two parts is a pair. -/
def readPair (opType : Atom) (pair : Value) : Except Error (Atom × Atom) :=
  match partCount? pair with
  | none => .error .wrongKind
  | some 2 => do return ((← part pair 0).plainAtom, (← part pair 1).plainAtom)
  | some _ => .error (.template (.badRename opType pair))

def readRenaming (e : Atom × Value) : Except Error (Atom × Renaming) :=
  match e.2.elements? with
  | none => .error .wrongKind
  | some pairs => do return (e.1, ← pairs.mapM (readPair e.1))

/-- Builds a template, which needs a name and a fused type. -/
def make (name : Value) (root : Pattern) (fusedType rename : Value) : Except Error Template := do
  if !name.truthy then throw (.template .unnamed)
  if !fusedType.truthy then throw (.template (.noFusedType name))
  match rename with
  | .map entries =>
      let rename ← entries.mapM readRenaming
      return { name, root, fusedType, rename := .ofList rename }
  | _ => throw .noFields

def describe? (t : Template) : Except Error String := do
  return "FusionTemplate(" ++ t.name.plain ++ ": " ++ (← t.root.describe?) ++ " => "
    ++ t.fusedType.plain ++ ", depth=" ++ toString t.depth ++ ")"

/-- Whether two tables rename alike; the order of the types is of no account. -/
def sameRename (a b : Table Renaming) : Bool :=
  a.size = b.size && a.entries.all fun e => b.get? e.1 = some e.2

/-- Whether two templates are equal in every field. -/
def same (a b : Template) : Bool :=
  a.name.same b.name && a.root.same b.root && a.fusedType.same b.fusedType
    && sameRename a.rename b.rename

/-- Whether a template may be a member of a set: its name and its types may be keys. -/
def isKey (t : Template) : Bool :=
  t.name.atom?.isSome && t.root.typesAreKeys && t.fusedType.atom?.isSome

/-- Adds a template to a set, unless it is there. -/
def addTo (kept : List Template) (t : Template) : Except Error (List Template) := do
  if !t.isKey then throw .wrongKind
  if kept.any t.same then return kept else return kept ++ [t]

/-- The set of some templates, the first of equal ones kept. -/
def distinct (templates : List Template) : Except Error (List Template) :=
  templates.foldlM addTo []

end Template

end TensorFusion
