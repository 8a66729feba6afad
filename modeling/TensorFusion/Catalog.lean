import TensorFusion.Template.Standard
import TensorFusion.Value.Number

/-!
# Catalog

Templates in the order in which they are tried. A template that comes early may take operators that
a later one would match, so the order is part of the meaning.
-/

namespace TensorFusion

/-- Templates of different names, none deeper than the limit, where there is one. The limit is
checked only when a template is added, so any value may stand there. -/
structure Catalog where
  templates : List Template := []
  maxDepth : Value := .null
  deriving Inhabited

namespace Catalog

/-- Whether a depth is beyond a limit; only a number limits. -/
def exceeds (depth : Nat) : Value → Except Error Bool
  | .null => .ok false
  | limit => do return (← limit.number).ltInt depth

def register (c : Catalog) (t : Template) : Except Error Catalog := do
  if c.templates.any (·.name.same t.name) then throw (.template (.duplicate t.name))
  if ← exceeds t.depth c.maxDepth then throw (.template (.tooDeep t.name t.depth c.maxDepth))
  return { c with templates := c.templates ++ [t] }

/-- A catalog of the given templates. -/
def ofList (templates : List Template) (maxDepth : Value) : Except Error Catalog :=
  templates.foldlM register { maxDepth := maxDepth }

/-- The catalog of the standard templates. -/
def standard (maxDepth : Value) : Except Error Catalog := ofList Template.standard maxDepth

def get? (c : Catalog) (name : Value) : Option Template :=
  c.templates.find? (·.name.same name)

def size (c : Catalog) : Nat := c.templates.length

def names (c : Catalog) : List Value := c.templates.map (·.name)

/-- The types that matches start at, each once, in order of first appearance. -/
def triggers (c : Catalog) : List Value :=
  c.templates.foldl
    (fun seen t => if seen.any (·.same t.trigger) then seen else seen ++ [t.trigger]) []

def describe (c : Catalog) : String :=
  "FusionCatalog(" ++ (Value.list c.names).literal ++ ")"

end Catalog

end TensorFusion
