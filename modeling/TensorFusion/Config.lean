import TensorFusion.Error
import TensorFusion.Value.Table

/-!
# Config

The settings of an optimizer. A setting keeps whatever value it is given; what the value means is
settled where the setting is used.
-/

namespace TensorFusion

/-- What a setting holds: a value, or items that are fixed as a series. -/
inductive Setting where
  | value (v : Value)
  | series (items : List Value)
  deriving Inhabited

namespace Setting

/-- A value as a setting that is changed while it is in use: a list is fixed as a series. -/
def ofChange : Value → Setting
  | .list items => .series items
  | v => .value v

/-- The value that a setting holds, its items as a list. -/
def toValue : Setting → Value
  | .value v => v
  | .series items => .list items

/-- Whether a setting counts as true. -/
def truthy (s : Setting) : Bool := s.toValue.truthy

def plain : Setting → String
  | .value v => v.plain
  | .series items => Value.parenthesized items

/-- Whether two settings are equal; a series is no list. -/
def same : Setting → Setting → Bool
  | .value v, .value w => v.same w
  | .series xs, .series ys => Value.sameItems xs ys
  | _, _ => false

/-- Whether a setting that names templates names a given one: as an item, as a key of a map, or as a
part of a text. -/
def names (s : Setting) (name : Value) : Except Error Bool :=
  match s.toValue with
  | .list items => .ok (items.any (·.same name))
  | .map entries => match name with
    | .atom key => .ok (Table.lookup entries key).isSome
    | _ => .error .wrongKind
  | .atom whole => match whole.points?, name.atom?.bind Atom.points? with
    | some whole, some part => .ok (Points.occurIn part whole)
    | _, _ => .error .wrongKind

end Setting

/-- Settings, all of which may change between runs; the depth limit counts only when an optimizer
makes its own catalog. -/
structure Config where
  enableFusion : Setting := .value (.bool true)
  fallbackOnError : Setting := .value (.bool true)
  debugMode : Setting := .value (.bool false)
  disabled : Setting := .series []
  maxPatternDepth : Setting := .value (.int 8)
  deriving Inhabited

namespace Config

def fuses (c : Config) : Bool := c.enableFusion.truthy

/-- Whether a program that cannot be fused is used as it is. -/
def fallsBack (c : Config) : Bool := c.fallbackOnError.truthy

def debugs (c : Config) : Bool := c.debugMode.truthy

def disables (c : Config) (name : Value) : Except Error Bool := c.disabled.names name

def set? (c : Config) (field : Atom) (s : Setting) : Option Config :=
  match field with
  | .text "enable_fusion" => some { c with enableFusion := s }
  | .text "fallback_on_error" => some { c with fallbackOnError := s }
  | .text "debug_mode" => some { c with debugMode := s }
  | .text "disabled_patterns" => some { c with disabled := s }
  | .text "max_pattern_depth" => some { c with maxPatternDepth := s }
  | _ => none

/-- The setting that a field is given at first: the names of templates are fixed as a series, all
else is kept as it is. -/
def given (field : Atom) (v : Value) : Except Error Setting :=
  if field = .text "disabled_patterns" then do return .series (← v.elements) else .ok (.value v)

/-- Settings from a map of fields; an unknown one is refused. -/
def ofValue : Value → Except Error Config
  | .map entries => entries.foldlM (fun c e => do
      match c.set? e.1 (← given e.1 e.2) with
      | some c => return c
      | none => throw .wrongKind) {}
  | _ => .error .wrongKind

def describe? (c : Config) : Except Error String := do
  return "FusionConfig(enable_fusion=" ++ c.enableFusion.plain
    ++ ", fallback_on_error=" ++ c.fallbackOnError.plain
    ++ ", debug_mode=" ++ c.debugMode.plain
    ++ ", disabled=" ++ (Value.list (← c.disabled.toValue.elements)).literal
    ++ ", max_pattern_depth=" ++ c.maxPatternDepth.plain ++ ")"

/-- Whether two settings are equal in every field. -/
def same (a b : Config) : Bool :=
  a.enableFusion.same b.enableFusion && a.fallbackOnError.same b.fallbackOnError
    && a.debugMode.same b.debugMode && a.disabled.same b.disabled
    && a.maxPatternDepth.same b.maxPatternDepth

end Config

end TensorFusion
