import TensorFusion.Value.Basic
import TensorFusion.Number.Decimal
import TensorFusion.Text.Quoted

/-!
# Value — Text

The written form of values: brackets around lists, braces around maps, quotes around texts.
-/

namespace TensorFusion

def boolText (b : Bool) : String := if b then "True" else "False"

def Atom.literal : Atom → String
  | .null => "None"
  | .bool b => boolText b
  | .int n => toString n
  | .real x => x.text
  | .text s => Quoted.encode s
  | .brokenText points => Quoted.encodePoints points

namespace Value

def bracketed (items : List String) : String := "[" ++ ", ".intercalate items ++ "]"

def braced (entries : List String) : String := "\x7b" ++ ", ".intercalate entries ++ "\x7d"

mutual

def literal : Value → String
  | .atom a => a.literal
  | .list items => bracketed (itemLiterals items)
  | .map entries => braced (entryLiterals entries)

def itemLiterals : List Value → List String
  | [] => []
  | v :: vs => v.literal :: itemLiterals vs

def entryLiterals : List (Atom × Value) → List String
  | [] => []
  | e :: es => entryLiteral e :: entryLiterals es

def entryLiteral : Atom × Value → String
  | (k, v) => k.literal ++ ": " ++ v.literal

end

/-- Items between parentheses; a single one is followed by a comma. -/
def parenthesized : List Value → String
  | [v] => "(" ++ v.literal ++ ",)"
  | items => "(" ++ ", ".intercalate (items.map literal) ++ ")"

/-- A value as it stands in a sentence: a text without quotes, all else in its written form. -/
def plain : Value → String
  | .text s => s
  | .atom (.brokenText points) => Points.spell points
  | v => v.literal

/-- The text that a value is written as in a sentence. -/
def plainAtom : Value → Atom
  | .atom (.brokenText points) => .brokenText points
  | v => .text v.plain

end Value

def Atom.plain (a : Atom) : String := (Value.atom a).plain

end TensorFusion
