import TensorFusion.Value.Table
import TensorFusion.Value.Text

/-!
# Json — Writer

Values as JSON text, one item or entry to a line, indented by two spaces a level. All characters
outside of ASCII are escaped.
-/

namespace TensorFusion.Json

def unitEscape (unit : Nat) : List Char := '\\' :: 'u' :: Points.hex unit 4

/-- One code point of a string. A half of a surrogate pair is one code unit, as it is in a pair. -/
def escape (point : Nat) : List Char :=
  if point = 0x22 then ['\\', '"']
  else if point = 0x5c then ['\\', '\\']
  else if point = 0x0a then ['\\', 'n']
  else if point = 0x0d then ['\\', 'r']
  else if point = 0x09 then ['\\', 't']
  else if point = 0x0c then ['\\', 'f']
  else if point = 0x08 then ['\\', 'b']
  else if 0x20 ≤ point ∧ point < 0x7f then [Char.ofNat point]
  else if point < 0x10000 then unitEscape point
  else
    let rest := point - 0x10000
    unitEscape (0xd800 + rest / 0x400) ++ unitEscape (0xdc00 + rest % 0x400)

def quotePoints (points : List Nat) : String :=
  String.ofList ('"' :: points.flatMap escape ++ ['"'])

def quote (s : String) : String := quotePoints (Points.ofText s)

def realText : Binary64 → String
  | .nan _ => "NaN"
  | .infinity negative => if negative then "-Infinity" else "Infinity"
  | x => x.text

def atomText : Atom → String
  | .null => "null"
  | .bool b => if b then "true" else "false"
  | .int n => toString n
  | .real x => realText x
  | .text s => quote s
  | .brokenText points => quotePoints points

/-- An atom as a key. One that is no text is written as one. -/
def keyText : Atom → String
  | .text s => quote s
  | .brokenText points => quotePoints points
  | a => quote (atomText a)

/-- The start of a line. -/
def newline (level : Nat) : String := "\n" ++ String.ofList (List.replicate (2 * level) ' ')

def block (opening closing : String) (level : Nat) (lines : List String) : String :=
  if lines.isEmpty then opening ++ closing
  else opening ++ newline (level + 1) ++ ("," ++ newline (level + 1)).intercalate lines
    ++ newline level ++ closing

mutual

def render (level : Nat) : Value → String
  | .atom a => atomText a
  | .list items => block "[" "]" level (renderItems (level + 1) items)
  | .map entries => block "\x7b" "\x7d" level (renderEntries (level + 1) entries)

def renderItems (level : Nat) : List Value → List String
  | [] => []
  | v :: vs => render level v :: renderItems level vs

def renderEntries (level : Nat) : List (Atom × Value) → List String
  | [] => []
  | e :: es => renderEntry level e :: renderEntries level es

def renderEntry (level : Nat) : Atom × Value → String
  | (k, v) => keyText k ++ ": " ++ render level v

end

def write (v : Value) : String := render 0 v

end TensorFusion.Json
