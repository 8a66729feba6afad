/-!
# Text — Points

Texts by their code points. A document may spell half of a surrogate pair alone; that is a code
point but no character, so a text that holds one is kept as a list of numbers. Where only text will
do, as in the name of a file, a character of the last plane stands for the half.
-/

namespace TensorFusion.Points

def isHalf (point : Nat) : Bool := 0xd800 ≤ point && point < 0xe000

/-- Whether a code point is the first half of a pair. -/
def isFirstHalf (point : Nat) : Bool := 0xd800 ≤ point && point < 0xdc00

/-- Whether a code point is the second half of a pair. -/
def isSecondHalf (point : Nat) : Bool := 0xdc00 ≤ point && point < 0xe000

def join (first second : Nat) : Nat := 0x10000 + (first - 0xd800) * 0x400 + (second - 0xdc00)

def ofText (s : String) : List Nat := s.toList.map Char.toNat

/-- The text of some code points, unless there is a half among them. -/
def text? (points : List Nat) : Option String :=
  if points.any isHalf then none else some (String.ofList (points.map Char.ofNat))

/-- The characters of the last plane that stand for the halves where only characters can stand. -/
def standIn (point : Nat) : Char := Char.ofNat (0x100000 + point)

/-- The half that a character stands for. -/
def half? (c : Char) : Option Nat :=
  let point := c.toNat - 0x100000
  if isHalf point then some point else none

/-- Code points as text, with characters in place of the halves. -/
def standing (points : List Nat) : String :=
  String.ofList (points.map fun point => if isHalf point then standIn point else Char.ofNat point)

def occurIn (part : List Nat) : List Nat → Bool
  | [] => part.isEmpty
  | c :: rest => part.isPrefixOf (c :: rest) || occurIn part rest

/-- A number in lower hexadecimal with at least `width` digits. -/
def hex (n width : Nat) : List Char :=
  let digits := Nat.toDigits 16 n
  List.replicate (width - digits.length) '0' ++ digits

def spellHalf (point : Nat) : List Char := '\\' :: 'u' :: hex point 4

def spell (points : List Nat) : String :=
  String.ofList (points.flatMap fun point =>
    if isHalf point then spellHalf point else [Char.ofNat point])

end TensorFusion.Points
