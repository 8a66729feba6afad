import TensorFusion.Value.Number

/-!
# Json — Token

The tokens of a JSON text. A text is gone through character by character, with the token that is
being read held aside; blanks and marks end a word, and a quote ends a string. What is no token
stands among the tokens as such, so that a reader meets the faults of a text in their order.
-/

namespace TensorFusion.Json

/-- A mark, an atom in whole, or what is neither. -/
inductive Token where
  | openList
  | closeList
  | openMap
  | closeMap
  | colon
  | comma
  | atom (a : Atom)
  /-- A whole number with more digits than are read. -/
  | overlong
  /-- No token. -/
  | fault
  deriving DecidableEq

def mark? : Char → Option Token
  | '[' => some .openList
  | ']' => some .closeList
  | '\x7b' => some .openMap
  | '\x7d' => some .closeMap
  | ':' => some .colon
  | ',' => some .comma
  | _ => none

def isBlank (c : Char) : Bool := c = ' ' || c = '\t' || c = '\n' || c = '\r'

/-- The digits of a whole number: none of it in front but a single zero. -/
def isWhole : List Char → Bool
  | ['0'] => true
  | c :: rest => c ≠ '0' && c.isDigit && rest.all Char.isDigit
  | [] => false

/-- Whether the digits of a number are followed by a fraction or an exponent. -/
def startsFraction : List Char → Bool
  | '.' :: c :: _ => c.isDigit
  | mark :: rest => (mark = 'e' || mark = 'E') && match rest with
    | '+' :: c :: _ | '-' :: c :: _ | c :: _ => c.isDigit
    | [] => false
  | [] => false

/-- Reads a number. Without fraction and exponent it is whole; its length then counts even where
something that is no number follows. -/
def numberToken (word : List Char) : Token :=
  let (negative, body) := match word with
    | '-' :: rest => (true, rest)
    | rest => (false, rest)
  let whole := body.takeWhile Char.isDigit
  let tail := body.dropWhile Char.isDigit
  if !isWhole whole then .fault
  else if startsFraction tail then
    match Literal.decimal? negative body with
    | some d => .atom (.real d.toBinary64)
    | none => .fault
  else if Literal.maxDigits < whole.length then .overlong
  else if tail.isEmpty then
    let n : Int := Literal.natOfDigits whole
    .atom (.int (if negative then -n else n))
  else .fault

/-- Reads a word: one of the fixed names, or a number. -/
def wordToken (word : List Char) : Token :=
  match String.ofList word with
  | "null" => .atom .null
  | "true" => .atom (.bool true)
  | "false" => .atom (.bool false)
  | "NaN" => .atom (.real (.nan 0))
  | "Infinity" => .atom (.real (.infinity false))
  | "-Infinity" => .atom (.real (.infinity true))
  | _ => numberToken word

def shortEscape? : Char → Option Char
  | '"' => some '"'
  | '\\' => some '\\'
  | '/' => some '/'
  | 'b' => some '\x08'
  | 'f' => some '\x0c'
  | 'n' => some '\n'
  | 'r' => some '\r'
  | 't' => some '\t'
  | _ => none

def hexDigit? (c : Char) : Option Nat :=
  if c.isDigit then some (c.toNat - 48)
  else if 'a' ≤ c ∧ c ≤ 'f' then some (c.toNat - 87)
  else if 'A' ≤ c ∧ c ≤ 'F' then some (c.toNat - 55)
  else none

/-- Where in a text a scan is. What a token has so far is held in reverse. -/
inductive Scan where
  | idle
  | word (chars : List Char)
  | string (points : List Nat)
  /-- In a string, behind a backslash. -/
  | escape (points : List Nat)
  /-- In an escape by number, with some of its four digits read. -/
  | code (points : List Nat) (digits value : Nat)
  /-- Behind a fault, where nothing is read any more. -/
  | lost

namespace Scan

/-- Adds an escaped code unit. Two halves of a pair in a row make one code point. -/
def addUnit (unit : Nat) : List Nat → List Nat
  | first :: rest =>
      if Points.isFirstHalf first && Points.isSecondHalf unit then Points.join first unit :: rest
      else unit :: first :: rest
  | [] => [unit]

def start (c : Char) : List Token × Scan :=
  match mark? c with
  | some token => ([token], .idle)
  | none =>
      if isBlank c then ([], .idle)
      else if c = '"' then ([], .string [])
      else ([], .word [c])

/-- One character. The tokens are those that are complete with it. -/
def step (c : Char) : Scan → List Token × Scan
  | .idle => start c
  | .word chars =>
      if (mark? c).isSome || isBlank c || c = '"' then
        let (tokens, scan) := start c
        (wordToken chars.reverse :: tokens, scan)
      else ([], .word (c :: chars))
  | .string points =>
      if c = '"' then ([.atom (.ofPoints points.reverse)], .idle)
      else if c = '\\' then ([], .escape points)
      else if c.toNat < 0x20 then ([.fault], .lost)
      else ([], .string (c.toNat :: points))
  | .escape points =>
      if c = 'u' then ([], .code points 0 0)
      else match shortEscape? c with
        | some d => ([], .string (d.toNat :: points))
        | none => ([.fault], .lost)
  | .code points digits value =>
      match hexDigit? c with
      | some d =>
          let value := 16 * value + d
          if digits = 3 then ([], .string (addUnit value points))
          else ([], .code points (digits + 1) value)
      | none => ([.fault], .lost)
  | .lost => ([], .lost)

def finish : Scan → List Token
  | .idle | .lost => []
  | .word chars => [wordToken chars.reverse]
  | .string _ | .escape _ | .code .. => [.fault]

/-- Takes one character; the tokens so far are held in reverse. -/
def advance (state : List Token × Scan) (c : Char) : List Token × Scan :=
  let (tokens, scan) := step c state.2
  (tokens.reverse ++ state.1, scan)

end Scan

def tokenize (text : String) : List Token :=
  let (tokens, scan) := text.toList.foldl Scan.advance ([], .idle)
  tokens.reverse ++ scan.finish

end TensorFusion.Json
