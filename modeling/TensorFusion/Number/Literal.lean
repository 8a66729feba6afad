import TensorFusion.Number.Decimal
import TensorFusion.Text.Digit

/-!
# Number — Literal

Numbers read from text as a person types them: blanks on either side, a sign, digits of any script,
and single underscores between digits.
-/

namespace TensorFusion.Literal

def normalize (s : String) : List Char :=
  let plain := s.toList.map Digit.plain
  let front := plain.dropWhile Digit.isBlank
  (front.reverse.dropWhile Digit.isBlank).reverse

/-- Splits off a sign; `true` is minus. -/
def takeSign : List Char → Bool × List Char
  | '-' :: rest => (true, rest)
  | '+' :: rest => (false, rest)
  | rest => (false, rest)

/-- Leaves out each underscore that stands between two digits; any other one makes the text
unreadable. The first argument tells whether a digit came just before. -/
def dropUnderscores? : Bool → List Char → Option (List Char)
  | _, [] => some []
  | afterDigit, '_' :: c :: rest =>
      if afterDigit && c.isDigit then (dropUnderscores? true rest).map (c :: ·) else none
  | _, c :: rest =>
      if c = '_' then none else (dropUnderscores? c.isDigit rest).map (c :: ·)

def natOfDigits (digits : List Char) : Nat :=
  digits.foldl (fun n c => 10 * n + (c.toNat - 0x30)) 0

/-- The longest whole number that is read; longer ones are refused. -/
def maxDigits : Nat := 4300

def int? (s : String) : Option Int :=
  let (negative, body) := takeSign (normalize s)
  match dropUnderscores? false body with
  | some digits =>
      if digits.isEmpty || !digits.all Char.isDigit || maxDigits < digits.length then none
      else
        let n : Int := natOfDigits digits
        some (if negative then -n else n)
  | none => none

/-- Reads the exponent part of a numeral: nothing, or a mark, a sign and digits. -/
def exponent? : List Char → Option Int
  | [] => some 0
  | mark :: rest =>
      if mark = 'e' || mark = 'E' then
        let (negative, digits) := takeSign rest
        if digits.isEmpty || !digits.all Char.isDigit then none
        else
          let n : Int := natOfDigits digits
          some (if negative then -n else n)
      else none

/-- Reads an unsigned numeral: digits with at most one point, then perhaps an exponent. -/
def decimal? (negative : Bool) (body : List Char) : Option Decimal :=
  let whole := body.takeWhile Char.isDigit
  let afterWhole := body.dropWhile Char.isDigit
  let (places, tail) := match afterWhole with
    | '.' :: rest => (rest.takeWhile Char.isDigit, rest.dropWhile Char.isDigit)
    | rest => ([], rest)
  if whole.isEmpty && places.isEmpty then none
  else (exponent? tail).map fun e =>
    ⟨negative, natOfDigits (whole ++ places), e - places.length⟩

/-- Reads a double: a numeral, or the name of infinity or of no number, in any case of letters. -/
def real? (s : String) : Option Binary64 :=
  match dropUnderscores? false (normalize s) with
  | none => none
  | some text =>
      let (negative, body) := takeSign text
      let word := String.ofList (body.map Char.toLower)
      if word = "inf" || word = "infinity" then some (.infinity negative)
      else if word = "nan" then some (.nan 0)
      else (decimal? negative body).map Decimal.toBinary64

end TensorFusion.Literal
