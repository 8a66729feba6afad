import TensorFusion.Number.Binary64

/-!
# Number — Decimal

Numerals with a decimal exponent. Every numeral has a nearest double, and every finite double has
a shortest numeral that reads back to it; of the shortest ones the nearest is taken.
-/

namespace TensorFusion

/-- The numeral `±digits · 10 ^ exponent`. -/
structure Decimal where
  negative : Bool
  digits : Nat
  exponent : Int
  deriving DecidableEq, Inhabited

namespace Decimal

def tenPow (k : Nat) : Nat := Nat.pow 10 k

def width (n : Nat) : Nat := (Nat.toDigits 10 n).length

/-- The double nearest to a numeral. Numerals far beyond the range of doubles are settled by the
place of their first digit, so that no huge power of ten is formed. -/
def toBinary64 (d : Decimal) : Binary64 :=
  if d.digits = 0 then .zero d.negative
  else
    let place := (width d.digits : Int) + d.exponent
    if 400 < place then .infinity d.negative
    else if place < -400 then .zero d.negative
    else if 0 ≤ d.exponent then .ofRatio d.negative (d.digits * tenPow d.exponent.toNat) 1
    else .ofRatio d.negative d.digits (tenPow (-d.exponent).toNat)

def trimmed (d : Decimal) : Decimal :=
  let kept := (Nat.toDigits 10 d.digits).reverse.dropWhile (· = '0') |>.reverse
  let dropped := width d.digits - kept.length
  if kept.isEmpty then d
  else { d with digits := d.digits / tenPow dropped, exponent := d.exponent + dropped }

/-- The place of the first digit of `num / den`: the greatest `k` with `10 ^ k ≤ num / den`. -/
def firstPlace (num den : Nat) : Int :=
  let guess : Int := (width num : Int) - (width den : Int)
  let reached := if 0 ≤ guess then den * tenPow guess.toNat ≤ num
    else den ≤ num * tenPow (-guess).toNat
  if reached then guess else guess - 1

/-- The numeral of at most `places` digits that reads back to a positive double, the nearer one
where both neighbours of the double do. -/
def ofPlaces? (mantissa : Nat) (exponent : Int) (places : Nat) : Option Decimal :=
  let (num, den) := Binary64.ratio mantissa exponent
  let unit := firstPlace num den - places + 1
  let (num, den) :=
    if 0 ≤ unit then (num, den * tenPow unit.toNat) else (num * tenPow (-unit).toNat, den)
  let low := num / den
  let rest := num % den
  let target := Binary64.finite false mantissa exponent
  let hits (n : Nat) : Bool := Decimal.toBinary64 ⟨false, n, unit⟩ = target
  let nearer := if 2 * rest < den ∨ (2 * rest = den ∧ low % 2 = 0) then low else low + 1
  let other := if nearer = low then low + 1 else low
  if hits nearer then some ⟨false, nearer, unit⟩
  else if hits other then some ⟨false, other, unit⟩
  else none

/-- The numeral with all digits of a finite double. -/
def exact (mantissa : Nat) (exponent : Int) : Decimal :=
  if 0 ≤ exponent then ⟨false, mantissa * Binary64.twoPow exponent.toNat, 0⟩
  else ⟨false, mantissa * Nat.pow 5 (-exponent).toNat, exponent⟩

/-- The shortest numeral that reads back to a finite double. -/
def shortest (negative : Bool) (mantissa : Nat) (exponent : Int) : Decimal :=
  let found := (List.range 17).findSome? fun n => ofPlaces? mantissa exponent (n + 1)
  { (found.getD (exact mantissa exponent)).trimmed with negative }

end Decimal

namespace Binary64

/-- A number is written without an exponent if its point falls after this place … -/
def leastPoint : Int := -3

/-- … and not after this one. -/
def greatestPoint : Int := 16

/-- A whole number in decimal, with zeros in front up to `places` digits. -/
def padded (n places : Nat) : String :=
  let digits := Nat.toDigits 10 n
  String.ofList (List.replicate (places - digits.length) '0' ++ digits)

/-- The digits of a numeral with the point at its place, and at least one digit on each side. -/
def positional (digits : List Char) (point : Int) : List Char :=
  if point ≤ 0 then '0' :: '.' :: List.replicate (-point).toNat '0' ++ digits
  else if digits.length ≤ point.toNat then
    digits ++ List.replicate (point.toNat - digits.length) '0' ++ ['.', '0']
  else digits.take point.toNat ++ '.' :: digits.drop point.toNat

/-- The digits of a numeral with the point after the first, and the power of ten behind; the power
has a sign and two digits at least. -/
def scientific (digits : List Char) (point : Int) : List Char :=
  let lead := digits.take 1 ++ (if digits.length ≤ 1 then [] else '.' :: digits.drop 1)
  let power := point - 1
  lead ++ 'e' :: (if power < 0 then '-' else '+') :: (padded power.natAbs 2).toList

def text : Binary64 → String
  | .nan _ => "nan"
  | .infinity negative => if negative then "-inf" else "inf"
  | .finite negative m e =>
      let sign := if negative then ['-'] else []
      if m = 0 then String.ofList (sign ++ ['0', '.', '0'])
      else
        let numeral := Decimal.shortest negative m e
        let digits := Nat.toDigits 10 numeral.digits
        let point := (digits.length : Int) + numeral.exponent
        let body := if leastPoint ≤ point ∧ point ≤ greatestPoint then positional digits point
          else scientific digits point
        String.ofList (sign ++ body)

/-- A finite number with a fixed count of decimal places, a tie rounded to the even digit. A result
of zero keeps no sign. -/
def fixed (places : Nat) : Binary64 → String
  | .nan _ => "NaN"
  | .infinity negative => if negative then "-Infinity" else "Infinity"
  | .finite negative m e =>
      let (num, den) := ratio m e
      let units := roundDiv (num * Decimal.tenPow places) den
      let sign := if negative && units != 0 then "-" else ""
      let whole := toString (units / Decimal.tenPow places)
      sign ++ whole ++ "." ++ padded (units % Decimal.tenPow places) places

end Binary64

end TensorFusion
