/-!
# Number — Binary64

Double-precision numbers as exact data: a sign, a whole mantissa and a power of two. Rounding is
to the nearest such number, a tie to the even mantissa, and is computed on whole numbers alone, so
that reading and writing numerals never depends on the machine's arithmetic.
-/

namespace TensorFusion

/-- A double-precision number; `finite s m e` stands for `±m · 2 ^ e`. What is no number carries a
payload, which computations keep and by which such values are told apart. -/
inductive Binary64 where
  | nan (payload : Nat)
  | infinity (negative : Bool)
  | finite (negative : Bool) (mantissa : Nat) (exponent : Int)
  deriving DecidableEq, Inhabited

namespace Binary64

def twoPow (k : Nat) : Nat := Nat.pow 2 k

def minExponent : Int := -1074

/-- The largest exponent of a finite number. -/
def maxExponent : Int := 971

def zero (negative : Bool) : Binary64 := .finite negative 0 minExponent

/-- The quotient rounded to the nearest whole number, a tie to the even one. -/
def roundDiv (num den : Nat) : Nat :=
  let low := num / den
  let rest := num % den
  if 2 * rest > den then low + 1
  else if 2 * rest = den then low + low % 2
  else low

/-- The fraction `num / den` divided by `2 ^ e`, again as a fraction. -/
def scaleDown (num den : Nat) (e : Int) : Nat × Nat :=
  if 0 ≤ e then (num, den * twoPow e.toNat) else (num * twoPow (-e).toNat, den)

/-- The greatest `e` with `2 ^ e ≤ num / den`, for positive `num` and `den`. -/
def floorLog (num den : Nat) : Int :=
  let guess : Int := (Nat.log2 num : Int) - (Nat.log2 den : Int)
  let scaled := scaleDown num den guess
  if scaled.1 < scaled.2 then guess - 1 else guess

/-- The number nearest to `±num / den`; what lies beyond the largest number becomes infinite. -/
def ofRatio (negative : Bool) (num den : Nat) : Binary64 :=
  if num = 0 then zero negative
  else
    let e := max (floorLog num den - 52) minExponent
    let scaled := scaleDown num den e
    let m := roundDiv scaled.1 scaled.2
    let carried := m = twoPow 53
    let m := if carried then twoPow 52 else m
    let e := if carried then e + 1 else e
    if maxExponent < e then .infinity negative else .finite negative m e

def ofInt (n : Int) : Binary64 := ofRatio (n < 0) n.natAbs 1

def ratio (mantissa : Nat) (exponent : Int) : Nat × Nat := scaleDown mantissa 1 (-exponent)

/-- A finite number in units of `2 ^ unit`, where `unit` is at most its exponent. -/
def inUnits (negative : Bool) (mantissa : Nat) (exponent unit : Int) : Int :=
  let size : Int := (mantissa * twoPow (exponent - unit).toNat : Nat)
  if negative then -size else size

/-- The whole number nearest to zero that a finite number truncates to. -/
def truncate? : Binary64 → Option Int
  | .finite negative m e =>
      let parts := ratio m e
      let size : Int := (parts.1 / parts.2 : Nat)
      some (if negative then -size else size)
  | _ => none

/-- The whole number that a number is equal to, where there is one. -/
def toInt? : Binary64 → Option Int
  | .finite negative m e =>
      let parts := ratio m e
      if parts.1 % parts.2 = 0 then
        let size : Int := (parts.1 / parts.2 : Nat)
        some (if negative then -size else size)
      else none
  | _ => none

def isZero : Binary64 → Bool
  | .finite _ m _ => m = 0
  | _ => false

/-- The rounded sum. A sum of zero is positive, unless both parts are negative. -/
def add : Binary64 → Binary64 → Binary64
  | .nan payload, _ => .nan payload
  | _, .nan payload => .nan payload
  | .infinity s, .infinity t => if s = t then .infinity s else .nan 0
  | .infinity s, .finite .. => .infinity s
  | .finite .., .infinity t => .infinity t
  | .finite s m e, .finite t n f =>
      let unit := min e f
      let sum := inUnits s m e unit + inUnits t n f unit
      if sum = 0 then zero (s && t)
      else
        let parts := ratio sum.natAbs unit
        ofRatio (sum < 0) parts.1 parts.2

def mul : Binary64 → Binary64 → Binary64
  | .nan payload, _ => .nan payload
  | _, .nan payload => .nan payload
  | .infinity s, .infinity t => .infinity (s != t)
  | .infinity s, .finite t n _ => if n = 0 then .nan 0 else .infinity (s != t)
  | .finite s m _, .infinity t => if m = 0 then .nan 0 else .infinity (s != t)
  | .finite s m e, .finite t n f =>
      let parts := ratio (m * n) (e + f)
      ofRatio (s != t) parts.1 parts.2

def neg : Binary64 → Binary64
  | .nan payload => .nan payload
  | .infinity s => .infinity !s
  | .finite s m e => .finite (!s) m e

def sub (x y : Binary64) : Binary64 := x.add y.neg

/-- The rounded quotient. By zero, all but zero itself is infinite. -/
def div : Binary64 → Binary64 → Binary64
  | .nan payload, _ => .nan payload
  | _, .nan payload => .nan payload
  | .infinity _, .infinity _ => .nan 0
  | .infinity s, .finite t _ _ => .infinity (s != t)
  | .finite s _ _, .infinity t => zero (s != t)
  | .finite s m e, .finite t n f =>
      if n = 0 then (if m = 0 then .nan 0 else .infinity (s != t))
      else
        let parts := scaleDown m n (f - e)
        ofRatio (s != t) parts.1 parts.2

/-- What remains of a number when a quotient is cut off to a whole one. It is exact, and has the
sign of the number. -/
def rem : Binary64 → Binary64 → Binary64
  | .nan payload, _ => .nan payload
  | _, .nan payload => .nan payload
  | .infinity _, _ => .nan 0
  | .finite s m e, .infinity _ => .finite s m e
  | .finite s m e, .finite _ n f =>
      if n = 0 then .nan 0
      else
        let unit := min e f
        let parts := ratio (m * twoPow (e - unit).toNat % (n * twoPow (f - unit).toNat)) unit
        ofRatio s parts.1 parts.2

def isNegative : Binary64 → Bool
  | .finite s m _ => s && m ≠ 0
  | .infinity s => s
  | .nan _ => false

def floor : Binary64 → Binary64
  | .finite s m e =>
      let parts := ratio m e
      if s then
        ofRatio true ((parts.1 + parts.2 - 1) / parts.2) 1
      else ofRatio false (parts.1 / parts.2) 1
  | x => x

/-- Whether a number is more than one half. -/
def exceedsHalf : Binary64 → Bool
  | .finite s m e => let parts := ratio m e; !s && parts.2 < 2 * parts.1
  | .infinity s => !s
  | .nan _ => false

/-- The sign bit of a quotient. -/
def quotientSign : Binary64 → Binary64 → Bool
  | .finite s _ _, .finite t _ _ => s != t
  | .infinity s, .finite t _ _ => s != t
  | .finite s _ _, .infinity t => s != t
  | _, _ => false

/-- The quotient by a number other than zero, brought down to a whole number. The remainder is taken
off first, so that the quotient which is rounded is nearly whole; it is then moved to the nearest
whole number. -/
def floorDiv (x y : Binary64) : Binary64 :=
  let rest := x.rem y
  let quotient := (x.sub rest).div y
  let quotient :=
    if !rest.isZero && y.isNegative != rest.isNegative then quotient.sub (ofInt 1) else quotient
  if quotient.isZero then zero (quotientSign x y)
  else
    let low := quotient.floor
    if (quotient.sub low).exceedsHalf then low.add (ofInt 1) else low

def ltInt (x : Binary64) (n : Int) : Bool :=
  match x with
  | .nan _ => false
  | .infinity s => s
  | .finite s m e =>
      let parts := ratio m e
      let size : Int := parts.1
      decide ((if s then -size else size) < n * parts.2)

/-- The word that the machine holds for a number; it has no room for payloads. -/
def toBits : Binary64 → UInt64
  | .nan _ => 0x7ff8000000000000
  | .infinity negative => sign negative ||| 0x7ff0000000000000
  | .finite negative m e =>
      if m < twoPow 52 then sign negative ||| UInt64.ofNat m
      else sign negative ||| UInt64.ofNat ((e + 1075).toNat * twoPow 52 + (m - twoPow 52))
where
  sign (negative : Bool) : UInt64 := if negative then 0x8000000000000000 else 0

def ofBits (word : UInt64) : Binary64 :=
  let bits := word.toNat
  let negative : Bool := bits / twoPow 63 % 2 = (1 : Nat)
  let field : Nat := bits / twoPow 52 % twoPow 11
  let fraction : Nat := bits % twoPow 52
  if field = 2047 then (if fraction = 0 then .infinity negative else .nan 0)
  else if field = 0 then .finite negative fraction minExponent
  else .finite negative (twoPow 52 + fraction) ((field : Int) - 1075)

def toFloat (x : Binary64) : Float := Float.ofBits x.toBits

def ofFloat (x : Float) : Binary64 := ofBits x.toBits

end Binary64

end TensorFusion
