import TensorFusion.Error
import TensorFusion.Number.Literal

/-!
# Value — Number

Values taken as numbers. A whole number may be written as a truth value, a number with a fraction,
which is cut off, or a text; a double likewise.
-/

namespace TensorFusion.Value

/-- The whole number that a value stands for. -/
def toInt : Value → Except Error Int
  | .bool b => .ok (if b then 1 else 0)
  | .int n => .ok n
  | .real (.nan _) => .error .unreadable
  | .real x => match x.truncate? with
    | some n => .ok n
    | none => .error .tooLarge
  | .text s => match Literal.int? s with
    | some n => .ok n
    | none => .error .unreadable
  | .atom (.brokenText _) => .error .unreadable
  | _ => .error .wrongKind

/-- The double nearest to a whole number, unless it is beyond their range. -/
def roundInt (n : Int) : Except Error Binary64 :=
  match Binary64.ofInt n with
  | .infinity _ => .error .tooLarge
  | x => .ok x

/-- The double that a value stands for. -/
def toReal : Value → Except Error Binary64
  | .bool b => .ok (.ofInt (if b then 1 else 0))
  | .int n => roundInt n
  | .real x => .ok x
  | .text s => match Literal.real? s with
    | some x => .ok x
    | none => .error .unreadable
  | .atom (.brokenText _) => .error .unreadable
  | _ => .error .wrongKind

/-- The number that arithmetic sees in a value: an exact whole number or a double. -/
inductive Number where
  | int (n : Int)
  | real (x : Binary64)

/-- The number that a value is; a text is none, whatever it says. -/
def number : Value → Except Error Number
  | .bool b => .ok (.int (if b then 1 else 0))
  | .int n => .ok (.int n)
  | .real x => .ok (.real x)
  | _ => .error .wrongKind

namespace Number

def toValue : Number → Value
  | .int n => .int n
  | .real x => .real x

def addInt (n : Int) : Number → Except Error Number
  | .int m => .ok (.int (m + n))
  | .real x => do return .real (x.add (← roundInt n))

def mulInt (n : Int) : Number → Except Error Number
  | .int m => .ok (.int (n * m))
  | .real x => do return .real ((← roundInt n).mul x)

def sub : Number → Number → Except Error Number
  | .int m, .int n => .ok (.int (m - n))
  | .int m, .real y => do return .real ((← roundInt m).sub y)
  | .real x, .int n => do return .real (x.sub (← roundInt n))
  | .real x, .real y => .ok (.real (x.sub y))

/-- The greatest whole number not above the quotient by a whole number; for a double, as near to it
as doubles tell. -/
def floorDivInt (n : Int) : Number → Except Error Number
  | .int m => if n = 0 then .error .divisionByZero else .ok (.int (Int.fdiv m n))
  | .real x => do
      let y ← roundInt n
      if n = 0 then .error .divisionByZero else .ok (.real (x.floorDiv y))

def ltInt : Number → Int → Bool
  | .int m, n => decide (m < n)
  | .real x, n => x.ltInt n

end Number

end TensorFusion.Value
