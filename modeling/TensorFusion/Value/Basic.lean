import TensorFusion.Number.Binary64
import TensorFusion.Text.Points

/-!
# Value — Basic

The data of program documents: atoms, lists, and maps that keep the order of their entries. Numbers
are compared by what they denote, so `1`, `1.0` and `true` are the same key.
-/

namespace TensorFusion

/-- A value without parts. Only atoms are keys of maps. -/
inductive Atom where
  | null
  | bool (b : Bool)
  | int (n : Int)
  | real (x : Binary64)
  | text (s : String)
  /-- A text in which halves of surrogate pairs stand alone, by its code points. -/
  | brokenText (points : List Nat)
  deriving DecidableEq, Inhabited

namespace Atom

def ofPoints (points : List Nat) : Atom :=
  match Points.text? points with
  | some s => .text s
  | none => .brokenText points

/-- The code points of a text; all else has none. -/
def points? : Atom → Option (List Nat)
  | .text s => some (Points.ofText s)
  | .brokenText points => some points
  | _ => none

/-- The form that atoms are compared in: a truth value or a whole real counts as its number. -/
def key : Atom → Atom
  | .bool b => .int (if b then 1 else 0)
  | .real x => match x.toInt? with
    | some n => .int n
    | none => .real x
  | a => a

/-- Whether two atoms are the same key. -/
def same (a b : Atom) : Bool := a.key = b.key

@[simp] theorem key_text (s : String) : (Atom.text s).key = .text s := rfl

@[simp] theorem same_text (s t : String) : same (.text s) (.text t) = decide (s = t) := by
  simp [same]

theorem same_iff {a b : Atom} : a.same b = true ↔ a.key = b.key := by simp [same]

@[simp] theorem same_refl (a : Atom) : a.same a = true := by simp [same]

theorem same_comm (a b : Atom) : a.same b = b.same a := by
  simp [same, eq_comm]

theorem same_trans {a b c : Atom} (h : a.same b = true) (h' : b.same c = true) :
    a.same c = true := by
  rw [same_iff] at *
  exact h.trans h'

end Atom

/-- A document value. -/
inductive Value where
  | atom (a : Atom)
  | list (items : List Value)
  | map (entries : List (Atom × Value))
  deriving Inhabited

namespace Value

@[match_pattern] abbrev null : Value := .atom .null

@[match_pattern] abbrev bool (b : Bool) : Value := .atom (.bool b)

@[match_pattern] abbrev int (n : Int) : Value := .atom (.int n)

@[match_pattern] abbrev real (x : Binary64) : Value := .atom (.real x)

@[match_pattern] abbrev text (s : String) : Value := .atom (.text s)

instance : Coe String Value := ⟨.text⟩

mutual

/-- Whether two values are equal: numbers by what they denote, lists in order, maps in any order. -/
def same : Value → Value → Bool
  | .atom a, .atom b => a.same b
  | .list xs, .list ys => sameItems xs ys
  | .map xs, .map ys => xs.length = ys.length && sameEntries xs ys
  | _, _ => false

/-- Whether two lists hold equal values at equal places. -/
def sameItems : List Value → List Value → Bool
  | [], [] => true
  | x :: xs, y :: ys => same x y && sameItems xs ys
  | _, _ => false

/-- Whether each entry has an equal one in the second list. -/
def sameEntries : List (Atom × Value) → List (Atom × Value) → Bool
  | [], _ => true
  | x :: xs, ys => sameEntry x ys && sameEntries xs ys

/-- Whether a list of entries holds one that is equal to the given one. -/
def sameEntry : Atom × Value → List (Atom × Value) → Bool
  | (k, v), ys => ys.any fun y => k.same y.1 && same v y.2

end

@[simp] theorem same_atom (a b : Atom) : same (.atom a) (.atom b) = a.same b := by
  simp [same]

theorem same_text (s t : String) : same (.text s) (.text t) = decide (s = t) := by
  simp

/-- Whether a value counts as true: nothing, zero and what is empty do not. -/
def truthy : Value → Bool
  | .null => false
  | .bool b => b
  | .int n => n ≠ 0
  | .real x => !x.isZero
  | .text s => s ≠ ""
  | .atom (.brokenText points) => !points.isEmpty
  | .list items => !items.isEmpty
  | .map entries => !entries.isEmpty

/-- The parts that a value is walked through in: the characters of a text, the items of a list and
the keys of a map. A number has none. -/
def elements? : Value → Option (List Value)
  | .text s => some (s.toList.map fun c => .text c.toString)
  | .atom (.brokenText points) => some (points.map fun point => .atom (.ofPoints [point]))
  | .list items => some items
  | .map entries => some (entries.map fun e => .atom e.1)
  | _ => none

/-- The atom that a value is, where it may be a key. -/
def atom? : Value → Option Atom
  | .atom a => some a
  | _ => none

end Value

end TensorFusion
