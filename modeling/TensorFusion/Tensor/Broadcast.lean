import TensorFusion.Error
import TensorFusion.Tensor.Basic

/-!
# Tensor — Broadcast

Joining tensors of different shapes element by element. Shapes are aligned at their last dimension;
a dimension of size one, or one that is missing in front, is repeated as often as the other needs.
-/

namespace TensorFusion

namespace Shape

/-- A shape with dimensions of size one in front, up to a rank. -/
def padFront (rank : Nat) (shape : List Nat) : List Nat :=
  List.replicate (rank - shape.length) 1 ++ shape

def joinSize (m n : Nat) : Option Nat :=
  if m = n then some m else if m = 1 then some n else if n = 1 then some m else none

def joinSizes : List Nat → List Nat → Option (List Nat)
  | m :: ms, n :: ns => do return (← joinSize m n) :: (← joinSizes ms ns)
  | [], [] => some []
  | _, _ => none

def broadcast? (s t : List Nat) : Option (List Nat) :=
  let rank := max s.length t.length
  joinSizes (padFront rank s) (padFront rank t)

/-- The position in a tensor of the given shape that a position of the common shape reads. -/
def project (shape index : List Nat) : List Nat :=
  List.zipWith (fun n i => if n = 1 then 0 else i) shape (index.drop (index.length - shape.length))

end Shape

namespace Tensor

variable {α β γ : Type}

def zip [Inhabited α] [Inhabited β] (f : α → β → γ) (x : Tensor α) (y : Tensor β) :
    Except Error (Tensor γ) :=
  match Shape.broadcast? x.shape y.shape with
  | some shape => .ok (ofFn shape fun index =>
      f (x.get (Shape.project x.shape index)) (y.get (Shape.project y.shape index)))
  | none => .error .tensorMismatch

end Tensor

end TensorFusion
