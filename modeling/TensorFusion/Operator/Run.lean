import TensorFusion.Operator.Basic
import TensorFusion.Tensor.Library

/-!
# Operator — Run

What operators compute, with a library of tensors. The input is looked up before the parameters,
parameters before attributes, and the name of the output last, so that of several faults the first in
this order is reported.
-/

namespace TensorFusion

/-- The number of groups of a convolution, as it is given. Without it there is one, or as many as
there are channels. -/
def Op.groupsFor (op : Op) (depthwise : Bool) (shape : List Nat) : Except Error Value :=
  match op.attrs.get? (.text "groups") with
  | none | some .null =>
      if depthwise then match shape with
        | _ :: channels :: _ => .ok (.int channels)
        | _ => .error .outOfRange
      else .ok (.int 1)
  | some v => .ok v

/-- The window of a convolution of images of a shape. -/
def Op.window (op : Op) (depthwise : Bool) (shape : List Nat) : Except Error Window := do
  let groups ← op.groupsFor depthwise shape
  let strides ← op.pairAttr "strides" 1
  let paddings ← op.pairAttr "paddings" 0
  let dilations ← op.pairAttr "dilations" 1
  return { strides, paddings, dilations, groups := ← groups.toInt }

section

variable {τ : Type} (lib : TensorLibrary τ)

def Op.convolve (op : Op) (depthwise : Bool) (x kernel : τ) : Except Error τ := do
  lib.conv2d (← op.window depthwise (lib.shape x)) x kernel

/-- The second operand of an addition, placed so that its first dimension meets the given dimension
of the first operand. A negative axis, or an operand of full rank, leaves it as it is; where the
axis is behind the last dimension, no dimension is added. -/
def TensorLibrary.alignAxis (axis : Int) (rank : Nat) (y : τ) : Except Error τ :=
  if 0 ≤ axis ∧ lib.rank y < rank then
    let trailing : Int := rank - axis - lib.rank y
    -- A count that is no machine word is refused, also where nothing would be added.
    if trailing < -0x8000000000000000 then .error .tooLarge
    else lib.reshape (lib.shape y ++ List.replicate trailing.toNat 1) y
  else .ok y

/-- The addition of an operator; without an axis, the operands meet at their last dimension. -/
def Op.add (op : Op) (x y : τ) : Except Error τ := do
  lib.add x (← lib.alignAxis (← op.intAttr "axis" (-1)) (lib.rank x) y)

/-- The smallest summand under a root. -/
def defaultEpsilon : Value := .real (Decimal.toBinary64 ⟨false, 1, -5⟩)

def Op.normalize (op : Op) (s : Statistics τ) (x : τ) : Except Error τ := do
  let epsilon ← ((op.attrs.get? (.text "epsilon")).getD defaultEpsilon).toReal
  lib.batchNorm s epsilon x

def Stage.run (op : Op) (scope : Scope τ) (x : τ) : Stage → Except Error τ
  | .conv depthwise kernel => do
      op.convolve lib depthwise x (← scope.fetch (← op.paramName kernel))
  | .add operand => do op.add lib x (← scope.fetch (← op.paramName operand))
  | .norm scale bias mean variance => do
      let s : Statistics τ := {
        scale := ← scope.fetch (← op.paramName scale)
        bias := ← scope.fetch (← op.paramName bias)
        mean := ← scope.fetch (← op.paramName mean)
        variance := ← scope.fetch (← op.paramName variance) }
      op.normalize lib s x
  | .relu => lib.relu x

def Operator.run (o : Operator) (op : Op) (scope : Scope τ) : Except Error (Scope τ) := do
  let x ← scope.fetch (← op.inputName o.input)
  let y ← o.stages.foldlM (Stage.run lib op scope) x
  scope.store (← op.outputName o.output) y

end

end TensorFusion
