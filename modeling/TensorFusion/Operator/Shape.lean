import TensorFusion.Operator.Basic

/-!
# Operator — Shape

The shapes of results, from the shapes of operands alone. Sizes are taken as they come: a size is
computed with only where a convolution needs it as a number.
-/

namespace TensorFusion

namespace Op

def convExtent (size kernel : Value) (padding dilation stride : Int) : Except Error Value := do
  let padded ← (← size.number).addInt (2 * padding)
  let reach ← (← (← kernel.number).addInt (-1)).mulInt dilation
  let slack ← (← padded.sub reach).addInt (-1)
  return (← (← slack.floorDivInt stride).addInt 1).toValue

/-- The shape of a convolution. Image and kernel need four dimensions each. -/
def convShape (op : Op) (shapes : Scope (List Value)) (input kernel : String) :
    Except Error (List Value) := do
  match ← shapes.fetch (← op.inputName input) with
  | [images, _, height, width] =>
      match ← shapes.fetch (← op.paramName kernel) with
      | [outs, _, rows, columns] =>
          let strides ← op.pairAttr "strides" 1
          let paddings ← op.pairAttr "paddings" 0
          let dilations ← op.pairAttr "dilations" 1
          let down ← convExtent height rows paddings.1 dilations.1 strides.1
          let across ← convExtent width columns paddings.2 dilations.2 strides.2
          return [images, outs, down, across]
      | _ => throw .unreadable
  | _ => throw .unreadable

end Op

/-- Finds the shape of what an operator computes. Only a convolution changes the shape of the
input; what follows it keeps the shape. -/
def Operator.inferShape (o : Operator) (op : Op) (shapes : Scope (List Value)) :
    Except Error (Scope (List Value)) := do
  let shape ← match o.stages with
    | .conv _ kernel :: _ => op.convShape shapes o.input kernel
    | _ => shapes.fetch (← op.inputName o.input)
  shapes.store (← op.outputName o.output) shape

end TensorFusion
