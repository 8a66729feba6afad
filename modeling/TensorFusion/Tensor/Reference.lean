import TensorFusion.Tensor.Broadcast
import TensorFusion.Tensor.Library

/-!
# Tensor — Reference

A library of tensors in row-major order, over any numbers. The convolution is a correlation of a
batch of images with a kernel that is not turned: an image is surrounded by zeros, the kernel is
spread by its dilation and moved by its stride, and the channels are split into groups that do not
see each other. A normalization goes channel by channel, along the second dimension.
-/

namespace TensorFusion

/-- What tensors are computed with. -/
structure Numbers (α : Type) where
  zero : α
  add : α → α → α
  mul : α → α → α
  /-- Normalizes a number by the statistics of its channel. -/
  normalize : Statistics α → Binary64 → α → α
  rectify : α → α

/-- Machine numbers. A normalization is a line in the number, and what is no number is not
rectified. -/
def Numbers.doubles : Numbers Float where
  zero := 0
  add := (· + ·)
  mul := (· * ·)
  normalize s epsilon x :=
    let deviation := Float.sqrt (s.variance + epsilon.toFloat)
    let slope := (1 / deviation) * s.scale
    x * slope + (s.bias - s.mean * slope)
  rectify x := if x < 0 then 0 else x

/-- A kernel moves forward over an image that does not shrink. -/
def Window.IsSound (p : Window) : Prop :=
  (0 < p.strides.1 ∧ 0 < p.strides.2) ∧ (0 ≤ p.paddings.1 ∧ 0 ≤ p.paddings.2) ∧
    (0 < p.dilations.1 ∧ 0 < p.dilations.2) ∧ 0 < p.groups

instance (p : Window) : Decidable p.IsSound := inferInstanceAs (Decidable (_ ∧ _ ∧ _ ∧ _))

namespace Tensor

variable {α : Type} [Inhabited α] (n : Numbers α)

/-- An element of an image, or zero around it. -/
def pixel (x : Tensor α) (image channel height width : Nat) (row column : Int) : α :=
  if 0 ≤ row ∧ row < height ∧ 0 ≤ column ∧ column < width then
    x.get [image, channel, row.toNat, column.toNat]
  else n.zero

/-- The sum of a function over the positions below given bounds. -/
def sumOver (bounds : List Nat) (term : List Nat → α) : α :=
  (Shape.indices bounds).foldl (fun total index => n.add total (term index)) n.zero

/-- An element of a convolution. The kernel has `depth` channels, and `perGroup` of its outputs see
the same group of channels. -/
def convolveAt (p : Window) (x kernel : Tensor α) (height width depth rows columns : Nat)
    (perGroup : Nat) : List Nat → α
  | [image, out, row, column] =>
      let first := out / perGroup * depth
      let top : Int := row * p.strides.1 - p.paddings.1
      let left : Int := column * p.strides.2 - p.paddings.2
      sumOver n [depth, rows, columns] fun
        | [c, i, j] =>
            n.mul (kernel.get [out, c, i, j])
              (pixel n x image (first + c) height width (top + i * p.dilations.1)
                (left + j * p.dilations.2))
        | _ => n.zero
  | _ => n.zero

/-- Moves a kernel over a batch of images, as long as it fits into them and the channels are those
of its groups. -/
def convolve (p : Window) (x kernel : Tensor α) : Except Error (Tensor α) :=
  match x.shape, kernel.shape with
  | [images, channels, height, width], [outs, depth, rows, columns] =>
      let groups := p.groups.toNat
      let down := Window.extent height rows p.paddings.1 p.dilations.1 p.strides.1
      let across := Window.extent width columns p.paddings.2 p.dilations.2 p.strides.2
      if p.IsSound ∧ groups ≤ outs ∧ outs % groups = 0 ∧ channels = depth * groups ∧
          0 < down ∧ 0 < across then
        .ok (ofFn [images, outs, down.toNat, across.toNat]
          (convolveAt n p x kernel height width depth rows columns (outs / groups)))
      else .error .tensorMismatch
  | _, _ => .error .tensorMismatch

/-- Normalizes along the second dimension. Each statistic has one element for each channel. -/
def normalize (s : Statistics (Tensor α)) (epsilon : Binary64) (x : Tensor α) :
    Except Error (Tensor α) :=
  match x.shape with
  | _ :: channels :: _ =>
      if s.scale.shape = [channels] ∧ s.bias.shape = [channels] ∧ s.mean.shape = [channels] ∧
          s.variance.shape = [channels] then
        .ok (ofFn x.shape fun index =>
          let channel := [index.getD 1 0]
          n.normalize ⟨s.scale.get channel, s.bias.get channel, s.mean.get channel,
            s.variance.get channel⟩ epsilon (x.get index))
      else .error .tensorMismatch
  | _ => .error .tensorMismatch

/-- Tensors in row-major order as a library. -/
def library : TensorLibrary (Tensor α) where
  shape := shape
  conv2d := convolve n
  reshape shape x :=
    if h : Shape.count shape = Shape.count x.shape then .ok (x.reshape shape h)
    else .error .tensorMismatch
  add := zip n.add
  batchNorm := normalize n
  relu x := .ok (x.map n.rectify)

end Tensor

end TensorFusion
