import TensorFusion.Error
import TensorFusion.Number.Binary64

/-!
# Tensor — Library

The operations on tensors that operators are made of. They come from a library of tensors, which may
hold its tensors and compute with them as it likes; a program only calls it.
-/

namespace TensorFusion

/-- How a kernel is moved over an image; pairs are height and width. -/
structure Window where
  strides : Int × Int
  paddings : Int × Int
  dilations : Int × Int
  groups : Int

namespace Window

/-- How many places there are for a spread kernel along one dimension of a padded image. -/
def extent (size kernel : Nat) (padding dilation stride : Int) : Int :=
  Int.fdiv (size + 2 * padding - dilation * (kernel - 1) - 1) stride + 1

/-- The shape of a convolution, from those of the images and the kernel. -/
def resultShape (p : Window) : List Nat → List Nat → Option (List Int)
  | [images, _, height, width], [outs, _, rows, columns] =>
      some [images, outs, extent height rows p.paddings.1 p.dilations.1 p.strides.1,
        extent width columns p.paddings.2 p.dilations.2 p.strides.2]
  | _, _ => none

end Window

/-- The statistics of a normalization and the line that is applied after it. -/
structure Statistics (τ : Type) where
  scale : τ
  bias : τ
  mean : τ
  variance : τ

/-- A library of tensors: the sizes of a tensor along its dimensions, and the operations that
operators call. -/
structure TensorLibrary (τ : Type) where
  shape : τ → List Nat
  /-- Moves a kernel over images. -/
  conv2d (window : Window) (x kernel : τ) : Except Error τ
  /-- Sees the elements of a tensor under another shape. -/
  reshape (shape : List Nat) (x : τ) : Except Error τ
  /-- Adds tensors element by element, one of them repeated where it is smaller. -/
  add (x y : τ) : Except Error τ
  /-- Normalizes by given statistics, with a smallest summand under the root. -/
  batchNorm (s : Statistics τ) (epsilon : Binary64) (x : τ) : Except Error τ
  relu (x : τ) : Except Error τ

namespace TensorLibrary

variable {τ : Type}

/-- The number of dimensions of a tensor. -/
def rank (lib : TensorLibrary τ) (x : τ) : Nat := (lib.shape x).length

end TensorLibrary

end TensorFusion
