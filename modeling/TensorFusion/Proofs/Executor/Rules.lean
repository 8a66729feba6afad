import TensorFusion.Tensor.Reference

/-!
# Proofs — Executor — Rules

What is known of a library of tensors. Its operations give results of certain shapes: a convolution
has for each dimension the number of places where the spread kernel fits into the padded image, a sum
has the common shape of its operands, a normalization and a rectification keep the shape. A library
may also hold its elements in row-major order, and reshape and add them accordingly. The reference
library does all this, over any numbers.
-/

namespace TensorFusion

namespace TensorLibrary

/-- The shapes of results are those that the operations are known to give. Where images of four
dimensions are convolved, the kernel has as many and moves forward. -/
structure HasShapeRules {τ : Type} (lib : TensorLibrary τ) : Prop where
  strides_pos {p : Window} {x kernel y : τ} : lib.rank x = 4 → lib.conv2d p x kernel = .ok y →
    0 < p.strides.1 ∧ 0 < p.strides.2
  conv2d {p : Window} {x kernel y : τ} : lib.rank x = 4 → lib.conv2d p x kernel = .ok y →
    p.resultShape (lib.shape x) (lib.shape kernel) = some ((lib.shape y).map Int.ofNat)
  add {x y z : τ} : lib.add x y = .ok z →
    Shape.broadcast? (lib.shape x) (lib.shape y) = some (lib.shape z)
  batchNorm {s : Statistics τ} {epsilon : Binary64} {x y : τ} :
    lib.batchNorm s epsilon x = .ok y → lib.shape y = lib.shape x
  relu {x y : τ} : lib.relu x = .ok y → lib.shape y = lib.shape x

/-- Tensors can be seen as elements in row-major order. Under another shape with as many positions
the elements stay as they are, and tensors that can be joined are added element by element. -/
structure IsRowMajor {τ α : Type} [Inhabited α] (lib : TensorLibrary τ) (view : τ → Tensor α)
    (plus : α → α → α) : Prop where
  shape (x : τ) : lib.shape x = (view x).shape
  reshape {x : τ} {shape : List Nat} (h : Shape.count shape = Shape.count (view x).shape) :
    ∃ y, lib.reshape shape x = .ok y ∧ view y = (view x).reshape shape h
  add {x y : τ} {z : Tensor α} (h : (view x).zip plus (view y) = .ok z) :
    ∃ z', lib.add x y = .ok z' ∧ view z' = z

end TensorLibrary

/-! ## The reference library -/

namespace Tensor

variable {α : Type} [Inhabited α] {n : Numbers α} {p : Window} {x kernel y z : Tensor α}

theorem shape_zip {f : α → α → α} (h : x.zip f y = .ok z) :
    Shape.broadcast? x.shape y.shape = some z.shape := by
  unfold zip at h
  split at h
  next shape hshape =>
    cases h
    exact hshape
  next => cases h

/-- What is known of a convolution that is computed. -/
theorem convolve_eq_ok (h : convolve n p x kernel = .ok y) :
    (0 < p.strides.1 ∧ 0 < p.strides.2) ∧
      p.resultShape x.shape kernel.shape = some (y.shape.map Int.ofNat) := by
  unfold convolve at h
  split at h
  next images channels height width outs depth rows columns hx hkernel =>
    simp only at h
    split at h
    next hfits =>
      obtain ⟨⟨hstrides, -⟩, -, -, -, hdown, hacross⟩ := hfits
      cases h
      refine ⟨hstrides, ?_⟩
      simp only [hx, hkernel, Window.resultShape, ofFn, List.map_cons, List.map_nil,
        Int.ofNat_eq_natCast, Int.toNat_of_nonneg (Int.le_of_lt hdown),
        Int.toNat_of_nonneg (Int.le_of_lt hacross)]
    · cases h
  · cases h

theorem shape_normalize {s : Statistics (Tensor α)} {epsilon : Binary64}
    (h : normalize n s epsilon x = .ok y) : y.shape = x.shape := by
  unfold normalize at h
  split at h
  · split at h
    · cases h
      rfl
    · cases h
  · cases h

theorem library_hasShapeRules (n : Numbers α) : (library n).HasShapeRules where
  strides_pos := fun _ h => (convolve_eq_ok h).1
  conv2d := fun _ h => (convolve_eq_ok h).2
  add := fun h => shape_zip h
  batchNorm := fun h => shape_normalize h
  relu := fun h => by
    cases h
    rfl

theorem library_isRowMajor (n : Numbers α) : (library n).IsRowMajor id n.add where
  shape := fun _ => rfl
  reshape := fun h => ⟨_, dif_pos h, rfl⟩
  add := fun h => ⟨_, h, rfl⟩

end Tensor

end TensorFusion
