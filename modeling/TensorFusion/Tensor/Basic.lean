/-!
# Tensor — Basic

Tensors as a shape and the elements in row-major order, the last position changing fastest.
-/

namespace TensorFusion

namespace Shape

def count : List Nat → Nat
  | [] => 1
  | n :: rest => n * count rest

def indices : List Nat → List (List Nat)
  | [] => [[]]
  | n :: rest => (List.range n).flatMap fun i => (indices rest).map (i :: ·)

def offset : List Nat → List Nat → Nat
  | _ :: rest, i :: is => i * count rest + offset rest is
  | _, _ => 0

theorem length_indices (shape : List Nat) : (indices shape).length = count shape := by
  induction shape with
  | nil => rfl
  | cons n rest ih =>
    simp [indices, count, List.length_flatMap, ih, List.map_const']

end Shape

/-- A tensor: as many elements as its shape has positions. -/
structure Tensor (α : Type) where
  shape : List Nat
  data : Array α
  size_data : data.size = Shape.count shape

namespace Tensor

variable {α β : Type}

def rank (t : Tensor α) : Nat := t.shape.length

def get [Inhabited α] (t : Tensor α) (index : List Nat) : α :=
  t.data.getD (Shape.offset t.shape index) default

/-- The tensor with a given element at each position. Where there is none, the positions are not
gone through. -/
def ofFn (shape : List Nat) (element : List Nat → α) : Tensor α where
  shape := shape
  data := if Shape.count shape = 0 then #[] else ((Shape.indices shape).map element).toArray
  size_data := by
    split
    · simp [*]
    · simp [Shape.length_indices]

def map (f : α → β) (t : Tensor α) : Tensor β where
  shape := t.shape
  data := t.data.map f
  size_data := by simp [t.size_data]

/-- The elements of a tensor under another shape with as many positions. -/
def reshape (t : Tensor α) (shape : List Nat) (h : Shape.count shape = Shape.count t.shape) :
    Tensor α where
  shape := shape
  data := t.data
  size_data := by rw [t.size_data, h]

end Tensor

end TensorFusion
