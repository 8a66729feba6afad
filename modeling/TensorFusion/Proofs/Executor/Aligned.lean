import Mathlib.Data.List.Forall2
import TensorFusion.Operator.Run
import TensorFusion.Proofs.Executor.Rules
import TensorFusion.Proofs.Results
import TensorFusion.Proofs.Sample

/-!
# Proofs — Executor — Aligned

Additions along an axis. The second operand gets dimensions of size one behind its own, so that
joining the shapes at their last dimension puts its first dimension where the axis says. Elements
stand in row-major order, and a dimension of size one does not move the others: the element that is
read is the one at the part of the position that belongs to the second operand. So every library
that holds its tensors in row-major order adds them as is wanted, whatever its numbers are.
-/

namespace TensorFusion

namespace Shape

/-- A position inside a shape: one entry below each size. -/
abbrev HasIndex (shape index : List Nat) : Prop := List.Forall₂ (· < ·) index shape

/-! ## Row-major order -/

theorem offset_lt {shape index : List Nat} (h : HasIndex shape index) :
    offset shape index < count shape := by
  induction h with
  | nil => exact Nat.one_pos
  | @cons i n index shape hi _ ih =>
    calc i * count shape + offset shape index
        < i * count shape + count shape := Nat.add_lt_add_left ih _
      _ = (i + 1) * count shape := (Nat.succ_mul ..).symm
      _ ≤ n * count shape := Nat.mul_le_mul_right _ hi

/-- In lists of one length that are joined, an element is found by its list and its place there. -/
theorem getElem?_flatMap {α β : Type} {f : α → List β} {width k : Nat}
    (hf : ∀ a, (f a).length = width) (hk : k < width) (as : List α) (i : Nat) :
    (as.flatMap f)[i * width + k]? = as[i]?.bind fun a => (f a)[k]? := by
  induction as generalizing i with
  | nil => rfl
  | cons a as ih =>
    rw [List.flatMap_cons]
    cases i with
    | zero =>
      rw [Nat.zero_mul, Nat.zero_add, List.getElem?_append_left (by rw [hf]; exact hk)]
      rfl
    | succ i =>
      have hplace : (i + 1) * width + k - width = i * width + k := by
        rw [Nat.succ_mul]
        omega
      rw [List.getElem?_append_right (by rw [hf, Nat.succ_mul]; omega), hf, hplace, ih]
      rfl

/-- Positions are listed in the order in which their elements stand. -/
theorem getElem?_indices {shape index : List Nat} (h : HasIndex shape index) :
    (indices shape)[offset shape index]? = some index := by
  induction h with
  | nil => rfl
  | @cons i n index shape hi hrest ih =>
    have hwidth (i : Nat) : ((indices shape).map (i :: ·)).length = count shape := by
      rw [List.length_map, length_indices]
    show ((List.range n).flatMap fun i => (indices shape).map (i :: ·))[
      i * count shape + offset shape index]? = _
    rw [getElem?_flatMap hwidth (offset_lt hrest), List.getElem?_range hi, Option.bind_some,
      List.getElem?_map, ih]
    rfl

end Shape

namespace Tensor

variable {α β γ : Type}

theorem get_ofFn [Inhabited α] {shape index : List Nat} (h : Shape.HasIndex shape index)
    (element : List Nat → α) : (ofFn shape element).get index = element index := by
  have hpos : Shape.count shape ≠ 0 := Nat.ne_zero_of_lt (Shape.offset_lt h)
  have hdata : (ofFn shape element).data = ((Shape.indices shape).map element).toArray :=
    if_neg hpos
  have hplace := Shape.getElem?_indices h
  rw [get, hdata, Array.getD_eq_getD_getElem?, List.getElem?_toArray, List.getElem?_map]
  show Option.getD (Option.map element (Shape.indices shape)[Shape.offset shape index]?) _ = _
  rw [hplace]
  rfl

end Tensor

/-! ## Joined shapes -/

namespace Shape

/-- Sizes that are one or agree with those of a shape are joined into it. -/
theorem joinSizes_of_forall₂ {s t : List Nat}
    (h : List.Forall₂ (fun m n => n = 1 ∨ n = m) s t) : joinSizes s t = some s := by
  induction h with
  | nil => rfl
  | @cons m n s t hmn _ ih =>
    have hjoin : joinSize m n = some m := by
      unfold joinSize
      obtain rfl | rfl := hmn
      · split
        · rfl
        · split <;> simp_all
      · rw [if_pos rfl]
    rw [joinSizes, hjoin, ih]
    rfl

/-- Between sizes of one, in place of the sizes of a larger shape, stand those of a shape that are one
or agree with them. -/
theorem forall₂_between_ones {s t : List Nat} {axis k : Nat} (hk : axis + t.length + k = s.length)
    (hsizes : ∀ j n, t[j]? = some n → n = 1 ∨ s[axis + j]? = some n) :
    List.Forall₂ (fun m n => n = 1 ∨ n = m) s
      (List.replicate axis 1 ++ (t ++ List.replicate k 1)) := by
  rw [List.forall₂_iff_get]
  constructor
  · simp only [List.length_append, List.length_replicate]
    omega
  · intro j hj hj'
    have hj' : j < axis + (t.length + k) := by
      simpa using hj'
    rw [List.get_eq_getElem, List.get_eq_getElem]
    show (List.replicate axis 1 ++ (t ++ List.replicate k 1))[j] = 1 ∨
      (List.replicate axis 1 ++ (t ++ List.replicate k 1))[j] = s[j]
    by_cases hbefore : j < axis
    · left
      rw [List.getElem_append_left (by simpa using hbefore), List.getElem_replicate]
    · rw [List.getElem_append_right (by simpa using hbefore)]
      simp only [List.length_replicate]
      by_cases hinside : j - axis < t.length
      · rw [List.getElem_append_left hinside]
        obtain hone | hsize := hsizes _ _ (List.getElem?_eq_getElem hinside)
        · exact .inl hone
        · right
          rw [show axis + (j - axis) = j by omega, List.getElem?_eq_getElem hj] at hsize
          exact (Option.some.inj hsize).symm
      · left
        rw [List.getElem_append_right (by omega), List.getElem_replicate]

/-- A shape that is placed along an axis is joined into the larger one. -/
theorem broadcast?_aligned {s t : List Nat} {axis k : Nat} (hk : axis + t.length + k = s.length)
    (hsizes : ∀ j n, t[j]? = some n → n = 1 ∨ s[axis + j]? = some n) :
    broadcast? s (t ++ List.replicate k 1) = some s := by
  have hlength : (t ++ List.replicate k 1).length = t.length + k := by
    rw [List.length_append, List.length_replicate]
  have hrank : max s.length (t ++ List.replicate k 1).length = s.length := by omega
  have hfront : s.length - (t ++ List.replicate k 1).length = axis := by omega
  have hwhole : padFront s.length s = s := by
    rw [padFront, Nat.sub_self]
    rfl
  rw [broadcast?, hrank, hwhole, padFront, hfront]
  exact joinSizes_of_forall₂ (forall₂_between_ones hk hsizes)

end Shape

/-! ## Dimensions of size one -/

namespace Shape

/-- The entry of a position that counts along a dimension: the only one if its size is one. -/
abbrev entry (n i : Nat) : Nat := if n = 1 then 0 else i

theorem project_self {shape index : List Nat} (h : HasIndex shape index) :
    project shape index = index := by
  have hlength : index.length = shape.length := h.length_eq
  rw [project, hlength, Nat.sub_self, List.drop_zero]
  clear hlength
  induction h with
  | nil => rfl
  | @cons i n index shape hi _ ih =>
    rw [List.zipWith_cons_cons, ih]
    split
    · rw [show i = 0 by omega]
    · rfl

theorem count_append_ones (shape : List Nat) (k : Nat) :
    count (shape ++ List.replicate k 1) = count shape := by
  induction shape with
  | nil =>
    induction k with
    | zero => rfl
    | succ k ih => simpa [List.replicate_succ, count] using ih
  | cons n rest ih => simp [count, ih]

theorem offset_ones (k : Nat) (index : List Nat) :
    offset (List.replicate k 1) (List.zipWith entry (List.replicate k 1) index) = 0 := by
  induction k generalizing index with
  | zero => rfl
  | succ k ih =>
    cases index with
    | nil => rfl
    | cons i index =>
      rw [List.replicate_succ, List.zipWith_cons_cons, offset, ih, entry, if_pos rfl, Nat.zero_mul]

/-- Dimensions of size one behind the others do not change where an element stands. -/
theorem offset_append_ones (shape : List Nat) (k : Nat) (index : List Nat) :
    offset (shape ++ List.replicate k 1)
        (List.zipWith entry (shape ++ List.replicate k 1) index)
      = offset shape (List.zipWith entry shape index) := by
  induction shape generalizing index with
  | nil => exact offset_ones k index
  | cons n shape ih =>
    cases index with
    | nil => rfl
    | cons i index =>
      rw [List.cons_append, List.zipWith_cons_cons, List.zipWith_cons_cons, offset, offset, ih,
        count_append_ones]

/-- The entries of a position from an axis on, those along dimensions of size one set to zero. -/
theorem mapIdx_eq_zipWith {shape index : List Nat} {axis : Nat}
    (h : axis + shape.length ≤ index.length) :
    (shape.mapIdx fun j n => if n = 1 then 0 else index.getD (axis + j) 0)
      = List.zipWith entry shape (index.drop axis) := by
  apply List.ext_getElem?
  intro j
  rw [List.getElem?_mapIdx, List.getElem?_zipWith, List.getElem?_drop]
  cases hn : shape[j]? with
  | none => rfl
  | some n =>
    obtain ⟨hj, -⟩ := List.getElem?_eq_some_iff.mp hn
    have hplace : axis + j < index.length := by omega
    rw [List.getD_eq_getElem?_getD, List.getElem?_eq_getElem hplace]
    rfl

end Shape

namespace Tensor

variable {α β γ : Type} {x : Tensor α} {y : Tensor β} {axis : Nat}

/-- Dimensions of size one added behind the others. -/
def addTrailing (t : Tensor α) (k : Nat) : Tensor α :=
  t.reshape (t.shape ++ List.replicate k 1) (Shape.count_append_ones t.shape k)

/-- The element of an operand with dimensions of size one behind its own, where the operand is
placed along an axis. -/
theorem get_addTrailing [Inhabited β] {k : Nat} {index : List Nat}
    (hk : axis + y.rank + k = index.length) :
    (y.addTrailing k).get (Shape.project (y.addTrailing k).shape index)
      = y.get (y.shape.mapIdx fun j n => if n = 1 then 0 else index.getD (axis + j) 0) := by
  have hshape : (y.addTrailing k).shape = y.shape ++ List.replicate k 1 := rfl
  have hlength : index.length - (y.shape ++ List.replicate k 1).length = axis := by
    rw [List.length_append, List.length_replicate]
    show _ - (y.rank + k) = axis
    omega
  have hroom : axis + y.shape.length ≤ index.length := by
    show axis + y.rank ≤ _
    omega
  rw [Shape.mapIdx_eq_zipWith hroom, get, get, hshape, Shape.project, hlength]
  show y.data.getD _ _ = _
  rw [Shape.offset_append_ones]

/-- Joined with an operand that is placed along an axis, a tensor keeps its shape. -/
theorem zip_addTrailing [Inhabited α] [Inhabited β] [Inhabited γ] (f : α → β → γ) {k : Nat}
    (hk : axis + y.rank + k = x.rank)
    (hsizes : ∀ j n, y.shape[j]? = some n → n = 1 ∨ x.shape[axis + j]? = some n) :
    ∃ z, x.zip f (y.addTrailing k) = .ok z ∧ z.shape = x.shape ∧
      ∀ index, Shape.HasIndex x.shape index → z.get index = f (x.get index)
        (y.get (y.shape.mapIdx fun j n => if n = 1 then 0 else index.getD (axis + j) 0)) := by
  have hshape : Shape.broadcast? x.shape (y.addTrailing k).shape = some x.shape :=
    Shape.broadcast?_aligned hk hsizes
  refine ⟨_, by rw [zip, hshape], rfl, ?_⟩
  intro index hindex
  have hlength : axis + y.rank + k = index.length := hk.trans hindex.length_eq.symm
  rw [get_ofFn hindex, Shape.project_self hindex, get_addTrailing hlength]

end Tensor

/-- A second operand for which there is room behind the axis gets dimensions of size one behind its
own. -/
theorem TensorLibrary.alignAxis_eq {τ : Type} (lib : TensorLibrary τ) {axis rank : Nat} {y : τ}
    (hrank : lib.rank y < rank) (hroom : axis + lib.rank y ≤ rank) : lib.alignAxis axis rank y
      = lib.reshape (lib.shape y ++ List.replicate (rank - axis - lib.rank y) 1) y := by
  have hword : ¬ ((rank : Int) - axis - lib.rank y < -0x8000000000000000) := by omega
  have htrailing : ((rank : Int) - axis - lib.rank y).toNat = rank - axis - lib.rank y := by omega
  rw [alignAxis, if_pos ⟨by omega, hrank⟩]
  simp only [if_neg hword, htrailing]

/-- The addition along an axis, with any library that holds its tensors in row-major order. Where
each size of the second operand is one or agrees with the size of the first operand at its place,
there is a sum, and it has the shape of the first operand. To each of its elements the second operand
gives the one at the entries that belong to it, where a dimension of size one has a single entry. -/
theorem Op.add_aligned {τ α : Type} [Inhabited α] {lib : TensorLibrary τ} {view : τ → Tensor α}
    {plus : α → α → α} (hlib : lib.IsRowMajor view plus) {op : Op} {x y : τ} {axis : Nat}
    (haxis : op.intAttr "axis" (-1) = .ok axis) (hrank : lib.rank y < lib.rank x)
    (hroom : axis + lib.rank y ≤ lib.rank x)
    (hsizes : ∀ j n, (lib.shape y)[j]? = some n → n = 1 ∨ (lib.shape x)[axis + j]? = some n) :
    ∃ z, op.add lib x y = .ok z ∧ lib.shape z = lib.shape x ∧
      ∀ index, Shape.HasIndex (lib.shape x) index → (view z).get index
        = plus ((view x).get index) ((view y).get
            ((lib.shape y).mapIdx fun j n => if n = 1 then 0 else index.getD (axis + j) 0)) := by
  have hrankX : (view x).rank = lib.rank x := congrArg List.length (hlib.shape x).symm
  have hrankY : (view y).rank = lib.rank y := congrArg List.length (hlib.shape y).symm
  rw [hlib.shape x, hlib.shape y] at hsizes
  have hk : axis + (view y).rank + (lib.rank x - axis - lib.rank y) = (view x).rank := by omega
  obtain ⟨sum, hsum, hshape, hget⟩ := Tensor.zip_addTrailing plus hk hsizes
  -- The operand is aligned in the library as it is aligned in view.
  obtain ⟨y', hy', hview⟩ :=
    hlib.reshape (Shape.count_append_ones (view y).shape (lib.rank x - axis - lib.rank y))
  obtain ⟨z, hz, hviewZ⟩ := hlib.add (x := x) (y := y') (z := sum) (by rw [hview]; exact hsum)
  refine ⟨z, ?_, ?_, ?_⟩
  · rw [add, haxis, ok_bind, lib.alignAxis_eq hrank hroom, hlib.shape y, hy', ok_bind, hz]
  · rw [hlib.shape z, hlib.shape x, hviewZ, hshape]
  · intro index hindex
    rw [hlib.shape x] at hindex
    rw [hviewZ, hget index hindex, hlib.shape y]

/-- Two images with three channels. -/
def imageBatch : Tensor Float := .ofFn [2, 3, 4, 5] fun index => Float.ofNat (index.getD 3 0)

/-- One number for each of three channels, under a dimension for the rows. -/
def channelNumbers : Tensor Float := .ofFn [3, 1] fun index => Float.ofNat (index.getD 0 0)

/-- An addition along the second dimension. -/
def channelAdd : Op :=
  { Op.ofTexts "elementwise_add" [("X", ["x"])] [("Out", ["t"])] [("Y", ["b"])] with
    attrs := .ofList [(.text "axis", .int 1)] }

theorem add_aligned_channelAdd :
    (Tensor.library Numbers.doubles).IsRowMajor id (· + ·) ∧
    channelAdd.intAttr "axis" (-1) = .ok (1 : Nat) ∧
    channelNumbers.rank < imageBatch.rank ∧ 1 + channelNumbers.rank ≤ imageBatch.rank ∧
    (∀ j n, channelNumbers.shape[j]? = some n → n = 1 ∨ imageBatch.shape[1 + j]? = some n) ∧
    ∃ z, channelAdd.add (Tensor.library .doubles) imageBatch channelNumbers = .ok z ∧
      z.shape = imageBatch.shape ∧
      z.get [1, 2, 3, 4] = imageBatch.get [1, 2, 3, 4] + channelNumbers.get [2, 0] := by
  have hlib : (Tensor.library Numbers.doubles).IsRowMajor id (· + ·) :=
    Tensor.library_isRowMajor .doubles
  have haxis : channelAdd.intAttr "axis" (-1) = .ok (1 : Nat) := rfl
  have hrank : channelNumbers.rank < imageBatch.rank := by decide
  have hroom : 1 + channelNumbers.rank ≤ imageBatch.rank := by decide
  have hsizes : ∀ j n, channelNumbers.shape[j]? = some n →
      n = 1 ∨ imageBatch.shape[1 + j]? = some n := by
    intro j n hn
    cases j with
    | zero => exact .inr hn
    | succ j =>
      cases j with
      | zero => exact .inl (Option.some.inj hn).symm
      | succ j => cases hn
  obtain ⟨z, hadd, hshape, hget⟩ :=
    Op.add_aligned (x := imageBatch) (y := channelNumbers) hlib haxis hrank hroom hsizes
  have hindex : Shape.HasIndex imageBatch.shape [1, 2, 3, 4] := by
    show List.Forall₂ (· < ·) [1, 2, 3, 4] [2, 3, 4, 5]
    simp
  exact ⟨hlib, haxis, hrank, hroom, hsizes, z, hadd, hshape, hget _ hindex⟩

end TensorFusion
