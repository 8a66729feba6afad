import Mathlib.Data.Set.List
import TensorFusion.Proofs.Equality
import TensorFusion.Proofs.Program.Document

/-!
# Proofs — Program — Normal

Documents in normal form: all fields, in one order, all that is walked through as lists, and
entries with distinct keys. These are just the documents that programs are written as. Whatever a
program is read from, its document is in normal form and is left as it is from then on.
-/

namespace TensorFusion

namespace Value

/-- Slots in normal form: lists of names under distinct keys, in any order. -/
def IsNormalSlots (v : Value) : Prop :=
  ∃ entries : List (Atom × List Value),
    v = .map (entries.map fun e => (e.1, .list e.2)) ∧ (entries.map fun e => e.1.key).Nodup

/-- Attributes in normal form: any values under distinct keys, in any order. -/
def IsNormalAttrs (v : Value) : Prop :=
  ∃ entries, v = .map entries ∧ (entries.map fun e => e.1.key).Nodup

/-- An operator in normal form. -/
def IsNormalOp (v : Value) : Prop :=
  ∃ opType inputs outputs attrs params,
    v = .map [(.text "type", opType), (.text "inputs", inputs), (.text "outputs", outputs),
      (.text "attrs", attrs), (.text "params", params)] ∧
    inputs.IsNormalSlots ∧ outputs.IsNormalSlots ∧ attrs.IsNormalAttrs ∧ params.IsNormalSlots

/-- A declared tensor in normal form: its sizes are a list, and it is persistable or not. -/
def IsNormalVariable (v : Value) : Prop :=
  ∃ name dtype shape persistable,
    v = .map [(.text "name", name), (.text "dtype", dtype), (.text "shape", .list shape),
      (.text "persistable", .bool persistable)]

/-- A block in normal form. -/
def IsNormalBlock (v : Value) : Prop :=
  ∃ vars ops, v = .map [(.text "vars", .list vars), (.text "ops", .list ops)] ∧
    (∀ x ∈ vars, x.IsNormalVariable) ∧ ∀ x ∈ ops, x.IsNormalOp

/-- The document of a program in normal form. -/
def IsNormal (v : Value) : Prop :=
  ∃ blocks, v = .map [(.text "blocks", .list blocks)] ∧ ∀ x ∈ blocks, x.IsNormalBlock

end Value

/-- A list is made by a function if each of its elements is. -/
theorem exists_map_eq {α β : Type} {f : α → β} {bs : List β} :
    (∃ as : List α, as.map f = bs) ↔ ∀ b ∈ bs, ∃ a, f a = b :=
  Set.ext_iff.mp (Set.range_list_map f) bs

/-! ## What is written -/

variable {v : Value}

theorem Slots.isNormal_iff : v.IsNormalSlots ↔ ∃ slots : Slots, slots.toValue = v := by
  constructor
  · intro h
    obtain ⟨entries, rfl, hdistinct⟩ := h
    exact ⟨⟨entries, hdistinct⟩, rfl⟩
  · intro h
    obtain ⟨slots, rfl⟩ := h
    exact ⟨slots.entries, rfl, slots.distinct⟩

theorem Table.isNormal_iff : v.IsNormalAttrs ↔ ∃ attrs : Table Value, .map attrs.entries = v := by
  constructor
  · intro h
    obtain ⟨entries, rfl, hdistinct⟩ := h
    exact ⟨⟨entries, hdistinct⟩, rfl⟩
  · intro h
    obtain ⟨attrs, rfl⟩ := h
    exact ⟨attrs.entries, rfl, attrs.distinct⟩

theorem Op.isNormal_iff : v.IsNormalOp ↔ ∃ op : Op, op.toValue = v := by
  constructor
  · intro h
    obtain ⟨opType, inputs, outputs, attrs, params, rfl, hin, hout, hattrs, hparams⟩ := h
    obtain ⟨inputs, rfl⟩ := Slots.isNormal_iff.mp hin
    obtain ⟨outputs, rfl⟩ := Slots.isNormal_iff.mp hout
    obtain ⟨attrs, rfl⟩ := Table.isNormal_iff.mp hattrs
    obtain ⟨params, rfl⟩ := Slots.isNormal_iff.mp hparams
    exact ⟨{ opType, inputs, outputs, attrs, params }, rfl⟩
  · intro h
    obtain ⟨op, rfl⟩ := h
    exact ⟨_, _, _, _, _, rfl, Slots.isNormal_iff.mpr ⟨_, rfl⟩, Slots.isNormal_iff.mpr ⟨_, rfl⟩,
      Table.isNormal_iff.mpr ⟨_, rfl⟩, Slots.isNormal_iff.mpr ⟨_, rfl⟩⟩

theorem Variable.isNormal_iff : v.IsNormalVariable ↔ ∃ var : Variable, var.toValue = v := by
  constructor
  · intro h
    obtain ⟨name, dtype, shape, persistable, rfl⟩ := h
    exact ⟨{ name, dtype, shape, persistable }, rfl⟩
  · intro h
    obtain ⟨var, rfl⟩ := h
    exact ⟨_, _, _, _, rfl⟩

theorem Block.isNormal_iff : v.IsNormalBlock ↔ ∃ block : Block, block.toValue = v := by
  constructor
  · intro h
    obtain ⟨vars, ops, rfl, hvars, hops⟩ := h
    obtain ⟨vars, rfl⟩ := exists_map_eq.mpr fun x hx => Variable.isNormal_iff.mp (hvars x hx)
    obtain ⟨ops, rfl⟩ := exists_map_eq.mpr fun x hx => Op.isNormal_iff.mp (hops x hx)
    exact ⟨{ vars, ops }, rfl⟩
  · intro h
    obtain ⟨block, rfl⟩ := h
    refine ⟨_, _, rfl, ?_, ?_⟩
    · intro x hx
      exact Variable.isNormal_iff.mpr (exists_map_eq.mp ⟨block.vars, rfl⟩ x hx)
    · intro x hx
      exact Op.isNormal_iff.mpr (exists_map_eq.mp ⟨block.ops, rfl⟩ x hx)

/-- The documents in normal form are those that programs are written as. -/
theorem Program.isNormal_iff : v.IsNormal ↔ ∃ p : Program, p.toValue = v := by
  constructor
  · intro h
    obtain ⟨blocks, rfl, hblocks⟩ := h
    obtain ⟨blocks, rfl⟩ := exists_map_eq.mpr fun x hx => Block.isNormal_iff.mp (hblocks x hx)
    exact ⟨{ blocks }, rfl⟩
  · intro h
    obtain ⟨p, rfl⟩ := h
    refine ⟨_, rfl, ?_⟩
    intro x hx
    exact Block.isNormal_iff.mpr (exists_map_eq.mp ⟨p.blocks, rfl⟩ x hx)

/-! ## What is read -/

/-- Reading brings a document to its normal form, once and for all. The document of the program that
is read is in normal form, and it reads as this very program again, all entries in their order. Only
a document in normal form is the document of what it reads as. -/
theorem Program.normalizes {p : Program} (h : ofValue v = .ok p) :
    (∃ q, ofValue p.toValue = .ok q ∧ q.same p = true ∧ q = p ∧ q.toValue = p.toValue) ∧
    p.toValue.IsNormal ∧ (v.IsNormal ↔ p.toValue = v) := by
  refine ⟨⟨p, p.ofValue_toValue, p.same_refl, rfl, rfl⟩, isNormal_iff.mpr ⟨p, rfl⟩, ?_⟩
  constructor
  · intro hv
    obtain ⟨q, rfl⟩ := isNormal_iff.mp hv
    rw [q.ofValue_toValue] at h
    rw [Except.ok.inj h]
  · intro hp
    exact isNormal_iff.mpr ⟨p, hp⟩

/-- A document with names given as a text and as a map, sizes as a map, attributes as pairs of which
one is given twice, a number for a truth value, and fields that are missing or in another order. -/
def looseDocument : Value := .map [(.text "blocks", .list [.map [
  (.text "ops", .list [.map [
    (.text "outputs", .map [(.text "Output", .map [(.text "c", .null)])]),
    (.text "inputs", .map [(.text "Input", .text "x")]),
    (.text "attrs", .list [.list [.text "axis", .int 0], .list [.text "name", .text "first"],
      .list [.text "axis", .int 1]]),
    (.text "type", .text "conv2d")]]),
  (.text "vars", .list [.map [
    (.text "name", .text "x"),
    (.text "shape", .map [(.int 1, .null), (.int 3, .null)]),
    (.text "persistable", .int 2)]])]])]

/-- What the loose document reads as. -/
def plainProgram : Program where
  blocks := [{
    vars := [{ name := .text "x", shape := [.int 1, .int 3], persistable := true }]
    ops := [{ Op.ofTexts "conv2d" [("Input", ["x"])] [("Output", ["c"])] with
      attrs := .ofList [(.text "axis", .int 1), (.text "name", .text "first")] }] }]

theorem normalizes_looseDocument : Program.ofValue looseDocument = .ok plainProgram ∧
    (∃ q, Program.ofValue plainProgram.toValue = .ok q ∧ q.same plainProgram = true ∧
      q = plainProgram ∧ q.toValue = plainProgram.toValue) ∧
    plainProgram.toValue.IsNormal ∧
    (looseDocument.IsNormal ↔ plainProgram.toValue = looseDocument) := by
  have hread : Program.ofValue looseDocument = .ok plainProgram := by rfl
  exact ⟨hread, Program.normalizes hread⟩

end TensorFusion
