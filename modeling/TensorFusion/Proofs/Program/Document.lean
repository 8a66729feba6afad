import TensorFusion.Program.Document
import TensorFusion.Proofs.Json.Parse
import TensorFusion.Proofs.Json.Readings
import TensorFusion.Proofs.Results
import TensorFusion.Proofs.Sample
import TensorFusion.Proofs.Table

/-!
# Proofs — Program — Document

Programs that are written and read again. The document of a program reads as the program, whatever
the program holds. For the document to be a text as well, its values have to be ones that a text can
spell. What comes out of a text is such, part by part, but for keys of attributes that were given as
pairs.
-/

namespace TensorFusion

/-! ## Reading what was written -/

namespace Slots

theorem ofValue_toValue (slots : Slots) : Slots.ofValue slots.toValue = .ok slots := by
  have hentries : (slots.mapValues Value.list).entries.mapM readEntry = .ok slots.entries :=
    mapM_map_eq_ok fun _ _ => rfl
  rw [toValue, ofValue, hentries, ok_bind]
  exact congrArg Except.ok slots.ofList_entries

end Slots

namespace Op

theorem readAttrs_entries (t : Table Value) : readAttrs (.map t.entries) = .ok t :=
  congrArg Except.ok t.ofList_entries

theorem ofValue_toValue (op : Op) : ofValue op.toValue = .ok op := by
  have htype : op.toValue.require "type" = .ok op.opType := by
    simp [toValue, Value.require, Table.lookup]
  have hinputs : op.toValue.fieldD "inputs" (.map []) = .ok op.inputs.toValue := by
    simp [toValue, Value.fieldD, Table.lookup]
  have houtputs : op.toValue.fieldD "outputs" (.map []) = .ok op.outputs.toValue := by
    simp [toValue, Value.fieldD, Table.lookup]
  have hattrs : op.toValue.fieldD "attrs" (.map []) = .ok (.map op.attrs.entries) := by
    simp [toValue, Value.fieldD, Table.lookup]
  have hparams : op.toValue.fieldD "params" (.map []) = .ok op.params.toValue := by
    simp [toValue, Value.fieldD, Table.lookup]
  rw [ofValue, htype, hinputs, houtputs, hattrs, hparams]
  simp only [ok_bind, Slots.ofValue_toValue, readAttrs_entries]
  rfl

end Op

theorem Variable.ofValue_toValue (var : Variable) : ofValue var.toValue = .ok var := by
  have hname : var.toValue.require "name" = .ok var.name := by
    simp [toValue, Value.require, Table.lookup]
  have hdtype : var.toValue.fieldD "dtype" "float32" = .ok var.dtype := by
    simp [toValue, Value.fieldD, Table.lookup]
  have hshape : var.toValue.fieldD "shape" (.list []) = .ok (.list var.shape) := by
    simp [toValue, Value.fieldD, Table.lookup]
  have hpersistable :
      var.toValue.fieldD "persistable" (.bool false) = .ok (.bool var.persistable) := by
    simp [toValue, Value.fieldD, Table.lookup]
  rw [ofValue, hname, hdtype, hshape, hpersistable]
  rfl

theorem Block.ofValue_toValue (block : Block) : ofValue block.toValue = .ok block := by
  have hvars : block.toValue.fieldD "vars" (.list [])
      = .ok (.list (block.vars.map Variable.toValue)) := by
    simp [toValue, Value.fieldD, Table.lookup]
  have hops : block.toValue.fieldD "ops" (.list []) = .ok (.list (block.ops.map Op.toValue)) := by
    simp [toValue, Value.fieldD, Table.lookup]
  have hread : (block.vars.map Variable.toValue).mapM Variable.ofValue = .ok block.vars :=
    mapM_map_eq_ok fun var _ => var.ofValue_toValue
  have hread' : (block.ops.map Op.toValue).mapM Op.ofValue = .ok block.ops :=
    mapM_map_eq_ok fun op _ => op.ofValue_toValue
  rw [ofValue, hvars, hops]
  simp only [ok_bind, Value.elements, Value.elements?, hread, hread']
  rfl

/-- The document of a program reads as the program. -/
theorem Program.ofValue_toValue (p : Program) : ofValue p.toValue = .ok p := by
  have hblocks : p.toValue.fieldD "blocks" (.list [])
      = .ok (.list (p.blocks.map Block.toValue)) := by
    simp [toValue, Value.fieldD, Table.lookup]
  have hread : (p.blocks.map Block.toValue).mapM Block.ofValue = .ok p.blocks :=
    mapM_map_eq_ok fun block _ => block.ofValue_toValue
  rw [ofValue, hblocks]
  simp only [ok_bind, Value.elements, Value.elements?, hread]
  rfl

/-! ## Values that a text can spell -/

namespace Value

variable {v : Value} {items : List Value} {entries : List (Atom × Value)}

/-- A table is readable if its keys can be held by a document and its values are readable. -/
theorem isReadable_table {t : Table Value} :
    IsReadable (.map t.entries) ↔ t.Holds Atom.IsKey IsReadable :=
  isReadable_map.trans (and_iff_right t.distinct)

theorem IsReadable.lookup {field : Atom} (h : IsReadable (.map entries))
    (hv : Table.lookup entries field = some v) : v.IsReadable := by
  obtain ⟨k, hmem, -⟩ := Table.mem_of_lookup hv
  exact ((isReadable_map.mp h).2 _ hmem).2

theorem IsReadable.require {x : Value} {field : String} (h : v.IsReadable)
    (hx : v.require field = .ok x) : x.IsReadable := by
  unfold Value.require at hx
  split at hx
  · split at hx
    next hlookup =>
      cases hx
      exact h.lookup hlookup
    · cases hx
  · cases hx

theorem IsReadable.fieldD {x default : Value} {field : String} (h : v.IsReadable)
    (hdefault : default.IsReadable) (hx : v.fieldD field default = .ok x) : x.IsReadable := by
  unfold Value.fieldD at hx
  split at hx
  next entries =>
    cases hx
    cases hlookup : Table.lookup entries (.text field) with
    | none => exact hdefault
    | some x => exact h.lookup hlookup
  · cases hx

/-- The parts that a readable value is walked through in are readable. -/
theorem IsReadable.elements (h : v.IsReadable) (hitems : v.elements = .ok items) :
    ∀ x ∈ items, x.IsReadable := by
  intro x hx
  unfold Value.elements Value.elements? at hitems
  split at hitems
  next items' hsome =>
    cases hitems
    split at hsome
    · cases hsome
      obtain ⟨c, -, rfl⟩ := List.mem_map.mp hx
      exact .atom trivial
    next points =>
      cases hsome
      obtain ⟨point, hpoint, rfl⟩ := List.mem_map.mp hx
      have hspelled : Points.AreSpelled points := (isReadable_atom.mp h).2
      refine .atom (Atom.isReadable_ofPoints ⟨?_, List.isChain_singleton _⟩)
      intro point' hpoint'
      rw [List.mem_singleton.mp hpoint']
      exact hspelled.inRange point hpoint
    · cases hsome
      exact isReadable_list.mp h x hx
    next entries =>
      cases hsome
      obtain ⟨e, he, rfl⟩ := List.mem_map.mp hx
      exact .atom ((isReadable_map.mp h).2 e he).1.1
    · cases hsome
  · cases hitems

/-- The parts of a field that is walked through. -/
theorem IsReadable.fieldElements {x : Value} {field : String} (h : v.IsReadable)
    (hx : v.fieldD field (.list []) = .ok x) (hitems : x.elements = .ok items) :
    ∀ y ∈ items, y.IsReadable :=
  (h.fieldD (isReadable_list.mpr (by simp)) hx).elements hitems

end Value

/-! ## Programs that a text can spell -/

/-- The keys of slots can be held by a document, and the names in them are readable. -/
def Slots.IsReadable (slots : Slots) : Prop :=
  slots.Holds Atom.IsKey fun names => ∀ name ∈ names, name.IsReadable

/-- The values of an operator are readable, and the keys of its attributes can be held by a
document. -/
structure Op.IsReadable (op : Op) : Prop where
  opType : op.opType.IsReadable
  inputs : op.inputs.IsReadable
  outputs : op.outputs.IsReadable
  attrs : op.attrs.Holds Atom.IsKey Value.IsReadable
  params : op.params.IsReadable

structure Variable.IsReadable (var : Variable) : Prop where
  name : var.name.IsReadable
  dtype : var.dtype.IsReadable
  shape : ∀ size ∈ var.shape, size.IsReadable

structure Block.IsReadable (block : Block) : Prop where
  vars : ∀ var ∈ block.vars, var.IsReadable
  ops : ∀ op ∈ block.ops, op.IsReadable

def Program.IsReadable (p : Program) : Prop := ∀ block ∈ p.blocks, block.IsReadable

/-- No key of an attribute is anything but a text. -/
def Program.HasTextKeys (p : Program) : Prop :=
  ∀ block ∈ p.blocks, ∀ op ∈ block.ops, ∀ e ∈ op.attrs.entries, e.1.points?.isSome = true

instance (p : Program) : Decidable p.HasTextKeys :=
  inferInstanceAs (Decidable (∀ block ∈ p.blocks, ∀ op ∈ block.ops, ∀ e ∈ op.attrs.entries,
    e.1.points?.isSome = true))

/-! ### What is written -/

theorem Slots.IsReadable.toValue {slots : Slots} (h : slots.IsReadable) :
    slots.toValue.IsReadable := by
  refine Value.isReadable_table.mpr fun e he => ?_
  obtain ⟨e', he', rfl⟩ := List.mem_map.mp he
  exact ⟨(h e' he').1, .list (h e' he').2⟩

/-- A map of named fields is readable if the fields are. -/
theorem Value.isReadable_fields (fields : List (String × Value))
    (hdistinct : (fields.map (·.1)).Nodup) (h : ∀ e ∈ fields, e.2.IsReadable) :
    IsReadable (.map (fields.map fun e => (.text e.1, e.2))) := by
  have hkeys : (fields.map fun e => (Atom.text e.1, e.2)).map (fun e => e.1.key)
      = (fields.map (·.1)).map Atom.text := by
    simp
  refine isReadable_map.mpr ⟨?_, fun e he => ?_⟩
  · rw [hkeys]
    exact hdistinct.map fun s t hst => Atom.text.inj hst
  · obtain ⟨e', he', rfl⟩ := List.mem_map.mp he
    exact ⟨⟨trivial, rfl⟩, h e' he'⟩

theorem Op.IsReadable.toValue {op : Op} (h : op.IsReadable) : op.toValue.IsReadable := by
  refine Value.isReadable_fields [("type", op.opType), ("inputs", op.inputs.toValue),
    ("outputs", op.outputs.toValue), ("attrs", .map op.attrs.entries),
    ("params", op.params.toValue)] (by simp) ?_
  simp only [List.forall_mem_cons]
  exact ⟨h.opType, h.inputs.toValue, h.outputs.toValue, Value.isReadable_table.mpr h.attrs,
    h.params.toValue, List.forall_mem_nil _⟩

theorem Variable.IsReadable.toValue {var : Variable} (h : var.IsReadable) :
    var.toValue.IsReadable := by
  refine Value.isReadable_fields [("name", var.name), ("dtype", var.dtype),
    ("shape", .list var.shape), ("persistable", .bool var.persistable)] (by simp) ?_
  simp only [List.forall_mem_cons]
  exact ⟨h.name, h.dtype, .list h.shape, .atom trivial, List.forall_mem_nil _⟩

theorem Block.IsReadable.toValue {block : Block} (h : block.IsReadable) :
    block.toValue.IsReadable := by
  refine Value.isReadable_fields [("vars", .list (block.vars.map Variable.toValue)),
    ("ops", .list (block.ops.map Op.toValue))] (by simp) ?_
  simp only [List.forall_mem_cons]
  refine ⟨.list fun v hv => ?_, .list fun v hv => ?_, List.forall_mem_nil _⟩
  · obtain ⟨var, hvar, rfl⟩ := List.mem_map.mp hv
    exact (h.vars var hvar).toValue
  · obtain ⟨op, hop, rfl⟩ := List.mem_map.mp hv
    exact (h.ops op hop).toValue

theorem Program.IsReadable.toValue {p : Program} (h : p.IsReadable) : p.toValue.IsReadable := by
  refine Value.isReadable_fields [("blocks", .list (p.blocks.map Block.toValue))]
    (by simp) ?_
  simp only [List.forall_mem_cons]
  refine ⟨.list fun v hv => ?_, List.forall_mem_nil _⟩
  obtain ⟨block, hblock, rfl⟩ := List.mem_map.mp hv
  exact (h block hblock).toValue

/-! ### What is read -/

section Reading

variable {v : Value}

theorem Slots.isReadable_of_ofValue {slots : Slots} (h : v.IsReadable)
    (hslots : Slots.ofValue v = .ok slots) : slots.IsReadable := by
  unfold Slots.ofValue at hslots
  split at hslots
  next entries =>
    simp only [bind_eq_ok, pure_eq_ok] at hslots
    obtain ⟨read, hread, rfl⟩ := hslots
    refine Table.holds_ofList fun e he => ?_
    obtain ⟨e', he', hentry⟩ := exists_of_mem_mapM hread he
    simp only [readEntry, bind_eq_ok, pure_eq_ok] at hentry
    obtain ⟨names, hnames, rfl⟩ := hentry
    obtain ⟨hkey, hreadable⟩ := (Value.isReadable_map.mp h).2 e' he'
    exact ⟨hkey, hreadable.elements hnames⟩
  · cases hslots

/-- The keys of attributes that are given as pairs need not be texts. -/
theorem Op.holds_of_readPairs {pairs : List Value} {t t' : Table Value}
    (ht : t.Holds Atom.IsReadable Value.IsReadable) (h : ∀ pair ∈ pairs, pair.IsReadable)
    (hread : readPairs t pairs = .ok t') : t'.Holds Atom.IsReadable Value.IsReadable := by
  induction pairs generalizing t with
  | nil =>
    cases hread
    exact ht
  | cons pair pairs ih =>
    simp only [readPairs, bind_eq_ok] at hread
    obtain ⟨⟨key, value⟩, hpair, hrest⟩ := hread
    refine ih ?_ (fun p hp => h p (by simp [hp])) hrest
    simp only [readPair, bind_eq_ok] at hpair
    obtain ⟨parts, hparts, hpair⟩ := hpair
    have hreadable := (h pair (by simp)).elements hparts
    split at hpair
    next key' value' =>
      cases hpair
      have hkey := Value.isReadable_atom.mp (hreadable (.atom key) (by simp))
      exact ht.insert hkey (hreadable value (by simp))
    · cases hpair
    · cases hpair

theorem Op.holds_of_readAttrs {attrs : Table Value} (h : v.IsReadable)
    (hattrs : readAttrs v = .ok attrs) : attrs.Holds Atom.IsReadable Value.IsReadable := by
  unfold readAttrs at hattrs
  split at hattrs
  next entries =>
    cases hattrs
    refine Table.holds_ofList fun e he => ?_
    obtain ⟨hkey, hreadable⟩ := (Value.isReadable_map.mp h).2 e he
    exact ⟨hkey.1, hreadable⟩
  · rw [bind_eq_ok] at hattrs
    obtain ⟨pairs, hpairs, hread⟩ := hattrs
    exact holds_of_readPairs Table.holds_empty (h.elements hpairs) hread

theorem Op.isReadable_of_ofValue {op : Op} (h : v.IsReadable) (hop : ofValue v = .ok op)
    (hkeys : ∀ e ∈ op.attrs.entries, e.1.points?.isSome = true) : op.IsReadable := by
  simp only [ofValue, bind_eq_ok, pure_eq_ok] at hop
  obtain ⟨opType, htype, inputsField, hinputs, inputs, hreadInputs, outputsField, houtputs,
    outputs, hreadOutputs, attrsField, hattrs, attrs, hreadAttrs, paramsField, hparams, params,
    hreadParams, rfl⟩ := hop
  have hempty : Value.IsReadable (.map []) :=
    Value.isReadable_map.mpr ⟨List.nodup_nil, List.forall_mem_nil _⟩
  refine ⟨h.require htype, Slots.isReadable_of_ofValue (h.fieldD hempty hinputs) hreadInputs,
    Slots.isReadable_of_ofValue (h.fieldD hempty houtputs) hreadOutputs, fun e he => ?_,
    Slots.isReadable_of_ofValue (h.fieldD hempty hparams) hreadParams⟩
  obtain ⟨hkey, hreadable⟩ := holds_of_readAttrs (h.fieldD hempty hattrs) hreadAttrs e he
  exact ⟨⟨hkey, hkeys e he⟩, hreadable⟩

theorem Variable.isReadable_of_ofValue {var : Variable} (h : v.IsReadable)
    (hvar : ofValue v = .ok var) : var.IsReadable := by
  simp only [ofValue, bind_eq_ok, pure_eq_ok] at hvar
  obtain ⟨name, hname, dtype, hdtype, shapeField, hshape, shape, hsizes, persistable, -, rfl⟩ :=
    hvar
  have hfloat : Value.IsReadable "float32" := .atom trivial
  exact ⟨h.require hname, h.fieldD hfloat hdtype, h.fieldElements hshape hsizes⟩

theorem Block.isReadable_of_ofValue {block : Block} (h : v.IsReadable)
    (hblock : ofValue v = .ok block)
    (hkeys : ∀ op ∈ block.ops, ∀ e ∈ op.attrs.entries, e.1.points?.isSome = true) :
    block.IsReadable := by
  simp only [ofValue, bind_eq_ok, pure_eq_ok] at hblock
  obtain ⟨varsField, hvarsField, varValues, hvarValues, vars, hvars, opsField, hopsField, opValues,
    hopValues, ops, hops, rfl⟩ := hblock
  refine ⟨fun var hvar => ?_, fun op hop => ?_⟩
  · obtain ⟨w, hw, hread⟩ := exists_of_mem_mapM hvars hvar
    exact Variable.isReadable_of_ofValue (h.fieldElements hvarsField hvarValues w hw) hread
  · obtain ⟨w, hw, hread⟩ := exists_of_mem_mapM hops hop
    exact Op.isReadable_of_ofValue (h.fieldElements hopsField hopValues w hw) hread (hkeys op hop)

/-- A program that is read from a readable value is so itself, if the keys of its attributes are
texts. -/
theorem Program.isReadable_of_ofValue {p : Program} (h : v.IsReadable) (hp : ofValue v = .ok p)
    (hkeys : p.HasTextKeys) : p.IsReadable := by
  simp only [ofValue, bind_eq_ok, pure_eq_ok] at hp
  obtain ⟨blocksField, hblocksField, blockValues, hblockValues, blocks, hblocks, rfl⟩ := hp
  intro block hblock
  obtain ⟨w, hw, hread⟩ := exists_of_mem_mapM hblocks hblock
  exact Block.isReadable_of_ofValue (h.fieldElements hblocksField hblockValues w hw) hread
    (hkeys block hblock)

end Reading

/-! ## Texts of programs -/

/-- The text of a readable program reads as the program. -/
theorem Program.IsReadable.read_write {p : Program} (h : p.IsReadable) :
    ∃ v, Json.read (Json.write p.toValue) = .ok v ∧ ofValue v = .ok p :=
  ⟨p.toValue, Json.read_write h.toValue, p.ofValue_toValue⟩

/-! ## Programs written down with texts -/

theorem Slots.isReadable_ofTexts (entries : List (String × List String)) :
    (Slots.ofTexts entries).IsReadable := by
  refine Table.holds_ofList fun e he => ?_
  obtain ⟨e', -, rfl⟩ := List.mem_map.mp he
  refine ⟨⟨trivial, rfl⟩, fun name hname => ?_⟩
  obtain ⟨s, -, rfl⟩ := List.mem_map.mp hname
  exact .atom trivial

theorem Op.isReadable_ofTexts (opType : String)
    (inputs outputs params : List (String × List String)) :
    (Op.ofTexts opType inputs outputs params).IsReadable where
  opType := .atom trivial
  inputs := Slots.isReadable_ofTexts inputs
  outputs := Slots.isReadable_ofTexts outputs
  attrs := Table.holds_empty
  params := Slots.isReadable_ofTexts params

theorem Program.isReadable_ofOps {ops : List Op} (h : ∀ op ∈ ops, op.IsReadable) :
    (Program.ofOps ops).IsReadable := by
  intro block hblock
  rw [List.mem_singleton.mp hblock]
  exact ⟨by simp, h⟩

end TensorFusion
