import TensorFusion.Proofs.Pass.Reach
import TensorFusion.Proofs.Pass.Total

/-!
# Proofs — Pass — Answers

The answers of an optimizer. A program of several blocks and an operator of an unknown type are
refused before anything is counted; every other program comes out, whatever the templates are.
-/

namespace TensorFusion

/-! ## Well-typed programs -/

/-- The type of an operator is a text, and so are the names in its input and output slots. -/
structure Op.IsTyped (op : Op) : Prop where
  opType : op.opType.isString = true
  inputs : ∀ n ∈ op.inputs.names, n.isString = true
  outputs : ∀ n ∈ op.outputs.names, n.isString = true

instance (op : Op) : Decidable op.IsTyped :=
  decidable_of_iff (op.opType.isString = true ∧ (∀ n ∈ op.inputs.names, n.isString = true) ∧
      ∀ n ∈ op.outputs.names, n.isString = true)
    ⟨fun h => ⟨h.1, h.2.1, h.2.2⟩, fun h => ⟨h.opType, h.inputs, h.outputs⟩⟩

/-- All operators of a program are well typed. -/
def Program.IsTyped (p : Program) : Prop := ∀ block ∈ p.blocks, ∀ op ∈ block.ops, op.IsTyped

instance (p : Program) : Decidable p.IsTyped :=
  inferInstanceAs (Decidable (∀ block ∈ p.blocks, ∀ op ∈ block.ops, op.IsTyped))

/-- An optimizer names slots, templates and types by texts, and lists the templates that are
switched off. -/
structure Optimizer.IsTyped (o : Optimizer) : Prop where
  slots : ∀ e ∈ o.registry.signatures.entries, ∀ slot ∈ e.2.inputs ++ e.2.outputs,
    slot.isString = true
  templates : ∀ t ∈ o.catalog.templates, t.name.isString = true ∧ t.trigger.isString = true ∧
    t.fusedType.isString = true
  disabled : ∃ names, o.config.disabled = .series names

theorem mem_names_of_mem_select {slots : Slots} {declared : List Atom} {n : Value}
    (h : n ∈ slots.select declared) : n ∈ slots.names := by
  obtain ⟨slot, -, hn⟩ := List.mem_flatMap.mp h
  cases hget : Table.get? slots slot with
  | none => simp [hget] at hn
  | some names =>
    rw [hget] at hn
    exact Table.mem_names_iff.mpr ⟨slot, names, hget, hn⟩

/-- What a well-typed operator reads and writes in declared slots are keys. -/
theorem Op.IsTyped.isNamed {op : Op} (h : op.IsTyped) (r : Registry) : op.IsNamed r where
  opType := Value.exists_atom_of_isString h.opType
  reads := fun n hn => Value.exists_atom_of_isString (h.inputs n (mem_names_of_mem_select hn))
  writes := fun n hn => Value.exists_atom_of_isString (h.outputs n (mem_names_of_mem_select hn))

/-- Slots that are texts are keys. -/
theorem Signature.exists_slotKeys {s : Signature}
    (h : ∀ slot ∈ s.inputs ++ s.outputs, slot.isString = true) :
    ∃ slots, s.slotKeys = .ok slots := by
  have hkey : ∀ slot ∈ s.inputs ++ s.outputs, ∃ key, slotKey slot = .ok key := by
    intro slot hslot
    obtain ⟨a, rfl⟩ := Value.exists_atom_of_isString (h slot hslot)
    exact ⟨a, rfl⟩
  obtain ⟨inputs, hinputs⟩ := mapM_total fun slot hslot => hkey slot (List.mem_append_left _ hslot)
  obtain ⟨outputs, houtputs⟩ :=
    mapM_total fun slot hslot => hkey slot (List.mem_append_right _ hslot)
  exact ⟨⟨inputs, outputs⟩, by simp only [slotKeys, hinputs, houtputs, ok_bind]; rfl⟩

/-! ## Types that are not registered -/

namespace Registry

variable {r : Registry} {ops : List Op} {v : Value}

/-- A type is the first one of some operators that is not registered. -/
def IsFirstUnknown (r : Registry) (ops : List Op) (v : Value) : Prop :=
  ∃ before op after, ops = before ++ op :: after ∧ op.opType = v ∧ r.contains v = .ok false ∧
    ∀ op' ∈ before, r.contains op'.opType = .ok true

theorem lookup_of_contains (h : r.contains v = .ok true) : ∃ signature,
    r.lookup v = .ok signature ∧ ∃ e ∈ r.signatures.entries, e.2 = signature := by
  cases v with
  | atom a =>
    obtain ⟨signature, hget⟩ := Option.isSome_iff_exists.mp (Except.ok.inj h)
    obtain ⟨key, hmem, -⟩ := Table.mem_of_lookup hget
    exact ⟨signature, by rw [lookup, hget], _, hmem, rfl⟩
  | list items => cases h
  | map entries => cases h

theorem lookup_of_not_contains (h : r.contains v = .ok false) :
    r.lookup v = .error (.unknownOperator v) := by
  cases v with
  | atom a =>
    have hget : r.signatures.get? a = none := by
      rw [← Option.not_isSome_iff_eq_none]
      exact Bool.eq_false_iff.mp (Except.ok.inj h)
    rw [lookup, hget]
  | list items => cases h
  | map entries => cases h

/-- All types are registered, or one of them is the first that is not. -/
theorem exists_firstUnknown (h : ∀ op ∈ ops, ∃ a, op.opType = .atom a) :
    (∀ op ∈ ops, r.contains op.opType = .ok true) ∨ ∃ v, r.IsFirstUnknown ops v := by
  induction ops with
  | nil => exact .inl (by simp)
  | cons op ops ih =>
    obtain ⟨a, ha⟩ := h op (by simp)
    cases hknown : r.signatures.contains a with
    | false =>
      refine .inr ⟨_, [], op, ops, rfl, ha, ?_, by simp⟩
      rw [contains, hknown]
    | true =>
      have hop : r.contains op.opType = .ok true := by rw [ha, contains, hknown]
      rcases ih fun op' hop' => h op' (by simp [hop']) with hall | ⟨v, before, op', after, rfl, hv⟩
      · exact .inl fun op' hop' => (List.mem_cons.mp hop').elim (· ▸ hop) (hall op')
      · obtain ⟨hType, hunknown, hbefore⟩ := hv
        refine .inr ⟨v, op :: before, op', after, rfl, hType, hunknown, fun op'' hop'' => ?_⟩
        exact (List.mem_cons.mp hop'').elim (· ▸ hop) (hbefore op'')

/-- No graph is built where a type is not registered, and the first such type is told. -/
theorem IsFirstUnknown.build (h : r.IsFirstUnknown ops v) :
    Graph.build r ops = .error (.unknownOperator v) := by
  obtain ⟨before, op, after, rfl, rfl, hunknown, hbefore⟩ := h
  obtain ⟨signatures, hsignatures⟩ := mapM_total fun op' hop' =>
    (lookup_of_contains (hbefore op' hop')).imp fun _ h => h.1
  rw [Graph.build, List.mapM_append, hsignatures, ok_bind, List.mapM_cons,
    lookup_of_not_contains hunknown]
  rfl

end Registry

namespace Optimizer.IsTyped

variable {o : Optimizer} {p : Program} {block : Block}

theorem canRun (ho : o.IsTyped) : ∀ t ∈ o.catalog.templates, t.CanRun := by
  intro t ht
  obtain ⟨hname, htrigger, hfused⟩ := ho.templates t ht
  exact ⟨Value.exists_atom_of_isString hname, Value.exists_atom_of_isString htrigger, hfused⟩

theorem exists_disables (ho : o.IsTyped) (name : Value) :
    ∃ b, o.config.disables name = .ok b := by
  obtain ⟨names, hnames⟩ := ho.disabled
  exact ⟨_, by rw [Config.disables, hnames]; rfl⟩

/-- A well-typed operator whose type is known is registered. -/
theorem isRegistered (ho : o.IsTyped) {op : Op} (hop : op.IsTyped)
    (h : o.registry.contains op.opType = .ok true) : op.IsRegistered o.registry := by
  obtain ⟨signature, hlookup, e, he, rfl⟩ := Registry.lookup_of_contains h
  exact ⟨⟨e.2, hlookup, Signature.exists_slotKeys (ho.slots e he)⟩, hop.isNamed o.registry⟩

/-- The graph of a block of known types can be built, and the pass over it comes to an end. -/
theorem exists_pass (ho : o.IsTyped) (hp : p.IsTyped) (hblock : p.blocks = [block])
    (hknown : ∀ op ∈ block.ops, o.registry.contains op.opType = .ok true) :
    ∃ g s, Graph.build o.registry block.ops = .ok g ∧ o.fusePass g = .ok s := by
  have hTyped : ∀ op ∈ block.ops, op.IsTyped := hp block (by simp [hblock])
  obtain ⟨g, hg⟩ := Graph.exists_build fun op hop => ho.isRegistered (hTyped op hop) (hknown op hop)
  have hsound := (Graph.isOf_of_build hg).1.isSound fun op hop => (hTyped op hop).opType
  obtain ⟨s, hs⟩ := exists_fusePass hsound ho.canRun fun _ t _ => ho.exists_disables t.name
  exact ⟨g, s, hg, hs⟩

/-! ## Answers -/

/-- The answer for a block of known types: one more run is counted, and a program comes out. -/
theorem optimize_of_known (ho : o.IsTyped) (hp : p.IsTyped) (hblock : p.blocks = [block])
    (hknown : ∀ op ∈ block.ops, o.registry.contains op.opType = .ok true) :
    (∃ stats, (o.optimize p).optimizer = { o with stats } ∧ stats.runs = o.stats.runs + 1 ∧
      stats.fallbacks = o.stats.fallbacks) ∧
    ∃ program, (o.optimize p).result = .ok { program } := by
  obtain ⟨g, s, hg, hs⟩ := ho.exists_pass hp hblock hknown
  rw [optimize_of_build hblock hg, runOn, hs]
  exact ⟨⟨_, rfl, rfl, rfl⟩, _, rfl⟩

/-- There are three ways to go: the program has another number of blocks than one, a type is not
known, or all types are. -/
theorem optimize_cases (ho : o.IsTyped) (hp : p.IsTyped) :
    (p.blocks.length ≠ 1 ∧ o.optimize p =
      { result := .error (.fusion (.multipleBlocks p.blocks.length)), optimizer := o }) ∨
    (∃ block v, p.blocks = [block] ∧ o.registry.IsFirstUnknown block.ops v ∧
      o.optimize p = { result := .error (.fusion (.unknownOperator v)), optimizer := o }) ∨
    ∃ block, p.blocks = [block] ∧ (∀ op ∈ block.ops, o.registry.contains op.opType = .ok true) ∧
      ∀ cause, (o.optimize p).result ≠ .error (.fusion cause) := by
  by_cases hlength : p.blocks.length = 1
  · obtain ⟨block, hblock⟩ := List.length_eq_one_iff.mp hlength
    have hTyped : ∀ op ∈ block.ops, op.IsTyped := hp block (by simp [hblock])
    rcases Registry.exists_firstUnknown (r := o.registry) fun op hop =>
      Value.exists_atom_of_isString (hTyped op hop).opType with hknown | ⟨v, hv⟩
    · refine .inr (.inr ⟨block, hblock, hknown, fun cause hcause => ?_⟩)
      obtain ⟨program, hresult⟩ := (ho.optimize_of_known hp hblock hknown).2
      rw [hresult] at hcause
      cases hcause
    · exact .inr (.inl ⟨block, v, hblock, hv, by simp only [optimize, hblock, hv.build]; rfl⟩)
  · refine .inl ⟨hlength, ?_⟩
    unfold optimize
    split
    next block hblock => simp [hblock] at hlength
    next => rfl

end Optimizer.IsTyped

end TensorFusion
