import TensorFusion.Proofs.Declared
import TensorFusion.Proofs.Executor.Solution
import TensorFusion.Proofs.Standard.Templates

/-!
# Proofs — Standard — Operators

The reference operators against the standard registry. An operator takes its input from a slot that
is declared for its type and puts its result into one; its parameters are in slots that are not
declared.
-/

namespace TensorFusion

theorem Operator.ofType_eq_ok {v : Value} {o : Operator} (h : ofType v = .ok o) :
    v = .text o.opType ∧ o ∈ standard := by
  cases v with
  | list items => simp [ofType] at h
  | map entries => simp [ofType] at h
  | atom a =>
    simp only [ofType] at h
    split at h
    next o' hfind =>
      cases h
      refine ⟨(Value.eq_text_of_same ?_), List.mem_of_find?_eq_some hfind⟩
      have hsame := List.find?_some (p := fun o : Operator => (Atom.text o.opType).same a) hfind
      rw [Value.same_atom, Atom.same_comm]
      exact hsame
    next => cases h

theorem Operator.slotsOfType_eq : ∀ o ∈ standard,
    Registry.standard.slotsOfType (.text o.opType) = ⟨[.text o.input], [.text o.output]⟩ := by
  decide +kernel

theorem Operator.slot_ne_input : ∀ o ∈ standard, ∀ st ∈ o.stages, ∀ slot ∈ st.slots,
    slot ≠ o.input := by
  decide +kernel

/-- The types of the reference operators are registered. -/
theorem Operator.exists_slotKeys {o : Operator} (h : o ∈ standard) :
    ∃ signature, Registry.standard.lookup (.text o.opType) = .ok signature ∧
      ∃ slots, signature.slotKeys = .ok slots := by
  have hall : ∀ o ∈ standard,
      (Registry.standard.lookup (.text o.opType) >>= Signature.slotKeys).isOk = true := by
    decide +kernel
  obtain ⟨slots, hslots⟩ := exists_ok_of_isOk (hall o h)
  obtain ⟨signature, hsignature, hkeys⟩ := bind_eq_ok.mp hslots
  exact ⟨signature, hsignature, slots, hkeys⟩

namespace Op

variable {op : Op} {o : Operator} {b : Atom} {name : Value}

theorem firstName_eq_ok {slots : Slots} {slot : String} :
    op.firstName slots slot = .ok name ↔ ∃ rest, slots.get? (.text slot) = some (name :: rest) := by
  unfold firstName
  split
  next first rest h => simp [h, eq_comm]
  next h =>
    simp only [reduceCtorEq, false_iff, not_exists]
    exact fun rest hrest => h name rest hrest

theorem slotsOf_eq (h : Operator.ofType op.opType = .ok o) :
    Registry.standard.slotsOf op = ⟨[.text o.input], [.text o.output]⟩ := by
  obtain ⟨hType, ho⟩ := Operator.ofType_eq_ok h
  rw [Registry.slotsOf, hType, Operator.slotsOfType_eq o ho]

theorem source_eq_ok (ho : Operator.ofType op.opType = .ok o) :
    op.source = .ok name ↔ ∃ rest, op.inputs.get? (.text o.input) = some (name :: rest) := by
  rw [source, ho, ok_bind, inputName, firstName_eq_ok]

theorem target_eq_ok (ho : Operator.ofType op.opType = .ok o) :
    op.target = .ok name ↔ ∃ rest, op.outputs.get? (.text o.output) = some (name :: rest) := by
  rw [target, ho, ok_bind, outputName, firstName_eq_ok]

theorem exists_operator (h : op.source = .ok name) : ∃ o, Operator.ofType op.opType = .ok o :=
  (bind_eq_ok.mp h).imp fun _ ho => ho.1

/-- The input is read in a declared slot. -/
theorem mem_reads_of_source (h : op.source = .ok name) : name ∈ Registry.standard.reads op := by
  obtain ⟨o, ho⟩ := exists_operator h
  obtain ⟨rest, hslot⟩ := (source_eq_ok ho).mp h
  rw [Registry.reads, slotsOf_eq ho]
  simp [Slots.select, hslot]

/-- An operator with one input name reads no other in its declared slots. -/
theorem reads_eq_of_source {slot : Atom} {name' : Value}
    (hinputs : op.inputs.entries = [(slot, [name'])]) (h : op.source = .ok name) :
    Registry.standard.reads op = [name] := by
  obtain ⟨o, ho⟩ := exists_operator h
  obtain ⟨rest, hslot⟩ := (source_eq_ok ho).mp h
  rw [Registry.reads, slotsOf_eq ho]
  rw [Table.get?, hinputs, Table.lookup, Table.lookup] at hslot
  split at hslot
  next hsame =>
    cases hslot
    simp [Slots.select, Table.get?, hinputs, Table.lookup, hsame]
  next => cases hslot

/-- The result is written in a declared slot. -/
theorem Stores.writesName (h : op.Stores b) : Registry.standard.writesName op (.atom b) = true := by
  obtain ⟨b', htarget, hsame⟩ := h
  obtain ⟨o, ho, -⟩ := bind_eq_ok.mp htarget
  obtain ⟨rest, hslot⟩ := (target_eq_ok ho).mp htarget
  refine Registry.writesName_iff.mpr ⟨.atom b', ?_, by simpa using hsame⟩
  rw [Registry.writes, slotsOf_eq ho]
  simp [Slots.select, hslot]

/-- What is looked up as a parameter is read in a slot that is not declared. -/
theorem mem_otherReads_of_paramName (ho : Operator.ofType op.opType = .ok o) {st : Stage}
    (hst : st ∈ o.stages) {slot : String} (hslot : slot ∈ st.slots)
    (h : op.paramName slot = .ok name) : name ∈ Registry.standard.otherReads op := by
  unfold paramName at h
  split at h
  · obtain ⟨rest, hget⟩ := firstName_eq_ok.mp h
    exact List.mem_append_right _ (Table.mem_names_iff.mpr ⟨_, _, hget, by simp⟩)
  · obtain ⟨rest, hget⟩ := firstName_eq_ok.mp h
    obtain ⟨key, hmem, hkey⟩ := Table.mem_of_lookup hget
    refine List.mem_append_left _
      (List.mem_flatMap.mpr ⟨_, List.mem_filter.mpr ⟨hmem, ?_⟩, by simp⟩)
    have hne := Operator.slot_ne_input o (Operator.ofType_eq_ok ho).2 st hst slot hslot
    rw [slotsOf_eq ho]
    have hdeclared : (Atom.text o.input).same key = false := by
      rw [← Bool.not_eq_true]
      intro hinput
      have hboth := Atom.same_trans hinput hkey
      rw [Atom.same_text, decide_eq_true_eq] at hboth
      exact hne hboth.symm
    simp [hdeclared]

/-- An operator whose other reads are all given finds its parameters. -/
theorem isFed_of_otherReads {α : Type} {feeds : Scope α}
    (h : ∀ name ∈ Registry.standard.otherReads op, ∃ x, feeds.fetch name = .ok x) :
    op.IsFed feeds :=
  fun _ ho _ hst _ hslot _ hname => h _ (mem_otherReads_of_paramName ho hst hslot hname)

end Op

end TensorFusion
