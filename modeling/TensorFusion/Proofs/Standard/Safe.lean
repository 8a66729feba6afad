import TensorFusion.Proofs.Executor.Solution
import TensorFusion.Proofs.Standard.Rewrite

/-!
# Proofs — Standard — Safe

What is asked of a program so that fusion keeps what it computes. The graph sees the declared slots
alone, and a fused operator has one set of parameters and attributes for all of its stages; so names
are not to be written twice, what the graph does not see is to be given, and no operator is to bring
along what does not belong to its type. All of this can be computed.
-/

namespace TensorFusion

/-- The parameter slots that belong to a type which the standard templates go on with. -/
def tailParams : String → List String
  | "elementwise_add" => ["Y"]
  | "batch_norm" => ["Scale", "Bias", "Mean", "Variance"]
  | _ => []

/-- The types which an attribute belongs to, of those that the standard templates look for. -/
def attrOwners : Atom → List String
  | .text "strides" | .text "paddings" | .text "dilations" | .text "groups" => rootTypes
  | .text "axis" => ["elementwise_add"]
  | .text "epsilon" => ["batch_norm"]
  | _ => rootTypes ++ tailTypes

/-- An operator of a type that the standard templates look for has nothing that does not belong to
its type: behind a convolution, one input and the parameters of the type, and nowhere an attribute
of another of these types. -/
structure Op.IsPlain (op : Op) : Prop where
  input : op.HasType tailTypes → ∃ name, op.inputs.entries = [(.text "X", [name])]
  params : ∀ s ∈ tailTypes, op.HasType [s] →
    ∀ key ∈ op.params.keys, ∃ slot ∈ tailParams s, key = .text slot
  attrs : op.HasType (rootTypes ++ tailTypes) →
    ∀ key ∈ op.attrs.keys, op.HasType (attrOwners key)

/-- What is asked of a program and of what it is given: names in declared slots are keys, each name
is written once, and none that is given; what is read in other slots is given; and no operator has
more than belongs to its type. -/
structure FusionSafe {τ : Type} (feeds : Scope τ) (ops : List Op) : Prop where
  named : ∀ op ∈ ops, op.IsNamed .standard
  once : ∀ i j b, WritesAt ops i b → WritesAt ops j b → i = j
  fresh : ∀ i b, WritesAt ops i b → Table.get? feeds b = none
  fed : ∀ op ∈ ops, ∀ name ∈ Registry.standard.otherReads op, ∃ x, feeds.fetch name = .ok x
  plain : ∀ op ∈ ops, op.IsPlain

/-! ## Computation -/

section Decidable

variable {τ : Type} {ops : List Op}

/-- Slots of one name in one slot can be told. -/
instance (slots : Slots) (key : Atom) : Decidable (∃ name, slots.entries = [(key, [name])]) :=
  decidable_of_iff (slots.keys = [key] ∧ slots.values.map List.length = [1]) <| by
    unfold Table.keys Table.values
    constructor
    · intro h
      obtain ⟨hkeys, hlengths⟩ := h
      obtain ⟨e, hentries, rfl⟩ := List.map_eq_singleton_iff.mp hkeys
      rw [hentries, List.map_map, List.map_singleton, List.singleton_inj] at hlengths
      obtain ⟨name, hname⟩ := List.length_eq_one_iff.mp hlengths
      exact ⟨name, by rw [hentries, ← hname]⟩
    · intro h
      obtain ⟨name, hentries⟩ := h
      rw [hentries]
      exact ⟨rfl, rfl⟩

instance (op : Op) : Decidable op.IsPlain :=
  decidable_of_iff ((op.HasType tailTypes → ∃ name, op.inputs.entries = [(.text "X", [name])]) ∧
      (∀ s ∈ tailTypes, op.HasType [s] →
        ∀ key ∈ op.params.keys, ∃ slot ∈ tailParams s, key = .text slot) ∧
      (op.HasType (rootTypes ++ tailTypes) → ∀ key ∈ op.attrs.keys, op.HasType (attrOwners key)))
    ⟨fun h => ⟨h.1, h.2.1, h.2.2⟩, fun h => ⟨h.input, h.params, h.attrs⟩⟩

theorem fresh_iff {feeds : Scope τ} :
    (∀ i b, WritesAt ops i b → Table.get? feeds b = none) ↔
      ∀ op ∈ ops, ∀ c ∈ Value.atoms (Registry.standard.writes op),
        (Table.get? feeds c).isNone = true := by
  constructor
  · intro h op hop c hc
    obtain ⟨i, hi⟩ := List.mem_iff_getElem?.mp hop
    rw [h i c ⟨op, hi, Registry.writesName_iff.mpr ⟨.atom c, Value.mem_atoms.mp hc, by simp⟩⟩]
    rfl
  · intro h i b hi
    obtain ⟨op, hop, c, hc, hsame⟩ := exists_of_writesAt hi
    rw [← Table.get?_congr feeds hsame]
    exact Option.isNone_iff_eq_none.mp (h op (List.mem_of_getElem? hop) c hc)

instance (feeds : Scope τ) (ops : List Op) : Decidable (FusionSafe feeds ops) :=
  decidable_of_iff ((∀ op ∈ ops, op.IsNamed .standard) ∧
      (∀ i < ops.length, ∀ op ∈ ops[i]?, ∀ c ∈ Value.atoms (Registry.standard.writes op),
        ∀ j < ops.length, WritesAt ops j c → i = j) ∧
      (∀ op ∈ ops, ∀ c ∈ Value.atoms (Registry.standard.writes op),
        (Table.get? feeds c).isNone = true) ∧
      (∀ op ∈ ops, ∀ name ∈ Registry.standard.otherReads op, (feeds.fetch name).isOk = true) ∧
      ∀ op ∈ ops, op.IsPlain) <| by
    rw [← once_iff, ← fresh_iff]
    simp only [isOk_iff]
    exact ⟨fun h => ⟨h.1, h.2.1, h.2.2.1, h.2.2.2.1, h.2.2.2.2⟩,
      fun h => ⟨h.named, h.once, h.fresh, h.fed, h.plain⟩⟩

end Decidable

end TensorFusion
