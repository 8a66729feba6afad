import TensorFusion.Proofs.Graph.Merge
import TensorFusion.Proofs.Pass.Total
import TensorFusion.Template.Standard

/-!
# Proofs — Standard — Templates

The standard templates begin at a convolution and go on over additions, normalizations and
activations, which are never looked for at the beginning. What they make is never looked for at all.
-/

namespace TensorFusion

/-- A value that is the same as a text is that text. -/
theorem Value.eq_text_of_same {v : Value} {s : String} (h : v.same (.text s) = true) :
    v = .text s := by
  obtain ⟨a, rfl, ha⟩ := Value.atom_of_same_atom h
  rw [Atom.same_iff, Atom.key_text] at ha
  cases a with
  | text s' => rw [Atom.key_text] at ha; cases ha; rfl
  | null => cases ha
  | bool b => cases ha
  | int n => cases ha
  | brokenText points => cases ha
  | real x =>
    simp only [Atom.key] at ha
    split at ha <;> cases ha

theorem Value.text_mem_iff {names : List Value} {s : String} :
    .text s ∈ names ↔ names.any (·.same (.text s)) = true := by
  rw [List.any_eq_true]
  constructor
  · exact fun h => ⟨_, h, by simp⟩
  · intro h
    obtain ⟨n, hn, hsame⟩ := h
    rwa [← Value.eq_text_of_same hsame]

theorem Pattern.chain_inj {first first' : Value} {rest rest' : List Value}
    (h : Pattern.chain first rest = .chain first' rest') : first = first' ∧ rest = rest' := by
  induction rest generalizing first first' rest' with
  | nil =>
    cases rest' with
    | nil => exact ⟨congrArg Pattern.opType h, rfl⟩
    | cons second' rest' => simp [Pattern.chain, Pattern.leaf] at h
  | cons second rest ih =>
    cases rest' with
    | nil => simp [Pattern.chain, Pattern.leaf] at h
    | cons second' rest' =>
      simp only [Pattern.chain, Pattern.node.injEq, List.cons.injEq, and_true] at h
      obtain ⟨rfl, hrest⟩ := h
      obtain ⟨rfl, rfl⟩ := ih hrest
      exact ⟨rfl, rfl⟩

/-- The type of an operator is one of several texts. -/
def Op.HasType (op : Op) (types : List String) : Prop := ∃ s ∈ types, op.opType = .text s

instance (op : Op) (types : List String) : Decidable (op.HasType types) :=
  match h : op.opType with
  | .text s => decidable_of_iff (s ∈ types) (by simp [Op.HasType, h])
  | .null | .bool _ | .int _ | .real _ | .atom (.brokenText _) | .list _ | .map _ =>
      isFalse (by simp [Op.HasType, h])

/-- The types that the standard templates begin at. -/
def rootTypes : List String := ["conv2d", "depthwise_conv2d"]

/-- The types that the standard templates go on with. -/
def tailTypes : List String := ["elementwise_add", "batch_norm", "relu"]

/-- The types that the standard templates end with. -/
def leafTypes : List String := ["elementwise_add", "relu"]

/-- The types that the standard templates make. -/
def fusedTypes : List String :=
  ["conv_add_batchnorm_relu", "conv_add", "conv_bn_relu", "dwconv_bn_relu"]

namespace Template

theorem mem_standard {t : Template} : t ∈ standard ↔
    t = convAddNormRelu ∨ t = convAdd ∨ t = convNormRelu ∨ t = depthwiseNormRelu := by
  simp [standard]

/-- The types that a standard template looks for and the one it makes. -/
structure IsStandardChain (t : Template) (first second : String) (rest : List String) : Prop where
  root : t.root = .chain first ((second :: rest).map Value.text)
  first_mem : first ∈ rootTypes
  rest_mem : ∀ s ∈ second :: rest, s ∈ tailTypes
  last_mem : (second :: rest).getLastD first ∈ leafTypes
  fused_mem : ∃ s ∈ fusedTypes, t.fusedType = .text s

theorem exists_chain {t : Template} (h : t ∈ standard) :
    ∃ first second rest, t.IsStandardChain first second rest := by
  rcases mem_standard.mp h with rfl | rfl | rfl | rfl
  · exact ⟨"conv2d", "elementwise_add", ["batch_norm", "relu"], rfl, by decide, by decide,
      by decide, _, by decide, rfl⟩
  · exact ⟨"conv2d", "elementwise_add", [], rfl, by decide, by decide, by decide, _, by decide,
      rfl⟩
  · exact ⟨"conv2d", "batch_norm", ["relu"], rfl, by decide, by decide, by decide, _, by decide,
      rfl⟩
  · exact ⟨"depthwise_conv2d", "batch_norm", ["relu"], rfl, by decide, by decide, by decide, _,
      by decide, rfl⟩

/-- No standard template looks for what a standard template makes. -/
theorem standard_areFinal : AreFinal standard where
  chain := fun t ht => by
    obtain ⟨first, second, rest, h⟩ := exists_chain ht
    exact ⟨_, _, _, h.root⟩
  final := fun t ht t' ht' first rest hroot opType hType => by
    obtain ⟨_, _, _, hchain⟩ := exists_chain ht
    obtain ⟨first', second', rest', hchain'⟩ := exists_chain ht'
    obtain ⟨s, hs, hfused⟩ := hchain.fused_mem
    rw [hchain'.root] at hroot
    obtain ⟨rfl, rfl⟩ := Pattern.chain_inj hroot
    have hdisjoint : ∀ s ∈ fusedTypes, s ∉ rootTypes ∧ s ∉ tailTypes := by decide
    rw [hfused]
    rcases List.mem_cons.mp hType with rfl | hType
    · rw [Value.same_text, decide_eq_false_iff_not]
      rintro rfl
      exact (hdisjoint _ hs).1 hchain'.first_mem
    · obtain ⟨s', hs', rfl⟩ := List.mem_map.mp hType
      rw [Value.same_text, decide_eq_false_iff_not]
      rintro rfl
      exact (hdisjoint _ hs).2 (hchain'.rest_mem _ hs')

theorem standard_canRun : ∀ t ∈ standard, t.CanRun := by
  intro t ht
  rcases mem_standard.mp ht with rfl | rfl | rfl | rfl <;> exact ⟨⟨_, rfl⟩, ⟨_, rfl⟩, rfl⟩

end Template

end TensorFusion
