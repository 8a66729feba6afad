import TensorFusion.Proofs.Pass.History
import TensorFusion.Proofs.Standard.Templates

/-!
# Proofs — Standard — Rewrite

What the standard templates make of a program. A fused operator reads in its declared slot what the
convolution read, at the place of the convolution, and writes what the last operator wrote.
-/

namespace TensorFusion

namespace Registry

theorem slotsOf_of_hasType {types : List String} {slots : SlotKeys} {op : Op}
    (hall : ∀ s ∈ types, standard.slotsOfType (.text s) = slots) (h : op.HasType types) :
    standard.slotsOf op = slots := by
  obtain ⟨s, hs, hType⟩ := h
  rw [slotsOf, hType, hall s hs]

theorem slotsOf_root {op : Op} (h : op.HasType rootTypes) :
    standard.slotsOf op = ⟨[.text "Input"], [.text "Output"]⟩ :=
  slotsOf_of_hasType (by decide +kernel) h

theorem slotsOf_leaf {op : Op} (h : op.HasType leafTypes) :
    standard.slotsOf op = ⟨[.text "X"], [.text "Out"]⟩ :=
  slotsOf_of_hasType (by decide +kernel) h

theorem slotsOf_fused {op : Op} (h : op.HasType fusedTypes) :
    standard.slotsOf op = ⟨[.text "Input"], [.text "Out"]⟩ :=
  slotsOf_of_hasType (by decide +kernel) h

end Registry

namespace Fusion.Stands

variable {a₀ : Arena} {removed : List Nat} {f : Fusion}

theorem fusedType (h : f.Stands Template.standard a₀ removed) :
    ∃ s ∈ fusedTypes, f.template.fusedType = .text s := by
  obtain ⟨_, _, _, hchain⟩ := Template.exists_chain h.template_mem
  exact hchain.fused_mem

/-- The nodes of a fusion lie on a path of the types that a standard template looks for. -/
theorem exists_path (h : f.Stands Template.standard a₀ removed) : ∃ first second rest,
    f.template.IsStandardChain first second rest ∧
    f.before.Path (.text first) ((second :: rest).map Value.text) f.root f.made.absorbed := by
  obtain ⟨first, second, rest, hroot, hp⟩ := h.path
  obtain ⟨first', second', rest', hchain⟩ := Template.exists_chain h.template_mem
  rw [hchain.root] at hroot
  obtain ⟨rfl, hrest⟩ := Pattern.chain_inj hroot
  rw [← hrest] at hp
  exact ⟨first', second', rest', hchain, hp⟩

theorem leaf_mem (h : f.Stands Template.standard a₀ removed) : f.leaf ∈ f.made.absorbed := by
  obtain ⟨_, _, _, -, hp⟩ := h.exists_path
  refine leafOf_mem_of_ne_nil fun hnil => ?_
  have := hp.length_eq
  simp [hnil] at this

theorem root_op (h : f.Stands Template.standard a₀ removed) :
    ∃ op, a₀.op? f.root = some op ∧ op.HasType rootTypes := by
  obtain ⟨first, _, _, hchain, hp⟩ := h.exists_path
  obtain ⟨op, hop, hType⟩ := hp.head
  rw [h.op? f.root (by simp [members])] at hop
  exact ⟨op, hop, first, hchain.first_mem, Value.eq_text_of_same hType⟩

theorem absorbed_op (h : f.Stands Template.standard a₀ removed) {m : Nat}
    (hm : m ∈ f.made.absorbed) : ∃ op, a₀.op? m = some op ∧ op.HasType tailTypes := by
  obtain ⟨_, _, _, hchain, hp⟩ := h.exists_path
  obtain ⟨op, hop, t, ht, hType⟩ := hp.mem_rest_type hm
  obtain ⟨s, hs, rfl⟩ := List.mem_map.mp ht
  rw [h.op? m (List.mem_cons_of_mem _ hm)] at hop
  exact ⟨op, hop, s, hchain.rest_mem s hs, Value.eq_text_of_same hType⟩

theorem leaf_op (h : f.Stands Template.standard a₀ removed) :
    ∃ op, a₀.op? f.leaf = some op ∧ op.HasType leafTypes := by
  obtain ⟨first, second, rest, hchain, hp⟩ := h.exists_path
  obtain ⟨op, hop, hType⟩ := hp.leaf_type
  rw [h.op? _ (leafOf_mem _ _)] at hop
  refine ⟨op, hop, _, hchain.last_mem, Value.eq_text_of_same ?_⟩
  rw [List.getLastD_eq_getLast?, List.getLast?_map] at hType
  rw [List.getLastD_eq_getLast?]
  cases hlast : (second :: rest).getLast? with
  | none => simp at hlast
  | some last => simpa [hlast] using hType

theorem opsAt_eq (h : f.Stands Template.standard a₀ removed) :
    Walk.opsAt f.before f.made.absorbed = Walk.opsAt a₀ f.made.absorbed :=
  List.filterMap_congr fun m hm => h.op? m (List.mem_cons_of_mem _ hm)

/-- What a fused operator writes is what the last operator wrote. -/
theorem outputs_opIn (h : f.Stands Template.standard a₀ removed) {op last : Op}
    (hop : a₀.op? f.root = some op) (hlast : a₀.op? f.leaf = some last) :
    (f.opIn a₀ op).outputs = Slots.join {} last.outputs := by
  obtain ⟨_, _, _, -, hp⟩ := h.exists_path
  have hleaf := hp.op?_leaf ((h.op? f.root (by simp [members])).trans hop)
  rw [h.op? _ (leafOf_mem _ _), h.opsAt_eq] at hleaf
  have heq : (Walk.opsAt a₀ f.made.absorbed).getLastD op = last :=
    Option.some.inj (hleaf.symm.trans hlast)
  rw [opIn, Template.fusedOp, heq]

end Fusion.Stands

/-- The operator at a position reads a name in a declared slot. -/
def ReadsAt (ops : List Op) (i : Nat) (b : Atom) : Prop :=
  ∃ op ∈ ops[i]?, Registry.standard.readsName op (.atom b) = true

/-- The operator at a position writes a name in a declared slot. -/
def WritesAt (ops : List Op) (i : Nat) (b : Atom) : Prop :=
  ∃ op ∈ ops[i]?, Registry.standard.writesName op (.atom b) = true

instance (ops : List Op) (i : Nat) (b : Atom) : Decidable (ReadsAt ops i b) :=
  inferInstanceAs (Decidable (∃ op ∈ ops[i]?, _))

instance (ops : List Op) (i : Nat) (b : Atom) : Decidable (WritesAt ops i b) :=
  inferInstanceAs (Decidable (∃ op ∈ ops[i]?, _))

section Names

variable {ops : List Op} {i j : Nat} {b c : Atom}

/-- What is written at a position is one of the names there, in some spelling. -/
theorem exists_of_writesAt (h : WritesAt ops i b) : ∃ op, ops[i]? = some op ∧
    ∃ c ∈ Value.atoms (Registry.standard.writes op), c.same b = true := by
  obtain ⟨op, hop, hwrites⟩ := h
  obtain ⟨n, hn, hsame⟩ := Registry.writesName_iff.mp hwrites
  obtain ⟨c, rfl, hc⟩ := Value.atom_of_same_atom hsame
  exact ⟨op, hop, c, Value.mem_atoms.mpr hn, hc⟩

theorem WritesAt.congr (h : WritesAt ops i b) (hsame : b.same c = true) : WritesAt ops i c := by
  obtain ⟨op, hop, d, hd, hsame'⟩ := exists_of_writesAt h
  exact ⟨op, hop, Registry.writesName_iff.mpr
    ⟨.atom d, Value.mem_atoms.mp hd, by simpa using Atom.same_trans hsame' hsame⟩⟩

theorem ReadsAt.congr (h : ReadsAt ops i b) (hsame : b.same c = true) : ReadsAt ops i c := by
  obtain ⟨op, hop, hreads⟩ := h
  obtain ⟨n, hn, hsame'⟩ := Registry.readsName_iff.mp hreads
  obtain ⟨d, rfl, hd⟩ := Value.atom_of_same_atom hsame'
  exact ⟨op, hop, Registry.readsName_iff.mpr ⟨_, hn, by simpa using Atom.same_trans hd hsame⟩⟩

/-- To tell whether names are written once, those that stand in the program can be gone through. -/
theorem once_iff : (∀ i j b, WritesAt ops i b → WritesAt ops j b → i = j) ↔
    ∀ i < ops.length, ∀ op ∈ ops[i]?, ∀ c ∈ Value.atoms (Registry.standard.writes op),
      ∀ j < ops.length, WritesAt ops j c → i = j := by
  constructor
  · intro h i _ op hop c hc j _ hj
    refine h i j c ⟨op, hop, ?_⟩ hj
    exact Registry.writesName_iff.mpr ⟨.atom c, Value.mem_atoms.mp hc, by simp⟩
  · intro h i j b hi hj
    -- Only the spellings that stand in the program can be gone through.
    obtain ⟨op, hop, c, hc, hsame⟩ := exists_of_writesAt hi
    have hj' : WritesAt ops j c := hj.congr (by rw [Atom.same_comm]; exact hsame)
    obtain ⟨op', hop', -⟩ := hj
    exact h i (List.getElem?_eq_some_iff.mp hop).1 op hop c hc j
      (List.getElem?_eq_some_iff.mp hop').1 hj'

end Names

/-- The results at a position are used up inside a fusion: another of its operators comes behind. -/
def IsUsedUp (fs : List Fusion) (w : Nat) : Prop := ∃ f ∈ fs, w ∈ f.members ∧ w ≠ f.leaf

instance (fs : List Fusion) (w : Nat) : Decidable (IsUsedUp fs w) :=
  inferInstanceAs (Decidable (∃ f ∈ fs, w ∈ f.members ∧ w ≠ f.leaf))

/-- A run of the standard templates over the graph of some operators. -/
structure StandardRun (ops : List Op) (fs : List Fusion) (g : Graph) (a : Arena)
    (removed : List Nat) : Prop where
  graph : g.IsOf .standard ops
  named : ∀ op ∈ ops, op.IsNamed .standard
  shot : OneShot Template.standard g.arena fs a removed

/-- An optimizer with the standard registry and the standard templates. -/
structure Optimizer.IsStandard (o : Optimizer) : Prop where
  registry : o.registry = .standard
  templates : o.catalog.templates = Template.standard

/-- A pass with the standard registry and templates is a standard run. -/
theorem Optimizer.IsStandard.exists_pass {o : Optimizer} (ho : o.IsStandard) {p : Program}
    {out : Outcome} (h : (o.optimize p).result = .ok out) :
    ∃ block g s, p.blocks = [block] ∧ Graph.build o.registry block.ops = .ok g ∧
      o.fusePass g = .ok s ∧ StandardRun block.ops (o.fusions p) g s.arena s.removed ∧
      out = { program := programOf block s.arena s.removed } := by
  obtain ⟨block, g, s, hblock, hg, hs, hout⟩ := optimize_eq_ok h
  obtain ⟨hgraph, hnamed⟩ := Graph.isOf_of_build hg
  obtain ⟨harena, hremoved⟩ := isLeft_of_fusePass hs
  have hshot := (o.isHistory g).oneShot hgraph.wellLinked (hgraph.exists_opType hnamed)
    (ho.templates ▸ Template.standard_areFinal)
  rw [← harena, ← hremoved, ← fusions_eq hblock hg, ho.templates] at hshot
  rw [ho.registry] at hgraph hnamed
  exact ⟨block, g, s, hblock, hg, hs, ⟨hgraph, hnamed, hshot⟩, hout⟩

/-- An optimization with the standard registry and templates is a standard run. -/
theorem Optimizer.IsStandard.exists_run {o : Optimizer} (ho : o.IsStandard) {p : Program}
    {out : Outcome} (h : (o.optimize p).result = .ok out) :
    ∃ block g a removed, p.blocks = [block] ∧
      StandardRun block.ops (o.fusions p) g a removed ∧
      out = { program := programOf block a removed } := by
  obtain ⟨block, g, s, hblock, -, -, hrun, hout⟩ := ho.exists_pass h
  exact ⟨block, g, s.arena, s.removed, hblock, hrun, hout⟩

namespace StandardRun

variable {ops : List Op} {fs : List Fusion} {g : Graph} {a : Arena} {removed : List Nat}
  {i : Nat} {op' : Op}

theorem size (h : StandardRun ops fs g a removed) : a.size = ops.length :=
  h.shot.live.size.trans h.graph.size

theorem op?_root (h : StandardRun ops fs g a removed) {f : Fusion} (hf : f ∈ fs) :
    ∃ op, ops[f.root]? = some op ∧ op.HasType rootTypes ∧
      a.op? f.root = some (f.opIn g.arena op) := by
  obtain ⟨op, hop, hType⟩ := (h.shot.stands f hf).root_op
  refine ⟨op, by rw [← h.graph.op?, hop], hType, ?_⟩
  rw [h.shot.op?_root f hf, hop]
  rfl

/-- An operator of the result is one of the program, or a fused one at the place of its root. -/
theorem op_cases (h : StandardRun ops fs g a removed) (hop : a.op? i = some op') :
    ((∀ f ∈ fs, i ≠ f.root) ∧ ops[i]? = some op') ∨
      ∃ f ∈ fs, f.root = i ∧ ∃ op, ops[i]? = some op ∧ op.HasType rootTypes ∧
        op' = f.opIn g.arena op := by
  rcases h.shot.op_cases hop with ⟨hi, hop⟩ | ⟨f, hf, rfl, -⟩
  · exact .inl ⟨hi, by rw [← h.graph.op?, hop]⟩
  · obtain ⟨op, hroot, hType, hfused⟩ := h.op?_root hf
    exact .inr ⟨f, hf, rfl, op, hroot, hType, Option.some.inj (hop.symm.trans hfused)⟩

theorem opIn_hasType (h : StandardRun ops fs g a removed) {f : Fusion} (hf : f ∈ fs) (op : Op) :
    (f.opIn g.arena op).HasType fusedTypes := (h.shot.stands f hf).fusedType

/-- An operator reads in its declared slots what the operator at its place read. -/
theorem inputs_eq (h : StandardRun ops fs g a removed) (hop : a.op? i = some op') :
    ∃ op, ops[i]? = some op ∧ op'.inputs = op.inputs ∧
      (Registry.standard.slotsOf op').inputs = (Registry.standard.slotsOf op).inputs := by
  rcases h.op_cases hop with ⟨-, hop⟩ | ⟨f, hf, rfl, op, hroot, hType, rfl⟩
  · exact ⟨op', hop, rfl, rfl⟩
  · refine ⟨op, hroot, rfl, ?_⟩
    rw [Registry.slotsOf_root hType, Registry.slotsOf_fused (h.opIn_hasType hf op)]

theorem reads_eq (h : StandardRun ops fs g a removed) (hop : a.op? i = some op') :
    ∃ op, ops[i]? = some op ∧ Registry.standard.reads op' = Registry.standard.reads op := by
  obtain ⟨op, hi, hinputs, hslots⟩ := h.inputs_eq hop
  exact ⟨op, hi, by rw [Registry.reads, hinputs, hslots]; rfl⟩

/-- An operator has the output slots of the tail of its place, with each name at least once. -/
theorem outputs_eq (h : StandardRun ops fs g a removed) (hop : a.op? i = some op') :
    ∃ op, ops[tailOf fs i]? = some op ∧
      (op'.outputs = op.outputs ∨ op'.outputs = Slots.join {} op.outputs) ∧
      (Registry.standard.slotsOf op').outputs = (Registry.standard.slotsOf op).outputs := by
  rcases h.op_cases hop with ⟨hi, hop⟩ | ⟨f, hf, rfl, op, hroot, -, rfl⟩
  · rw [h.shot.tail_ne i hi]
    exact ⟨op', hop, .inl rfl, rfl⟩
  · have hstands := h.shot.stands f hf
    obtain ⟨last, hlast, hlastType⟩ := hstands.leaf_op
    rw [h.shot.tail_root f hf]
    refine ⟨last, by rw [← h.graph.op?, hlast],
      .inr (hstands.outputs_opIn (by rw [h.graph.op?, hroot]) hlast), ?_⟩
    rw [Registry.slotsOf_fused (h.opIn_hasType hf op), Registry.slotsOf_leaf hlastType]

/-- An operator writes in its declared slots what the tail of its place wrote. -/
theorem writesName_eq (h : StandardRun ops fs g a removed) (hop : a.op? i = some op') :
    ∃ op, ops[tailOf fs i]? = some op ∧ ∀ b, Registry.standard.writesName op' (.atom b)
      = Registry.standard.writesName op (.atom b) := by
  obtain ⟨op, htail, houtputs, hslots⟩ := h.outputs_eq hop
  refine ⟨op, htail, fun b => ?_⟩
  rcases houtputs with houtputs | houtputs
  · rw [Registry.writesName, Registry.writes, houtputs, hslots]
    rfl
  · -- A name that stands twice in a slot stands there once now, in one of its spellings.
    simp only [Registry.writesName, Registry.writes, Slots.select, houtputs, hslots,
      List.any_flatMap, Slots.get?_join_empty]
    congr 1
    funext slot
    cases op.outputs.get? slot with
    | none => rfl
    | some names => simpa using any_same_appendNew [] names b

/-- An operator puts out what the tail of its place put out. -/
theorem putsOut_eq (h : StandardRun ops fs g a removed) (hop : a.op? i = some op') :
    ∃ op, ops[tailOf fs i]? = some op ∧ ∀ b, op'.putsOut b = op.putsOut b := by
  obtain ⟨op, htail, houtputs, -⟩ := h.outputs_eq hop
  refine ⟨op, htail, fun b => ?_⟩
  rcases houtputs with houtputs | houtputs
  · rw [Op.putsOut, houtputs]
    rfl
  · rw [Op.putsOut, houtputs, Slots.any_names_join_empty]
    rfl

/-- What is not used up inside a fusion is still written, at the same place or before. -/
theorem exists_head (h : StandardRun ops fs g a removed) {w : Nat} (hw : ¬ IsUsedUp fs w) :
    ∃ j, j ≤ w ∧ j ∉ removed ∧ tailOf fs j = w := by
  have hleafOf : ∀ f ∈ fs, w ∈ f.members → w = f.leaf := fun f hf hmem =>
    Decidable.not_not.mp fun hne => hw ⟨f, hf, hmem, hne⟩
  by_cases hlive : w ∈ removed
  · rw [h.shot.removed_eq] at hlive
    obtain ⟨f, hf, hmem⟩ := List.mem_flatMap.mp hlive
    have hstands := h.shot.stands f hf
    have hleaf := hleafOf f hf (List.mem_cons_of_mem _ hmem)
    refine ⟨f.root, ?_, hstands.root_live, by rw [h.shot.tail_root f hf, hleaf]⟩
    rw [hleaf]
    exact le_leafOf hstands.ascending (by simp)
  · refine ⟨w, Nat.le_refl w, hlive, h.shot.tail_ne w fun f hf hroot => ?_⟩
    -- The leaf of a fusion is absorbed, so it is not the root.
    have hstands := h.shot.stands f hf
    have hleaf := hleafOf f hf (by simp [hroot, Fusion.members])
    exact hlive (hleaf ▸ hstands.absorbed_removed _ hstands.leaf_mem)

/-- The operator of the result that has the output slots of one that is not used up. -/
theorem exists_op_of_tail (h : StandardRun ops fs g a removed) {w : Nat} {e : Op}
    (he : ops[w]? = some e) (hw : ¬ IsUsedUp fs w) :
    ∃ j e', j ≤ w ∧ j ∉ removed ∧ tailOf fs j = w ∧ a.op? j = some e' := by
  obtain ⟨j, hjw, hj, htail⟩ := h.exists_head hw
  have hlength : w < ops.length := (List.getElem?_eq_some_iff.mp he).1
  have hbound : j < a.size := by
    rw [h.size]
    omega
  obtain ⟨e', he'⟩ := Arena.op?_of_lt hbound
  exact ⟨j, e', hjw, hj, htail, he'⟩

/-- What a live node reads is not used up. -/
theorem not_isUsedUp_of_producer (h : StandardRun ops fs g a removed) {w k : Nat}
    (hk : k ∉ removed) (hw : w ∈ producersOf .standard ops k) : ¬ IsUsedUp fs w := by
  intro hused
  obtain ⟨f, hf, hmem, hne⟩ := hused
  exact hk ((h.shot.stands f hf).usedUp w hmem hne k (h.graph.mem_outputs.mpr hw))

/-- What the tail of a live node puts out is not used up. -/
theorem not_isUsedUp_tail (h : StandardRun ops fs g a removed) (hi : i ∉ removed) :
    ¬ IsUsedUp fs (tailOf fs i) := by
  intro hused
  obtain ⟨f, hf, hmem, hne⟩ := hused
  have hstands := h.shot.stands f hf
  rcases Fusion.root_cases fs i with hroot | ⟨f', hf', rfl⟩
  · rw [h.shot.tail_ne i hroot] at hmem
    rcases List.mem_cons.mp hmem with heq | hmem
    · exact hroot f hf heq
    · exact hi (hstands.absorbed_removed i hmem)
  · have hstands' := h.shot.stands f' hf'
    rw [h.shot.tail_root f' hf'] at hmem hne
    rcases List.mem_cons.mp hmem with heq | hmem
    · exact hstands.root_live (heq ▸ hstands'.absorbed_removed _ hstands'.leaf_mem)
    · exact hne (by rw [h.shot.eq_of_mem_absorbed hf' hf hstands'.leaf_mem hmem])

end StandardRun

end TensorFusion
