import TensorFusion.Proofs.Standard.Operators
import TensorFusion.Proofs.Standard.Safe

/-!
# Proofs — Standard — Stages

A fused operator computes what the operators computed one after another that it replaces. Its stages
are theirs with the slots renamed; the parameters and attributes that each stage looks at come
through the merge, since no other operator of the chain writes them over.
-/

namespace TensorFusion

/-! ## What the stages look at -/

/-- The stages of the reference operator of a type. -/
def stagesOf (opType : String) : List Stage :=
  match Operator.ofType (.text opType) with
  | .ok o => o.stages
  | .error _ => []

/-- The slots that the stages of a type look at. -/
def slotsRead (opType : String) : List String := (stagesOf opType).flatMap Stage.slots

/-- The attributes that the stages of a type look at. -/
def attrKeysRead (opType : String) : List String := (stagesOf opType).flatMap Stage.attrKeys

theorem slotsRead_tail : ∀ s ∈ tailTypes, slotsRead s = tailParams s ∧ "X" ∉ slotsRead s := by
  decide +kernel

theorem mem_attrOwners : ∀ s ∈ rootTypes ++ tailTypes, ∀ key ∈ attrKeysRead s,
    s ∈ attrOwners (.text key) := by
  decide +kernel

/-! ## What the templates compose -/

/-- The new name of a slot in a fused operator. -/
def Template.renameSlot (t : Template) (opType slot : String) : String :=
  match renameIn (t.renaming (.text opType)) (.text slot) with
  | .text s => s
  | _ => slot

/-- A template makes an operator that does what operators of the types of its chain do one after
another, and it keeps apart what they look at. -/
structure Template.Composes (t : Template) (first : String) (rest : List String) : Prop where
  operator : ∃ name, Operator.ofType t.fusedType = .ok ⟨name, .fused, "Input",
    (first :: rest).flatMap fun s => (stagesOf s).map (Stage.mapSlots (t.renameSlot s)), "Out"⟩
  first_mem : first ∈ rootTypes
  rest_mem : ∀ s ∈ rest, s ∈ tailTypes
  renaming_first : t.renaming (.text first) = []
  rename_param : ∀ s ∈ rest, ∀ slot ∈ tailParams s,
    renameIn (t.renaming (.text s)) (.text slot) = .text (t.renameSlot s slot)
  rename_inj : ∀ s ∈ rest, ∀ slot ∈ tailParams s, ∀ slot' ∈ tailParams s,
    t.renameSlot s slot = t.renameSlot s slot' → slot = slot'
  params_apart : (first :: rest).Pairwise fun s s' =>
    ∀ slot ∈ slotsRead s, ∀ slot' ∈ tailParams s', t.renameSlot s' slot' ≠ t.renameSlot s slot
  attrs_apart : (first :: rest).Pairwise fun s s' =>
    ∀ key ∈ attrKeysRead s ++ attrKeysRead s',
      ¬ (s ∈ attrOwners (.text key) ∧ s' ∈ attrOwners (.text key))
  attrs_kept : ∀ s ∈ first :: rest, ∀ pair ∈ t.renaming (.text s),
    ∀ s' ∈ first :: rest, ∀ key ∈ attrKeysRead s',
    pair.1.same (.text key) = false ∧ pair.2.same (.text key) = false
  kernel_kept : ∀ s ∈ first :: rest, ∀ pair ∈ t.renaming (.text s),
    pair.1.same (.text "Filter") = false ∧ pair.2.same (.text "Filter") = false

/-- The standard templates with the types of their chains. -/
def standardChains : List (Template × String × List String) :=
  [(.convAddNormRelu, "conv2d", ["elementwise_add", "batch_norm", "relu"]),
    (.convAdd, "conv2d", ["elementwise_add"]),
    (.convNormRelu, "conv2d", ["batch_norm", "relu"]),
    (.depthwiseNormRelu, "depthwise_conv2d", ["batch_norm", "relu"])]

theorem composes_of_mem : ∀ c ∈ standardChains, c.1.Composes c.2.1 c.2.2 := by
  have hoperator : ∀ c ∈ standardChains, ∃ name, Operator.ofType c.1.fusedType = .ok
      ⟨name, .fused, "Input", (c.2.1 :: c.2.2).flatMap fun s =>
        (stagesOf s).map (Stage.mapSlots (c.1.renameSlot s)), "Out"⟩ := by
    simp only [standardChains, List.forall_mem_cons]
    exact ⟨⟨_, rfl⟩, ⟨_, rfl⟩, ⟨_, rfl⟩, ⟨_, rfl⟩, by simp⟩
  intro c hc
  refine ⟨hoperator c hc, ?_, ?_, ?_, ?_, ?_, ?_, ?_, ?_, ?_⟩ <;> revert c <;> decide +kernel

theorem Template.IsStandardChain.composes {t : Template} {first second : String}
    {rest : List String} (h : t.IsStandardChain first second rest) (ht : t ∈ standard) :
    t.Composes first (second :: rest) := by
  obtain ⟨c, hc, rfl, hroot⟩ : ∃ c ∈ standardChains, c.1 = t ∧
      t.root = .chain c.2.1 (c.2.2.map Value.text) := by
    rcases mem_standard.mp ht with rfl | rfl | rfl | rfl
    · exact ⟨standardChains[0], by simp [standardChains], rfl, rfl⟩
    · exact ⟨standardChains[1], by simp [standardChains], rfl, rfl⟩
    · exact ⟨standardChains[2], by simp [standardChains], rfl, rfl⟩
    · exact ⟨standardChains[3], by simp [standardChains], rfl, rfl⟩
  rw [h.root] at hroot
  obtain ⟨hfirst, hrest⟩ := Pattern.chain_inj hroot
  have htext : Function.Injective Value.text := fun s s' hs => by
    cases hs
    rfl
  rw [htext hfirst, List.map_injective_iff.mpr htext hrest]
  exact composes_of_mem c hc

/-! ## One operator of a chain -/

/-- A key is not found under a name that the renaming neither takes nor gives. -/
theorem Template.renameIn_same {pairs : Renaming} {new : Atom}
    (h : ∀ pair ∈ pairs, pair.1.same new = false ∧ pair.2.same new = false) (key : Atom) :
    (renameIn pairs key).same new = key.same new := by
  unfold renameIn
  split
  next pair hfind =>
    obtain ⟨hold, hnew⟩ := h pair (List.mem_of_find?_eq_some hfind)
    have hkey : pair.1.same key = true :=
      List.find?_some (p := fun pair : Atom × Atom => pair.1.same key) hfind
    rw [hnew, eq_comm, ← Bool.not_eq_true]
    intro hsame
    rw [Atom.same_trans hkey hsame] at hold
    cases hold
  next => rfl

theorem Op.stagesOf_eq {op : Op} {s : String} {o : Operator} (hType : op.opType = .text s)
    (ho : Operator.ofType op.opType = .ok o) : stagesOf s = o.stages := by
  rw [hType] at ho
  rw [stagesOf, ho]

theorem Op.paramName_eq_ok {op : Op} {slot : String} {name : Value} :
    op.paramName slot = .ok name ↔
      (∃ rest, op.params.get? (.text slot) = some (name :: rest)) ∨
      (op.params.get? (.text slot) = none ∧
        ∃ rest, op.inputs.get? (.text slot) = some (name :: rest)) := by
  unfold paramName Table.contains
  cases hget : op.params.get? (.text slot) with
  | none => simp [firstName_eq_ok]
  | some names => simp [firstName_eq_ok, hget]

section Chain

variable {t : Template} {first : String} {rest : List String} {root op : Op}
  {absorbed pre post : List Op} {s : String}

/-- Operators of the types of a chain, from the first on. -/
structure Template.IsChainOf (first : String) (rest : List String) (root : Op)
    (absorbed : List Op) : Prop where
  types : (root :: absorbed).map Op.opType = (first :: rest).map Value.text
  plain : ∀ op ∈ root :: absorbed, op.IsPlain

/-- Where an operator stands among the operators of a chain, there its type stands among the types,
with the types of the operators in front and behind. -/
theorem Template.IsChainOf.split (h : IsChainOf first rest root absorbed)
    (hops : root :: absorbed = pre ++ op :: post) :
    ∃ s before after, first :: rest = before ++ s :: after ∧ op.opType = .text s ∧
      (∀ e ∈ pre, ∃ s' ∈ before, e.opType = .text s') ∧
      (∀ e ∈ post, ∃ s' ∈ after, e.opType = .text s') ∧ (pre = [] ↔ before = []) := by
  have htypes := h.types
  rw [hops, List.map_append, List.map_cons] at htypes
  obtain ⟨before, back, hsplit, hbefore, hback⟩ := List.map_eq_append_iff.mp htypes.symm
  obtain ⟨s, after, rfl, hs, hafter⟩ := List.map_eq_cons_iff.mp hback
  have hmem : ∀ {ops : List Op} {types : List String}, types.map Value.text = ops.map Op.opType →
      ∀ e ∈ ops, ∃ s' ∈ types, e.opType = .text s' := fun heq e he => by
    have hType := List.mem_map_of_mem (f := Op.opType) he
    rw [← heq] at hType
    obtain ⟨s', hs', hsame⟩ := List.mem_map.mp hType
    exact ⟨s', hs', hsame.symm⟩
  refine ⟨s, before, after, hsplit, hs.symm, hmem hbefore, hmem hafter, ?_⟩
  rw [← List.map_eq_nil_iff (f := Op.opType), ← hbefore, List.map_eq_nil_iff]

namespace Template.Composes

/-- In a chain an operator is the first, of which nothing is renamed, or one of those behind it. -/
theorem first_or_mem (hc : t.Composes first rest) {before after : List String}
    (hsplit : first :: rest = before ++ s :: after) :
    (before = [] ∧ s = first ∧ ∀ slot, t.renameSlot s slot = slot) ∨ s ∈ rest := by
  cases before with
  | nil =>
    obtain ⟨rfl, -⟩ := List.cons.inj hsplit
    exact .inl ⟨rfl, rfl, fun slot => by simp [renameSlot, hc.renaming_first, renameIn]⟩
  | cons b before =>
    obtain ⟨-, rfl⟩ := List.cons.inj hsplit
    exact .inr (by simp)

theorem mem_after {before after : List String} (hsplit : first :: rest = before ++ s :: after)
    {s' : String} (hs' : s' ∈ after) : s' ∈ rest := by
  cases before with
  | nil =>
    obtain ⟨-, rfl⟩ := List.cons.inj hsplit
    exact hs'
  | cons b before =>
    obtain ⟨-, rfl⟩ := List.cons.inj hsplit
    simp [hs']

/-- The parameter slots of an operator behind the first are those of its type. -/
theorem exists_slot (hc : t.Composes first rest) (hs : s ∈ rest) (hplain : op.IsPlain)
    (hType : op.opType = .text s) {e : Atom × List Value} (he : e ∈ op.params.entries) :
    ∃ slot ∈ tailParams s, e.1 = .text slot ∧
      renameIn (t.renaming op.opType) e.1 = .text (t.renameSlot s slot) := by
  obtain ⟨slot, hslot, hkey⟩ :=
    hplain.params s (hc.rest_mem s hs) ⟨s, by simp, hType⟩ e.1 (List.mem_map_of_mem he)
  exact ⟨slot, hslot, hkey, by rw [hType, hkey, hc.rename_param s hs slot hslot]⟩

/-- What an operator of a chain has in a slot that its stages look at, the fused operator has under
the new name, unless an operator in front has something there that the operator has not. -/
theorem get?_params (hc : t.Composes first rest) (h : IsChainOf first rest root absorbed)
    (hops : root :: absorbed = pre ++ op :: post) (hType : op.opType = .text s) {slot : String}
    (hslot : slot ∈ slotsRead s) :
    (t.fusedOp root absorbed).params.get? (.text (t.renameSlot s slot))
      = (op.params.get? (.text slot)).or
        (Table.lookup (t.paramWrites pre).reverse (.text (t.renameSlot s slot))) := by
  obtain ⟨s', before, after, hsplit, hType', -, hpost, -⟩ := h.split hops
  rw [hType] at hType'
  cases hType'
  have hplain : op.IsPlain := h.plain op (by simp [hops])
  have happart := hc.params_apart
  rw [hsplit] at happart
  have happart := (List.pairwise_cons.mp (List.pairwise_append.mp happart).2.1).1
  have hmerge : (t.fusedOp root absorbed).params = (t.merge (pre ++ op :: post)).params := by
    rw [← hops]
    rfl
  rw [hmerge, Template.get?_params]
  refine lookup_writes (fun op => op.params.entries) op.params.distinct (fun e he => ?_)
    (fun op' hop' e he => ?_)
  · rcases hc.first_or_mem hsplit with ⟨-, hs, hkeep⟩ | hs
    · rw [hkeep, hType, hs, hc.renaming_first]
      rfl
    · -- Of the slots of a type no two get the same new name.
      obtain ⟨slot', hslot', hkey, hnew⟩ := hc.exists_slot hs hplain hType he
      rw [hnew, hkey, Atom.same_text, Atom.same_text, decide_eq_decide]
      refine ⟨fun heq => ?_, fun heq => by rw [heq]⟩
      rw [(slotsRead_tail s (hc.rest_mem s hs)).1] at hslot
      exact hc.rename_inj s hs slot' hslot' slot hslot heq
  · -- Nor does a slot of an operator behind get the new name of this one.
    obtain ⟨s', hs', hType'⟩ := hpost op' hop'
    obtain ⟨slot', hslot', -, hnew⟩ := hc.exists_slot (mem_after hsplit hs')
      (h.plain op' (by simp [hops, hop'])) hType' he
    rw [hnew, Atom.same_text, decide_eq_false_iff_not]
    exact happart s' hs' slot hslot slot' hslot'

/-- The fused operator finds the tensors that an operator of a chain found, under the new names. -/
theorem fetchParam (hc : t.Composes first rest) (h : IsChainOf first rest root absorbed)
    (hops : root :: absorbed = pre ++ op :: post) (hType : op.opType = .text s) {slot : String}
    (hslot : slot ∈ slotsRead s) {τ : Type} {feeds : Scope τ} {x : τ}
    (hx : op.fetchParam feeds slot = .ok x) :
    (t.fusedOp root absorbed).fetchParam feeds (t.renameSlot s slot) = .ok x := by
  have hget := hc.get?_params h hops hType hslot
  simp only [Op.fetchParam, bind_eq_ok, Op.paramName_eq_ok] at hx ⊢
  obtain ⟨name, ⟨names, hparam⟩ | ⟨hnone, names, hinput⟩, hx⟩ := hx
  · exact ⟨name, .inl ⟨names, by rw [hget, hparam, Option.some_or]⟩, hx⟩
  · obtain ⟨s', before, after, hsplit, hType', -, -, hpre⟩ := h.split hops
    rw [hType] at hType'
    cases hType'
    rcases hc.first_or_mem hsplit with ⟨hbefore, -, hkeep⟩ | hs
    · -- The first operator hands over its inputs as well.
      rw [hpre.mpr hbefore] at hops hget
      obtain ⟨rfl, -⟩ := List.cons.inj hops
      rw [hkeep] at hget ⊢
      exact ⟨name, .inr ⟨by rw [hget, hnone]; rfl, names, hinput⟩, hx⟩
    · -- Behind the first there is no input that a stage looks at.
      have hs := hc.rest_mem s hs
      obtain ⟨n, hentries⟩ := (h.plain op (by simp [hops])).input ⟨s, hs, hType⟩
      have hne : slot ≠ "X" := by
        rintro rfl
        exact (slotsRead_tail s hs).2 hslot
      simp [Table.get?, hentries, Table.lookup, hne.symm] at hinput

theorem mem_types (hc : t.Composes first rest) (hs : s ∈ first :: rest) :
    s ∈ rootTypes ++ tailTypes := by
  rcases List.mem_cons.mp hs with rfl | hs
  · exact List.mem_append_left _ hc.first_mem
  · exact List.mem_append_right _ (hc.rest_mem s hs)

/-- No renaming of a chain takes or gives an attribute that a stage of the chain looks at. -/
theorem renameIn_attr (hc : t.Composes first rest) (hs : s ∈ first :: rest) {key : String}
    (hkey : key ∈ attrKeysRead s) {s' : String} (hs' : s' ∈ first :: rest) (old : Atom) :
    (renameIn (t.renaming (.text s')) old).same (.text key) = old.same (.text key) :=
  renameIn_same (fun pair hpair => hc.attrs_kept s' hs' pair hpair s hs key hkey) old

/-- An operator of a chain does not have an attribute that does not belong to its type. -/
theorem attr_apart (hc : t.Composes first rest) (h : IsChainOf first rest root absorbed)
    (hs : s ∈ first :: rest) {key : String} (hkey : key ∈ attrKeysRead s)
    (hop : op ∈ root :: absorbed) {s' : String} (hType : op.opType = .text s')
    (hs' : s' ∈ first :: rest) (hnot : s' ∉ attrOwners (.text key)) {e : Atom × Value}
    (he : e ∈ op.attrs.entries) :
    (renameIn (t.renaming op.opType) e.1).same (.text key) = false := by
  rw [hType, hc.renameIn_attr hs hkey hs', ← Bool.not_eq_true]
  intro hsame
  have hkey' : e.1 = .text key := by
    simpa using Value.eq_text_of_same (v := .atom e.1) (by simpa using hsame)
  obtain ⟨s'', hs'', heq⟩ :=
    (h.plain op hop).attrs ⟨s', hc.mem_types hs', hType⟩ e.1 (List.mem_map_of_mem he)
  rw [hType] at heq
  cases heq
  rw [hkey'] at hs''
  exact hnot hs''

/-- The fused operator has the attributes that the stages of an operator of a chain look at. -/
theorem get?_attrs (hc : t.Composes first rest) (h : IsChainOf first rest root absorbed)
    (hops : root :: absorbed = pre ++ op :: post) (hType : op.opType = .text s) {key : String}
    (hkey : key ∈ attrKeysRead s) :
    (t.fusedOp root absorbed).attrs.get? (.text key) = op.attrs.get? (.text key) := by
  obtain ⟨s', before, after, hsplit, hType', hpre, hpost, -⟩ := h.split hops
  rw [hType] at hType'
  cases hType'
  have happart := hc.attrs_apart
  rw [hsplit] at happart
  obtain ⟨-, hbehind, hfront⟩ := List.pairwise_append.mp happart
  have hs : s ∈ first :: rest := by simp [hsplit]
  have hown : s ∈ attrOwners (.text key) := mem_attrOwners s (hc.mem_types hs) key hkey
  have hmerge : (t.fusedOp root absorbed).attrs = (t.merge (pre ++ op :: post)).attrs := by
    rw [← hops]
    rfl
  have hkeep : ∀ e ∈ op.attrs.entries, (renameIn (t.renaming op.opType) e.1).same (.text key)
      = e.1.same (.text key) := fun e _ => by
    rw [hType]
    exact hc.renameIn_attr hs hkey hs e.1
  -- Neither in front nor behind is there an operator that has the attribute.
  have hnone : ∀ op' ∈ pre, ∀ e ∈ op'.attrs.entries,
      (renameIn (t.renaming op'.opType) e.1).same (.text key) = false := fun op' hop' e he => by
    obtain ⟨s', hs', hType'⟩ := hpre op' hop'
    refine hc.attr_apart h hs hkey (by simp [hops, hop']) hType' (by simp [hsplit, hs']) ?_ he
    exact fun hmem =>
      hfront s' hs' s (by simp) key (List.mem_append_right _ hkey) ⟨hmem, hown⟩
  have hlast : ∀ op' ∈ post, ∀ e ∈ op'.attrs.entries,
      (renameIn (t.renaming op'.opType) e.1).same (.text key) = false := fun op' hop' e he => by
    obtain ⟨s', hs', hType'⟩ := hpost op' hop'
    refine hc.attr_apart h hs hkey (by simp [hops, hop']) hType' (by simp [hsplit, hs']) ?_ he
    exact fun hmem =>
      (List.pairwise_cons.mp hbehind).1 s' hs' key (List.mem_append_left _ hkey) ⟨hown, hmem⟩
  rw [hmerge, Template.get?_attrs, attrWrites,
    lookup_writes (fun op => op.attrs.entries) op.attrs.distinct hkeep hlast,
    lookup_writes_eq_none (fun op => op.attrs.entries) hnone, Option.or_none]
  rfl

/-- A fused operator computes what the operators of the chain computed one after another. -/
theorem compute_fusedOp (hc : t.Composes first rest) (h : IsChainOf first rest root absorbed)
    {τ : Type} {lib : TensorLibrary τ} {feeds : Scope τ} {x y : τ}
    (hrun : (root :: absorbed).foldlM (fun x op => op.compute lib feeds x) x = .ok y) :
    (t.fusedOp root absorbed).compute lib feeds x = .ok y := by
  obtain ⟨name, hfused⟩ := hc.operator
  -- The stages are gone through operator by operator.
  suffices ∀ (post pre : List Op) (types : List String) (x : τ),
      root :: absorbed = pre ++ post → post.map Op.opType = types.map Value.text →
      post.foldlM (fun x op => op.compute lib feeds x) x = .ok y →
      (types.flatMap fun s => (stagesOf s).map (Stage.mapSlots (t.renameSlot s))).foldlM
        (Stage.run lib (t.fusedOp root absorbed) feeds) x = .ok y by
    have hstages := this (root :: absorbed) [] (first :: rest) x rfl h.types hrun
    have hType : (t.fusedOp root absorbed).opType = t.fusedType := rfl
    rw [Op.compute, hType, hfused]
    exact hstages
  intro post
  induction post with
  | nil =>
    intro pre types x _ htypes hrun
    rw [List.map_eq_nil_iff.mp htypes.symm]
    exact hrun
  | cons op post ih =>
    intro pre types x hops htypes hrun
    obtain ⟨s, types', rfl, hs, htypes'⟩ := List.map_eq_cons_iff.mp htypes.symm
    rw [List.foldlM_cons, bind_eq_ok] at hrun
    obtain ⟨z, hz, hrun⟩ := hrun
    obtain ⟨o, ho, hz⟩ := bind_eq_ok.mp hz
    have hstages := Op.stagesOf_eq hs.symm ho
    rw [← hstages] at hz
    have hfirst : ((stagesOf s).map (Stage.mapSlots (t.renameSlot s))).foldlM
        (Stage.run lib (t.fusedOp root absorbed) feeds) x = .ok z :=
      Stage.foldlM_run_transfer
        (fun st hst slot hslot _ htensor => hc.fetchParam h hops hs.symm
          (List.mem_flatMap.mpr ⟨st, hst, hslot⟩) htensor)
        (fun st hst key hkey =>
          hc.get?_attrs h hops hs.symm (List.mem_flatMap.mpr ⟨st, hst, hkey⟩)) hz
    rw [List.flatMap_cons, List.foldlM_append, hfirst, ok_bind]
    exact ih (pre ++ [op]) types' z (by simp [hops]) htypes'.symm hrun

end Template.Composes

end Chain

end TensorFusion
