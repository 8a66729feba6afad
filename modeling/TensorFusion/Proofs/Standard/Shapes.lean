import TensorFusion.Proofs.Standard.Semantics

/-!
# Proofs — Standard — Shapes

Fusion keeps the shapes that are inferred. A fused operator has the shape of its convolution, which
is computed from the kernel slot and three attributes alone; no template renames these, and where
the operators behind the convolution have none of their own, the fused operator has those of the
convolution. Less is asked of a program than for the sake of tensors.
-/

namespace TensorFusion

/-- The attributes that the shape of a convolution depends on. -/
def shapeAttrs : List String := ["strides", "paddings", "dilations"]

/-- What is asked of a program and of the shapes that are given: names in declared slots are keys,
each name is written once, and none that is given; what is read in other slots is given; and an
operator that the standard templates go on with has one input, and neither a kernel nor an attribute
that the shape of a convolution depends on. -/
structure ShapeSafe (shapes : Scope (List Value)) (ops : List Op) : Prop where
  named : ∀ op ∈ ops, op.IsNamed .standard
  once : ∀ i j b, WritesAt ops i b → WritesAt ops j b → i = j
  fresh : ∀ i b, WritesAt ops i b → shapes.get? b = none
  fed : ∀ op ∈ ops, ∀ name ∈ Registry.standard.otherReads op, ∃ x, shapes.fetch name = .ok x
  input : ∀ op ∈ ops, op.HasType tailTypes → ∃ name, op.inputs.get? (.text "X") = some [name]
  kernel : ∀ op ∈ ops, op.HasType tailTypes → op.params.get? (.text "Filter") = none
  attrs : ∀ op ∈ ops, op.HasType tailTypes → ∀ key ∈ shapeAttrs, op.attrs.get? (.text key) = none

instance (op : Op) (key : Atom) : Decidable (∃ name, op.inputs.get? key = some [name]) :=
  decidable_of_iff ((op.inputs.get? key).map List.length = some 1) <| by
    cases op.inputs.get? key with
    | none => simp
    | some names => simp [List.length_eq_one_iff]

instance (shapes : Scope (List Value)) (ops : List Op) : Decidable (ShapeSafe shapes ops) :=
  decidable_of_iff ((∀ op ∈ ops, op.IsNamed .standard) ∧
      (∀ i < ops.length, ∀ op ∈ ops[i]?, ∀ c ∈ Value.atoms (Registry.standard.writes op),
        ∀ j < ops.length, WritesAt ops j c → i = j) ∧
      (∀ op ∈ ops, ∀ c ∈ Value.atoms (Registry.standard.writes op),
        (shapes.get? c).isNone = true) ∧
      (∀ op ∈ ops, ∀ name ∈ Registry.standard.otherReads op, (shapes.fetch name).isOk = true) ∧
      (∀ op ∈ ops, op.HasType tailTypes → ∃ name, op.inputs.get? (.text "X") = some [name]) ∧
      (∀ op ∈ ops, op.HasType tailTypes → (op.params.get? (.text "Filter")).isNone = true) ∧
      ∀ op ∈ ops, op.HasType tailTypes →
        ∀ key ∈ shapeAttrs, (op.attrs.get? (.text key)).isNone = true) <| by
    rw [← once_iff, ← fresh_iff]
    simp only [isOk_iff, Option.isNone_iff_eq_none]
    exact ⟨fun h => ⟨h.1, h.2.1, h.2.2.1, h.2.2.2.1, h.2.2.2.2.1, h.2.2.2.2.2.1, h.2.2.2.2.2.2⟩,
      fun h => ⟨h.named, h.once, h.fresh, h.fed, h.input, h.kernel, h.attrs⟩⟩

/-! ## The operators of a chain -/

theorem Operator.kernel_of_mem_standard : ∀ o ∈ standard,
    (o.opType ∈ rootTypes → o.kernel? = some "Filter") ∧
    (o.opType ∈ tailTypes → o.input = "X" ∧ o.kernel? = none) ∧
    (o.kind = .fused → o.kernel? = some "Filter") := by
  decide +kernel

theorem shapeAttrs_subset : ∀ s ∈ rootTypes, ∀ key ∈ shapeAttrs, key ∈ attrKeysRead s := by
  decide +kernel

namespace Op

variable {op root : Op} {shapes : Scope (List Value)} {x y : List Value} {o : Operator}

theorem HasType.mem_of_operator {types : List String} (h : op.HasType types)
    (ho : Operator.ofType op.opType = .ok o) : o ∈ Operator.standard ∧ o.opType ∈ types := by
  obtain ⟨s, hs, hType⟩ := h
  obtain ⟨hsame, hmem⟩ := Operator.ofType_eq_ok ho
  rw [hType] at hsame
  cases hsame
  exact ⟨hmem, hs⟩

/-- An operator behind a convolution keeps the shape. -/
theorem computeShape_of_tail (hType : op.HasType tailTypes)
    (h : op.computeShape shapes x = .ok y) : y = x := by
  obtain ⟨o, ho, h⟩ := bind_eq_ok.mp h
  obtain ⟨hmem, hs⟩ := hType.mem_of_operator ho
  rw [((Operator.kernel_of_mem_standard o hmem).2.1 hs).2] at h
  exact (pure_eq_ok.mp h).symm

theorem foldlM_computeShape_of_tail {ops : List Op} (hTypes : ∀ op ∈ ops, op.HasType tailTypes)
    (h : ops.foldlM (fun x op => op.computeShape shapes x) x = .ok y) : y = x := by
  induction ops generalizing x with
  | nil =>
    cases h
    rfl
  | cons op ops ih =>
    rw [List.foldlM_cons, bind_eq_ok] at h
    obtain ⟨z, hz, h⟩ := h
    rw [ih (fun op' hop' => hTypes op' (by simp [hop'])) h,
      computeShape_of_tail (hTypes op (by simp)) hz]

/-- An operator that begins with a convolution with its kernel in the usual slot has the shape of
that. -/
theorem computeShape_eq (ho : Operator.ofType op.opType = .ok o) (h : o.kernel? = some "Filter") :
    op.computeShape shapes x = op.fetchParam shapes "Filter" >>= op.convolvedShape x := by
  rw [computeShape, ho, ok_bind, h]

theorem convolvedShape_congr
    (h : ∀ key ∈ shapeAttrs, op.attrs.get? (.text key) = root.attrs.get? (.text key)) :
    op.convolvedShape = root.convolvedShape := by
  have hstrides := h "strides" (by simp [shapeAttrs])
  have hpaddings := h "paddings" (by simp [shapeAttrs])
  have hdilations := h "dilations" (by simp [shapeAttrs])
  funext image kernel
  unfold convolvedShape
  simp only [pairAttr, hstrides, hpaddings, hdilations]

end Op

/-! ## A fused operator -/

namespace Template.Composes

variable {t : Template} {first : String} {rest : List String} {root : Op} {absorbed : List Op}

theorem exists_type_of_absorbed
    (htypes : (root :: absorbed).map Op.opType = (first :: rest).map Value.text) {op : Op}
    (hop : op ∈ absorbed) : ∃ s ∈ rest, op.opType = .text s := by
  obtain ⟨-, hrest⟩ := List.cons.inj htypes
  obtain ⟨s, hs, hsame⟩ := List.mem_map.mp (hrest ▸ List.mem_map_of_mem (f := Op.opType) hop)
  exact ⟨s, hs, hsame.symm⟩

theorem hasType_of_absorbed (hc : t.Composes first rest)
    (htypes : (root :: absorbed).map Op.opType = (first :: rest).map Value.text) {op : Op}
    (hop : op ∈ absorbed) : op.HasType tailTypes := by
  obtain ⟨s, hs, hType⟩ := exists_type_of_absorbed htypes hop
  exact ⟨s, hc.rest_mem s hs, hType⟩

/-- What stands at a key that is not renamed, and that the operators behind the first do not have,
comes from the first. -/
theorem lookup_writes_root {β : Type} (hc : t.Composes first rest)
    (htypes : (root :: absorbed).map Op.opType = (first :: rest).map Value.text)
    (entriesOf : Op → List (Atom × β))
    (hdistinct : ((entriesOf root).map fun e => e.1.key).Nodup) {key : Atom}
    (hkept : ∀ s ∈ rest, ∀ pair ∈ t.renaming (.text s),
      pair.1.same key = false ∧ pair.2.same key = false)
    (hnone : ∀ op ∈ absorbed, Table.lookup (entriesOf op) key = none) :
    Table.lookup ((root :: absorbed).flatMap fun op =>
      renamed (t.renaming op.opType) (entriesOf op)).reverse key
      = Table.lookup (entriesOf root) key := by
  obtain ⟨hroot, -⟩ := List.cons.inj htypes
  have hown : ∀ e ∈ entriesOf root,
      (renameIn (t.renaming root.opType) e.1).same key = e.1.same key := fun e _ => by
    rw [hroot, hc.renaming_first]
    rfl
  have hbehind : ∀ op ∈ absorbed, ∀ e ∈ entriesOf op,
      (renameIn (t.renaming op.opType) e.1).same key = false := fun op hop e he => by
    obtain ⟨s, hs, hType⟩ := exists_type_of_absorbed htypes hop
    rw [hType, renameIn_same (hkept s hs)]
    exact Table.lookup_eq_none_iff.mp (hnone op hop) e he
  rw [← List.nil_append (root :: absorbed), lookup_writes entriesOf hdistinct hown hbehind]
  exact Option.or_none

/-- A fused operator has the shape that its convolution had. -/
theorem computeShape_fusedOp (hc : t.Composes first rest)
    (htypes : (root :: absorbed).map Op.opType = (first :: rest).map Value.text)
    (hkernel : ∀ op ∈ absorbed, op.params.get? (.text "Filter") = none)
    (hattrs : ∀ op ∈ absorbed, ∀ key ∈ shapeAttrs, op.attrs.get? (.text key) = none)
    {shapes : Scope (List Value)} {x y : List Value}
    (hrun : (root :: absorbed).foldlM (fun x op => op.computeShape shapes x) x = .ok y) :
    (t.fusedOp root absorbed).computeShape shapes x = .ok y := by
  obtain ⟨hroot, -⟩ := List.cons.inj htypes
  rw [List.foldlM_cons, bind_eq_ok] at hrun
  obtain ⟨z, hz, hrun⟩ := hrun
  rw [Op.foldlM_computeShape_of_tail (fun op => hc.hasType_of_absorbed htypes) hrun]
  -- The kernel slot and the attributes are those of the convolution.
  have hparams : (t.fusedOp root absorbed).params.get? (.text "Filter")
      = root.params.get? (.text "Filter") := by
    have hmerge : (t.fusedOp root absorbed).params = (t.merge (root :: absorbed)).params := rfl
    rw [hmerge, Template.get?_params]
    exact hc.lookup_writes_root htypes (fun op => op.params.entries) root.params.distinct
      (fun s hs => hc.kernel_kept s (List.mem_cons_of_mem _ hs)) hkernel
  have hshape : (t.fusedOp root absorbed).convolvedShape = root.convolvedShape := by
    refine Op.convolvedShape_congr fun key hkey => ?_
    have hmerge : (t.fusedOp root absorbed).attrs = (t.merge (root :: absorbed)).attrs := rfl
    rw [hmerge, Template.get?_attrs]
    refine hc.lookup_writes_root htypes (fun op => op.attrs.entries) root.attrs.distinct
      (fun s hs pair hpair => ?_) fun op hop => hattrs op hop key hkey
    exact hc.attrs_kept s (List.mem_cons_of_mem _ hs) pair hpair first (by simp) key
      (shapeAttrs_subset first hc.first_mem key hkey)
  obtain ⟨o, ho, -⟩ := bind_eq_ok.mp hz
  obtain ⟨hmem, hs⟩ := Op.HasType.mem_of_operator ⟨first, hc.first_mem, hroot⟩ ho
  rw [Op.computeShape_eq ho ((Operator.kernel_of_mem_standard o hmem).1 hs), bind_eq_ok] at hz
  obtain ⟨w, hw, hz⟩ := hz
  have hfetch : (t.fusedOp root absorbed).fetchParam shapes "Filter" = .ok w := by
    obtain ⟨name, hname, hw⟩ := bind_eq_ok.mp hw
    refine bind_eq_ok.mpr ⟨name, ?_, hw⟩
    rw [Op.paramName_eq_ok, hparams]
    exact Op.paramName_eq_ok.mp hname
  obtain ⟨_, hfused⟩ := hc.operator
  have hfused : Operator.ofType (t.fusedOp root absorbed).opType = .ok _ := hfused
  have hkind := (Operator.kernel_of_mem_standard _ (Operator.ofType_eq_ok hfused).2).2.2 rfl
  rw [Op.computeShape_eq hfused hkind, hfetch, ok_bind, hshape, hz]

end Template.Composes

theorem ShapeSafe.isSafe {shapes : Scope (List Value)} {ops : List Op} (h : ShapeSafe shapes ops) :
    Interpreter.shapes.IsSafe shapes ops where
  named := h.named
  once := h.once
  fresh := h.fresh
  fed := h.fed
  single := fun op hop hType name hn => by
    obtain ⟨o, ho⟩ := Op.exists_operator hn
    obtain ⟨hmem, hs⟩ := hType.mem_of_operator ho
    obtain ⟨hinput, -⟩ := (Operator.kernel_of_mem_standard o hmem).2.1 hs
    obtain ⟨_, hslot⟩ := (Op.source_eq_ok ho).mp hn
    obtain ⟨name', hname'⟩ := h.input op hop hType
    rw [hinput, hname'] at hslot
    cases hslot
    rw [Registry.reads, Op.slotsOf_eq ho, hinput]
    simp [Slots.select, hname']
  fuses := fun hc hmem htypes hrun => hc.computeShape_fusedOp htypes
    (fun op hop => h.kernel op (hmem op (by simp [hop])) (hc.hasType_of_absorbed htypes hop))
    (fun op hop => h.attrs op (hmem op (by simp [hop])) (hc.hasType_of_absorbed htypes hop)) hrun

/-- Fusion keeps the shapes that are inferred. Where they are found for all names of a safe program,
they are found for the optimized program, and the same but for the names that are used up inside
fusions. -/
theorem Optimizer.IsStandard.inferShapes_optimize_eq {o : Optimizer} (ho : o.IsStandard)
    {names : List Value} (hdisabled : o.config.disabled = .series names) {p : Program}
    {block : Block} (hblock : p.blocks = [block]) {shapes inferred : Scope (List Value)}
    (hsafe : ShapeSafe shapes block.ops)
    (hinfer : ({} : Executor).inferShapes p shapes = .ok inferred) :
    ∃ out, (o.optimize p).result = .ok out ∧
      ∃ inferred', ({} : Executor).inferShapes out.program shapes = .ok inferred' ∧
        ∀ b, inferred'.get? b
          = if IsWrittenInside (o.fusions p) block.ops b then none else inferred.get? b := by
  rw [Executor.inferShapes_eq hblock] at hinfer
  obtain ⟨out, result, hout, hresult, inferred', hinfer', hget⟩ :=
    ho.interpret_optimize hdisabled hblock hsafe.isSafe hinfer
  exact ⟨out, hout, inferred', (Executor.inferShapes_eq hresult shapes).trans hinfer', hget⟩

/-- Shapes for the names that `convAddFeedRelu` does not write; one of the sizes is no whole number
and is carried along. -/
def oddShapes : Scope (List Value) := .ofList [
  (.text "x", [.text "batch", .int 3, .int 7, .int 9]),
  (.text "w", [.int 4, .int 3, .int 3, .int 2]),
  (.text "z", [.int 5]),
  (.text "b", [])]

/-- The convolution takes in the addition, and of the names that are written the one between them
goes missing. -/
theorem inferShapes_optimize_eq_convAddFeedRelu : ShapeSafe oddShapes convAddFeedRelu ∧
    (Optimizer.usual.fusions (.ofOps convAddFeedRelu)).map (fun f => (f.root, f.made.absorbed))
      = [(0, [2])] ∧
    (∀ name ∈ ["c", "s", "t", "u"], IsWrittenInside (Optimizer.usual.fusions
      (.ofOps convAddFeedRelu)) convAddFeedRelu (.text name) ↔ name = "c") ∧
    ∃ inferred, ({} : Executor).inferShapes (.ofOps convAddFeedRelu) oddShapes = .ok inferred ∧
      (inferred.get? (.text "c")).isSome = true ∧
    ∃ out, (Optimizer.usual.optimize (.ofOps convAddFeedRelu)).result = .ok out ∧
      ∃ inferred', ({} : Executor).inferShapes out.program oddShapes = .ok inferred' ∧
        inferred'.get? (.text "c") = none ∧
        ∀ b, inferred'.get? b =
          if IsWrittenInside (Optimizer.usual.fusions (.ofOps convAddFeedRelu)) convAddFeedRelu b
          then none else inferred.get? b := by
  have hsafe : ShapeSafe oddShapes convAddFeedRelu := by decide +kernel
  have hinside : ∀ name ∈ ["c", "s", "t", "u"], IsWrittenInside (Optimizer.usual.fusions
      (.ofOps convAddFeedRelu)) convAddFeedRelu (.text name) ↔ name = "c" := by decide +kernel
  have hknown : (({} : Executor).inferShapes (.ofOps convAddFeedRelu) oddShapes).toOption.map
      (fun inferred => (inferred.get? (.text "c")).isSome) = some true := by decide +kernel
  obtain ⟨inferred, hinferred⟩ := exists_ok_of_isOk
    (x := ({} : Executor).inferShapes (.ofOps convAddFeedRelu) oddShapes) (by decide +kernel)
  rw [hinferred] at hknown
  obtain ⟨out, hout, inferred', hinferred', hget⟩ :=
    Optimizer.IsStandard.inferShapes_optimize_eq (o := .usual) ⟨rfl, rfl⟩ rfl rfl hsafe hinferred
  have hmissing : inferred'.get? (.text "c") = none :=
    (hget _).trans (if_pos ((hinside "c" (by simp)).mpr rfl))
  exact ⟨hsafe, by decide +kernel, hinside, inferred, hinferred, Option.some.inj hknown, out, hout,
    inferred', hinferred', hmissing, hget⟩

end TensorFusion
