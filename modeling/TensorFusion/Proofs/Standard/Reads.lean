import TensorFusion.Proofs.Sample
import TensorFusion.Proofs.Standard.Rewrite

/-!
# Proofs — Standard — Reads

Whether every name is there when it is read. The graph sees the declared slots alone, and of these
the standard templates keep every read defined. What is read elsewhere moves up with the operator
that reads it, and may be read too early; and what is written for such a read may vanish inside a
fusion.
-/

namespace TensorFusion

/-- All names that an operator reads are given, or are put out by operators before it. -/
def Op.IsDefined (given : Atom → Prop) (before : List Op) (op : Op) : Prop :=
  ∀ b ∈ Value.atoms op.operands, given b ∨ ∃ e ∈ before, e.putsOut b = true

/-- Every read is of a name that is given or was put out before. -/
def ReadsDefined (given : Atom → Prop) (ops : List Op) : Prop :=
  ∀ i < ops.length, ∀ op ∈ ops[i]?, op.IsDefined given (ops.take i)

/-- What the operator at a position reads in its declared slots is given, or was written in a
declared slot before, or was put out before and is not used up. -/
def DeclaredReadsKept (given : Atom → Prop) (fs : List Fusion) (ops : List Op) (i : Nat) (op : Op) :
    Prop :=
  ∀ b ∈ Value.atoms (Registry.standard.reads op), given b ∨ ∃ w < i, ∃ e ∈ ops[w]?,
    Registry.standard.writesName e (.atom b) = true ∨ (¬ IsUsedUp fs w ∧ e.putsOut b = true)

/-- What the operator at a position reads elsewhere is given, or is not used up and was put out
before, also before the place that the operator is moved up to. -/
def OtherReadsKept (given : Atom → Prop) (fs : List Fusion) (ops : List Op) (i : Nat) (op : Op) :
    Prop :=
  ∀ b ∈ Value.atoms (Registry.standard.otherReads op), given b ∨ ∃ w < i,
    (∀ f ∈ fs, i ∈ f.made.absorbed → w < f.root) ∧
    ∃ e ∈ ops[w]?, ¬ IsUsedUp fs w ∧ e.putsOut b = true

/-- Every read is of a name that is given or was put out before, and where the graph does not see
it, it outlasts the fusions. -/
structure ReadsKept (given : Atom → Prop) (fs : List Fusion) (ops : List Op) : Prop where
  declared : ∀ i < ops.length, ∀ op ∈ ops[i]?, DeclaredReadsKept given fs ops i op
  other : ∀ i < ops.length, ∀ op ∈ ops[i]?, OtherReadsKept given fs ops i op

instance (given : Atom → Prop) [DecidablePred given] (before : List Op) (op : Op) :
    Decidable (op.IsDefined given before) :=
  inferInstanceAs (Decidable (∀ b ∈ Value.atoms op.operands, given b ∨ _))

instance (given : Atom → Prop) [DecidablePred given] (ops : List Op) :
    Decidable (ReadsDefined given ops) :=
  inferInstanceAs (Decidable (∀ i < ops.length, ∀ op ∈ ops[i]?, op.IsDefined given (ops.take i)))

instance (given : Atom → Prop) [DecidablePred given] (fs : List Fusion) (ops : List Op) (i : Nat)
    (op : Op) : Decidable (DeclaredReadsKept given fs ops i op) :=
  inferInstanceAs (Decidable (∀ b ∈ Value.atoms _, given b ∨ ∃ w < i, ∃ e ∈ ops[w]?, _ ∨ _))

instance (given : Atom → Prop) [DecidablePred given] (fs : List Fusion) (ops : List Op) (i : Nat)
    (op : Op) : Decidable (OtherReadsKept given fs ops i op) :=
  inferInstanceAs (Decidable (∀ b ∈ Value.atoms _, given b ∨ ∃ w < i, _ ∧ ∃ e ∈ ops[w]?, _))

namespace StandardRun

variable {ops : List Op} {fs : List Fusion} {g : Graph} {a : Arena} {removed : List Nat}
  {given : Atom → Prop} {i w : Nat} {b : Atom}

/-- What is put out and not used up is still put out, at the same place or before. -/
theorem exists_putsOut (h : StandardRun ops fs g a removed) {e : Op} (he : ops[w]? = some e)
    (hkept : ¬ IsUsedUp fs w) (hputs : e.putsOut b = true) :
    ∃ j e', j ≤ w ∧ j ∉ removed ∧ a.op? j = some e' ∧ e'.putsOut b = true := by
  obtain ⟨j, e', hjw, hj, htail, he'⟩ := h.exists_op_of_tail he hkept
  obtain ⟨op, hop, heq⟩ := h.putsOut_eq he'
  rw [htail, he] at hop
  cases hop
  exact ⟨j, e', hjw, hj, he', by rw [heq, hputs]⟩

/-- What is written in a declared slot and read in one is still put out where it is read. -/
theorem exists_putsOut_of_reads (h : StandardRun ops fs g a removed) {op e : Op}
    (hi : i ∉ removed) (hop : ops[i]? = some op) (hread : .atom b ∈ Registry.standard.reads op)
    (hw : w < i) (he : ops[w]? = some e)
    (hwrites : Registry.standard.writesName e (.atom b) = true) :
    ∃ j e', j < i ∧ j ∉ removed ∧ a.op? j = some e' ∧ e'.putsOut b = true := by
  -- The last writer before the read need not be the one given, but it is one that is seen.
  obtain ⟨v, hv, hwv⟩ := exists_lastWriter hw he hwrites
  obtain ⟨hvi, ⟨last, hlast, hlastWrites⟩, -⟩ := lastWriter_eq_some_iff.mp hv
  have hproducer : v ∈ producersOf .standard ops i := by
    rw [producersOf_eq hop]
    exact List.mem_filterMap.mpr ⟨_, hread, hv⟩
  obtain ⟨j, e', hjv, hrest⟩ := h.exists_putsOut hlast (h.not_isUsedUp_of_producer hi hproducer)
    (Registry.putsOut_of_writesName hlastWrites)
  exact ⟨j, e', by omega, hrest⟩

/-- What an operator of the result reads in its inputs is given or put out before it. -/
theorem defined_of_mem_inputs (h : StandardRun ops fs g a removed)
    (hreads : ReadsKept given fs ops) (hi : i ∉ removed) {op' : Op} (hop' : a.op? i = some op')
    (hb : .atom b ∈ op'.inputs.names) :
    given b ∨ ∃ j e', j < i ∧ j ∉ removed ∧ a.op? j = some e' ∧ e'.putsOut b = true := by
  obtain ⟨op, hop, hinputs, -⟩ := h.inputs_eq hop'
  have hlength : i < ops.length := (List.getElem?_eq_some_iff.mp hop).1
  rw [hinputs] at hb
  rcases Registry.mem_reads_or_otherReads (r := .standard) hb with hb | hb
  · rcases hreads.declared i hlength op hop b (Value.mem_atoms.mpr hb) with hgiven | hput
    · exact .inl hgiven
    · obtain ⟨w, hw, e, he, hwrites | ⟨hkept, hputs⟩⟩ := hput
      · exact .inr (h.exists_putsOut_of_reads hi hop hb hw he hwrites)
      · obtain ⟨j, e', hj, hrest⟩ := h.exists_putsOut he hkept hputs
        exact .inr ⟨j, e', by omega, hrest⟩
  · rcases hreads.other i hlength op hop b (Value.mem_atoms.mpr hb) with hgiven | hput
    · exact .inl hgiven
    · obtain ⟨w, hw, -, e, he, hkept, hputs⟩ := hput
      obtain ⟨j, e', hj, hrest⟩ := h.exists_putsOut he hkept hputs
      exact .inr ⟨j, e', by omega, hrest⟩

/-- The parameters of an operator of the result are those of operators that stand at its place or
are fused into it. -/
theorem exists_of_mem_params (h : StandardRun ops fs g a removed) (hi : i ∉ removed) {op' : Op}
    (hop' : a.op? i = some op') {name : Value} (hname : name ∈ op'.params.names) :
    ∃ m op, ops[m]? = some op ∧ name ∈ op.params.names ∧
      (m = i ∨ ∃ f ∈ fs, f.root = i ∧ m ∈ f.made.absorbed) := by
  rcases h.op_cases hop' with ⟨-, hop⟩ | ⟨f, hf, rfl, root, hrootOp, -, rfl⟩
  · exact ⟨i, op', hop, hname, .inl rfl⟩
  · obtain ⟨op, hop, hmem⟩ := Template.exists_of_mem_params hname
    rcases List.mem_cons.mp hop with rfl | hop
    · exact ⟨f.root, op, hrootOp, hmem, .inl rfl⟩
    · obtain ⟨m, hm, hopm⟩ := List.mem_filterMap.mp hop
      rw [h.graph.op?] at hopm
      exact ⟨m, op, hopm, hmem, .inr ⟨f, hf, rfl, hm⟩⟩

/-- What an operator of the result reads in its parameters is given or put out before it. -/
theorem defined_of_mem_params (h : StandardRun ops fs g a removed)
    (hreads : ReadsKept given fs ops) (hi : i ∉ removed) {op' : Op} (hop' : a.op? i = some op')
    (hb : .atom b ∈ op'.params.names) :
    given b ∨ ∃ j e', j < i ∧ j ∉ removed ∧ a.op? j = some e' ∧ e'.putsOut b = true := by
  obtain ⟨m, op, hop, hmem, hplace⟩ := h.exists_of_mem_params hi hop' hb
  have hlength : m < ops.length := (List.getElem?_eq_some_iff.mp hop).1
  have hother : .atom b ∈ Registry.standard.otherReads op := List.mem_append_right _ hmem
  rcases hreads.other m hlength op hop b (Value.mem_atoms.mpr hother) with hgiven | hput
  · exact .inl hgiven
  · obtain ⟨w, hw, hbefore, e, he, hkept, hputs⟩ := hput
    -- The reader has moved up to the root, and what it reads was put out before that.
    have hwi : w < i := by
      rcases hplace with rfl | ⟨f, hf, rfl, hm⟩
      · exact hw
      · exact hbefore f hf hm
    obtain ⟨j, e', hj, hrest⟩ := h.exists_putsOut he hkept hputs
    exact .inr ⟨j, e', by omega, hrest⟩

end StandardRun

/-- Fusion keeps every read defined that the graph sees, and the others where what they read is not
used up and is there in time. -/
theorem Optimizer.IsStandard.readsDefined {o : Optimizer} (ho : o.IsStandard) {p : Program}
    {block : Block} (hblock : p.blocks = [block]) {out : Outcome}
    (h : (o.optimize p).result = .ok out) {given : Atom → Prop}
    (hreads : ReadsKept given (o.fusions p) block.ops) :
    ∃ result, out.program.blocks = [result] ∧ ReadsDefined given result.ops := by
  obtain ⟨block', g, a, removed, hblock', hrun, rfl⟩ := ho.exists_run h
  rw [hblock] at hblock'
  cases hblock'
  refine ⟨_, rfl, fun i hi op' hop' b hb => ?_⟩
  have hsplit := List.take_append_drop i ((survivorsOf removed a.size).filterMap a.op?)
  rw [List.drop_eq_getElem_cons hi] at hsplit
  obtain ⟨k, -, hk, hop, hbefore⟩ := exists_position hsplit.symm
  have hsame : some op' = a.op? k := by
    rw [hop, ← List.getElem?_eq_getElem hi]
    exact hop'.symm
  have hdefined : given b ∨ ∃ j e', j < k ∧ j ∉ removed ∧ a.op? j = some e' ∧
      e'.putsOut b = true := by
    rcases List.mem_append.mp (Value.mem_atoms.mp hb) with hb | hb
    · exact hrun.defined_of_mem_inputs hreads hk hsame.symm hb
    · exact hrun.defined_of_mem_params hreads hk hsame.symm hb
  rcases hdefined with hgiven | ⟨j, e', hj, hlive, he', hputs⟩
  · exact .inl hgiven
  · exact .inr ⟨e', hbefore j e' hj hlive he', hputs⟩

/-- A convolution and an addition, the second operand of which is given. -/
def earlyBias : List Op :=
  [.ofTexts "conv2d" [("Input", ["x"])] [("Output", ["c"])] [("Filter", ["w"])],
    .ofTexts "elementwise_add" [("X", ["c"])] [("Out", ["t"])] [("Y", ["b"])],
    .ofTexts "softmax" [("X", ["t"])] [("Out", ["s"])]]

theorem readsDefined_earlyBias : ∃ out,
    (Optimizer.usual.optimize (.ofOps earlyBias)).result = .ok out ∧
    ReadsKept (· ∈ [.text "x", .text "w", .text "b"])
      (Optimizer.usual.fusions (.ofOps earlyBias)) earlyBias ∧
    ∃ result, out.program.blocks = [result] ∧
      ReadsDefined (· ∈ [.text "x", .text "w", .text "b"]) result.ops := by
  obtain ⟨out, hout⟩ := exists_ok_of_isOk
    (x := (Optimizer.usual.optimize (.ofOps earlyBias)).result) (by decide +kernel)
  have hreads : ReadsKept (· ∈ [.text "x", .text "w", .text "b"])
      (Optimizer.usual.fusions (.ofOps earlyBias)) earlyBias :=
    ⟨by decide +kernel, by decide +kernel⟩
  exact ⟨out, hout, hreads, Optimizer.IsStandard.readsDefined ⟨rfl, rfl⟩ rfl hout hreads⟩

/-- A convolution and an addition, the second operand of which is put out between them. -/
def lateBias : List Op :=
  [.ofTexts "conv2d" [("Input", ["x"])] [("Output", ["c"])] [("Filter", ["w"])],
    .ofTexts "sigmoid" [("X", ["z"])] [("Out", ["b"])],
    .ofTexts "elementwise_add" [("X", ["c"])] [("Out", ["t"])] [("Y", ["b"])]]

/-- A parameter that is put out behind the convolution is read before it is there. -/
theorem not_readsDefined_lateBias :
    ReadsDefined (· ∈ [.text "x", .text "w", .text "z"]) lateBias ∧
    ∃ out, (Optimizer.usual.optimize (.ofOps lateBias)).result = .ok out ∧
      ∀ result ∈ out.program.blocks,
        ¬ ReadsDefined (· ∈ [.text "x", .text "w", .text "z"]) result.ops := by
  have hview : ((Optimizer.usual.optimize (.ofOps lateBias)).result.toOption.map fun out =>
      decide (∀ result ∈ out.program.blocks,
        ¬ ReadsDefined (· ∈ [.text "x", .text "w", .text "z"]) result.ops)) = some true := by
    decide +kernel
  obtain ⟨out, hout⟩ := exists_ok_of_isOk
    (x := (Optimizer.usual.optimize (.ofOps lateBias)).result) (by decide +kernel)
  rw [hout] at hview
  exact ⟨by decide +kernel, out, hout, of_decide_eq_true (Option.some.inj hview)⟩

end TensorFusion
