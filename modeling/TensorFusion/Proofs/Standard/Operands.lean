import TensorFusion.Proofs.Sample
import TensorFusion.Proofs.Standard.Rewrite

/-!
# Proofs — Standard — Operands

What becomes of the operands of the operators that a fusion absorbs. The fused operator has the
inputs of the root and the parameters of all; what an absorbed operator reads as an ordinary input
it does not have, nor a parameter whose new key is written again further down.
-/

namespace TensorFusion

namespace Fusion

/-- The operators that were fused, as the program has them. -/
def opsIn (ops : List Op) (f : Fusion) : List Op := f.members.filterMap (ops[·]?)

/-- A name is an operand from outside: an absorbed operator reads it, and no other operator of the
fusion puts it out. -/
def IsOuterOperand (ops : List Op) (f : Fusion) (name : Value) : Prop :=
  ∃ m ∈ f.made.absorbed, ∃ op, ops[m]? = some op ∧ name ∈ op.operands ∧
    ∀ m' ∈ f.members, m' ≠ m → ∀ op', ops[m']? = some op' →
      op'.outputs.names.any (·.same name) = false

/-- All operands from outside are operands of the fused operator. -/
def CarriesOperands (ops : List Op) (f : Fusion) : Prop :=
  ∀ name, f.IsOuterOperand ops name →
    ∃ fused, f.made.arena.op? f.root = some fused ∧ name ∈ fused.operands

/-- A name is an input of the root, or stands in a parameter slot of a fused operator whose new key
no later slot takes. -/
def KeepsOperand (ops : List Op) (f : Fusion) (name : Value) : Prop :=
  (∃ root, ops[f.root]? = some root ∧ name ∈ root.inputs.names) ∨
  ∃ before key names after,
    f.template.paramWrites (f.opsIn ops) = before ++ (key, names) :: after ∧ name ∈ names ∧
    ∀ later ∈ after, later.1.same key = false

end Fusion

/-- The parameters of a fused operator are those whose keys are not written again. -/
theorem Template.mem_params_iff {t : Template} {ops : List Op} {name : Value} :
    name ∈ (t.merge ops).params.names ↔ ∃ before key names after,
      t.paramWrites ops = before ++ (key, names) :: after ∧ name ∈ names ∧
      ∀ later ∈ after, later.1.same key = false := by
  simp only [Table.names, List.mem_flatten, merge_eq, Table.mem_values_ofList_iff]
  constructor
  · intro h
    obtain ⟨names, ⟨before, key, after, heq, hafter⟩, hname⟩ := h
    exact ⟨before, key, names, after, heq, hname, hafter⟩
  · intro h
    obtain ⟨before, key, names, after, heq, hname, hafter⟩ := h
    exact ⟨names, ⟨before, key, after, heq, hafter⟩, hname⟩

namespace StandardRun

variable {ops : List Op} {fs : List Fusion} {g : Graph} {a : Arena} {removed : List Nat}
  {f : Fusion}

/-- The operators of a fusion are its root and what it has absorbed. -/
theorem opsIn_eq (h : StandardRun ops fs g a removed) {root : Op}
    (hroot : ops[f.root]? = some root) :
    f.opsIn ops = root :: Walk.opsAt g.arena f.made.absorbed := by
  have hcolumn : ∀ m ∈ f.made.absorbed, ops[m]? = g.arena.op? m := fun m _ => (h.graph.op? m).symm
  rw [Fusion.opsIn, Fusion.members, List.filterMap_cons_some hroot,
    List.filterMap_congr hcolumn]
  rfl

/-- The operands of a fused operator are what is kept of those of the fused ones. -/
theorem mem_operands_iff (h : StandardRun ops fs g a removed) (hf : f ∈ fs) {fused : Op}
    (hfused : f.made.arena.op? f.root = some fused) {name : Value} :
    name ∈ fused.operands ↔ f.KeepsOperand ops name := by
  obtain ⟨root, hroot, -⟩ := h.op?_root hf
  rw [(h.shot.stands f hf).made_op?, h.graph.op?, hroot] at hfused
  cases hfused
  have hinputs : (f.opIn g.arena root).inputs = root.inputs := rfl
  have hparams : (f.opIn g.arena root).params = (f.template.merge (f.opsIn ops)).params := by
    rw [h.opsIn_eq hroot]
    rfl
  rw [Op.operands, List.mem_append, hinputs, hparams, Template.mem_params_iff,
    Fusion.KeepsOperand, hroot]
  simp

end StandardRun

/-- The fused operator stands in the optimized program, and it has all operands from outside just
where each of them is an input of the root or a parameter that is not written over. -/
theorem Optimizer.IsStandard.carriesOperands_iff {o : Optimizer} (ho : o.IsStandard) {p : Program}
    {block : Block} (hblock : p.blocks = [block]) {out : Outcome}
    (h : (o.optimize p).result = .ok out) {f : Fusion} (hf : f ∈ o.fusions p) :
    (∃ fused, f.made.arena.op? f.root = some fused ∧
      ∃ result, out.program.blocks = [result] ∧ fused ∈ result.ops) ∧
    (f.CarriesOperands block.ops ↔
      ∀ name, f.IsOuterOperand block.ops name → f.KeepsOperand block.ops name) := by
  obtain ⟨block', g, a, removed, hblock', hrun, rfl⟩ := ho.exists_run h
  rw [hblock] at hblock'
  cases hblock'
  have hstands := hrun.shot.stands f hf
  obtain ⟨root, hroot, -, hlive⟩ := hrun.op?_root hf
  have hmade : f.made.arena.op? f.root = some (f.opIn g.arena root) := by
    rw [hstands.made_op?, hrun.graph.op?, hroot]
    rfl
  refine ⟨⟨_, hmade, _, rfl, ?_⟩, ?_⟩
  · refine List.mem_filterMap.mpr ⟨f.root, mem_survivorsOf.mpr ⟨?_, hstands.root_live⟩, hlive⟩
    exact Arena.lt_size_of_op? hlive
  · constructor
    · intro hcarries name hname
      obtain ⟨fused, hfused, hmem⟩ := hcarries name hname
      exact (hrun.mem_operands_iff hf hfused).mp hmem
    · intro hkeeps name hname
      exact ⟨_, hmade, (hrun.mem_operands_iff hf hmade).mpr (hkeeps name hname)⟩

/-- A convolution and an addition whose second operand is a parameter. -/
def biasAsParam : List Op :=
  [.ofTexts "conv2d" [("Input", ["x"])] [("Output", ["c"])] [("Filter", ["w"])],
    .ofTexts "elementwise_add" [("X", ["c"])] [("Out", ["t"])] [("Y", ["b"])]]

/-- A convolution and an addition whose second operand is an ordinary input. -/
def biasAsInput : List Op :=
  [.ofTexts "conv2d" [("Input", ["x"])] [("Output", ["c"])] [("Filter", ["w"])],
    .ofTexts "elementwise_add" [("X", ["c"]), ("Y", ["b"])] [("Out", ["t"])]]

theorem carriesOperands_iff_biasAsParam : ∃ out,
    (Optimizer.usual.optimize (.ofOps biasAsParam)).result = .ok out ∧
    ∃ f ∈ Optimizer.usual.fusions (.ofOps biasAsParam),
      (∃ fused, f.made.arena.op? f.root = some fused ∧
        ∃ result, out.program.blocks = [result] ∧ fused ∈ result.ops) ∧
      (f.CarriesOperands biasAsParam ↔
        ∀ name, f.IsOuterOperand biasAsParam name → f.KeepsOperand biasAsParam name) := by
  obtain ⟨out, hout⟩ := exists_ok_of_isOk
    (x := (Optimizer.usual.optimize (.ofOps biasAsParam)).result) (by decide +kernel)
  have hlength : 0 < (Optimizer.usual.fusions (.ofOps biasAsParam)).length := by decide +kernel
  obtain ⟨f, hf⟩ := List.exists_mem_of_length_pos hlength
  exact ⟨out, hout, f, hf,
    Optimizer.IsStandard.carriesOperands_iff ⟨rfl, rfl⟩ rfl hout hf⟩

/-- An operand that is given as an ordinary input is lost. -/
theorem not_carriesOperands_biasAsInput :
    ¬ ∀ f ∈ Optimizer.usual.fusions (.ofOps biasAsInput), f.CarriesOperands biasAsInput := by
  intro hall
  have hview : ((Optimizer.usual.fusions (.ofOps biasAsInput)).map fun f =>
      (f.root, f.made.absorbed, (f.made.arena.op? f.root).map (·.operands.map Value.atom?)))
      = [(0, [1], some [some (.text "x"), some (.text "w")])] := by decide +kernel
  obtain ⟨f, hf, hfview⟩ := List.mem_map.mp (hview ▸ List.mem_singleton_self _)
  simp only [Prod.mk.injEq] at hfview
  obtain ⟨hroot, habsorbed, hoperands⟩ := hfview
  have houter : f.IsOuterOperand biasAsInput (.text "b") := by
    refine ⟨1, by simp [habsorbed], biasAsInput[1], rfl, ?_, fun m hm hne op hop => ?_⟩
    · exact Value.text_mem_iff.mpr (by decide +kernel)
    · have hm : m = 0 := by simpa [Fusion.members, hroot, habsorbed, hne] using hm
      subst hm
      cases hop
      decide +kernel
  obtain ⟨fused, hfused, hmem⟩ := hall f hf _ houter
  have hatom := List.mem_map_of_mem (f := Value.atom?) hmem
  rw [hfused] at hoperands
  simp only [Option.map_some, Option.some.injEq] at hoperands
  rw [hoperands] at hatom
  simp [Value.atom?] at hatom

end TensorFusion
