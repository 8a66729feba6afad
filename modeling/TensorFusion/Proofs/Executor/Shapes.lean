import TensorFusion.Proofs.Executor.Rules
import TensorFusion.Proofs.Sample
import TensorFusion.Proofs.Standard.Operators

/-!
# Proofs — Executor — Shapes

Inference against execution. Where a program runs to an end, and convolutions see four dimensions
and sums keep the shape of their first operand, the shapes are inferred that the tensors of the run
have, with every library whose results have the shapes that they are known to have. The inference
goes step by step with the run: a convolution makes the inferred shape, and every other step keeps
it.
-/

namespace TensorFusion

/-- The shape of a tensor as the inference has it. -/
def TensorLibrary.sizes {τ : Type} (lib : TensorLibrary τ) (x : τ) : List Value :=
  ((lib.shape x).map Int.ofNat).map Value.int

theorem TensorLibrary.sizes_eq_of_shape {τ : Type} {lib : TensorLibrary τ} {x y : τ}
    (h : lib.shape y = lib.shape x) : lib.sizes y = lib.sizes x := by
  rw [sizes, h, sizes]

/-! ## Scopes -/

section Scopes

variable {α β : Type}

theorem Op.fetchParam_mapValues {f : α → β} {op : Op} {S : Scope α} {slot : String} {x : α}
    (h : op.fetchParam S slot = .ok x) : op.fetchParam (Table.mapValues f S) slot = .ok (f x) := by
  obtain ⟨name, hname, h⟩ := bind_eq_ok.mp h
  obtain ⟨b, rfl, hb⟩ := Scope.fetch_eq_ok.mp h
  refine bind_eq_ok.mpr ⟨_, hname, Scope.fetch_eq_ok.mpr ⟨b, rfl, ?_⟩⟩
  rw [Table.get?_mapValues, hb, Option.map_some]

end Scopes

/-! ## What is asked of a run -/

section Plain

variable {τ : Type} (lib : TensorLibrary τ)

namespace Stage

/-- What a step is applied to is of the kind that shapes are inferred for: a convolution sees four
dimensions, and the second operand of a sum, once it is aligned, does not enlarge the first. -/
def TakesPlain (op : Op) (scope : Scope τ) (x : τ) : Stage → Prop
  | .conv .. => lib.rank x = 4
  | .add operand => ∀ y, op.fetchParam scope operand = .ok y →
      ∀ axis, op.intAttr "axis" (-1) = .ok axis → ∀ y', lib.alignAxis axis (lib.rank x) y = .ok y' →
        Shape.broadcast? (lib.shape x) (lib.shape y') = some (lib.shape x)
  | _ => True

/-- Steps that are gone through one after another take what shapes are inferred for. -/
def AllTakePlain (op : Op) (scope : Scope τ) : List Stage → τ → Prop
  | [], _ => True
  | st :: rest, x => st.TakesPlain lib op scope x ∧
      ∀ y, run lib op scope x st = .ok y → AllTakePlain op scope rest y

end Stage

namespace Op

/-- All steps that an operator comes to take what shapes are inferred for. -/
def TakesPlain (op : Op) (scope : Scope τ) : Prop :=
  ∀ o, Operator.ofType op.opType = .ok o → ∀ name, op.inputName o.input = .ok name →
    ∀ x, scope.fetch name = .ok x → Stage.AllTakePlain lib op scope o.stages x

/-- All steps that a run of some operators comes to take what shapes are inferred for. -/
def AllTakePlain : List Op → Scope τ → Prop
  | [], _ => True
  | op :: rest, scope => op.TakesPlain lib scope ∧
      ∀ scope', op.execute lib scope = .ok scope' → AllTakePlain rest scope'

end Op

end Plain

/-! ## A convolution -/

namespace Op

/-- Over whole numbers the inferred extent is that of the rule. -/
theorem convExtent_int {size kernel : Nat} {padding dilation stride : Int} (h : stride ≠ 0) :
    convExtent (.int size) (.int kernel) padding dilation stride
      = .ok (.int (Window.extent size kernel padding dilation stride)) := by
  simp only [convExtent, Value.number, Value.Number.addInt, Value.Number.mulInt, Value.Number.sub,
    Value.Number.floorDivInt, ok_bind, if_neg h]
  rfl

variable {τ : Type} {lib : TensorLibrary τ} {op : Op} {x y kernel : τ} {p : Window}

/-- The inferred shape of a convolution is the one that it is known to give. -/
theorem convolvedShape_sizes (hlib : lib.HasShapeRules) {depthwise : Bool}
    (hp : op.window depthwise (lib.shape x) = .ok p) (hrank : lib.rank x = 4)
    (hy : lib.conv2d p x kernel = .ok y) :
    op.convolvedShape (lib.sizes x) (lib.sizes kernel) = .ok (lib.sizes y) := by
  obtain ⟨hdown, hacross⟩ := hlib.strides_pos hrank hy
  have hrule := hlib.conv2d hrank hy
  simp only [window, bind_eq_ok, pure_eq_ok] at hp
  obtain ⟨_, -, strides, hstrides, paddings, hpaddings, dilations, hdilations, _, -, rfl⟩ := hp
  unfold Window.resultShape at hrule
  split at hrule
  next images channels height width outs depth rows columns hx hkernel =>
    rw [Option.some.injEq] at hrule
    rw [TensorLibrary.sizes, TensorLibrary.sizes, TensorLibrary.sizes, hx, hkernel, ← hrule]
    simp only [List.map_cons, List.map_nil, convolvedShape, hstrides, hpaddings, hdilations,
      ok_bind, convExtent_int (Int.ne_of_gt hdown), convExtent_int (Int.ne_of_gt hacross),
      Int.ofNat_eq_natCast]
    rfl
  next => cases hrule

end Op

/-! ## The other steps -/

namespace Stage

variable {τ : Type} {lib : TensorLibrary τ} {op : Op} {scope : Scope τ} {x y : τ} {st : Stage}

def isConv : Stage → Bool
  | .conv .. => true
  | _ => false

/-- Every step but a convolution keeps the shape. -/
theorem shape_run (hlib : lib.HasShapeRules) (hplain : st.TakesPlain lib op scope x)
    (hconv : st.isConv = false) (h : run lib op scope x st = .ok y) :
    lib.shape y = lib.shape x := by
  cases st with
  | conv => cases hconv
  | add operand =>
    rw [run_add, bind_eq_ok] at h
    obtain ⟨z, hz, h⟩ := h
    obtain ⟨axis, haxis, h⟩ := bind_eq_ok.mp h
    obtain ⟨z', hz', h⟩ := bind_eq_ok.mp h
    have hshape := hlib.add h
    rw [hplain z hz axis haxis z' hz'] at hshape
    exact (Option.some.inj hshape).symm
  | norm scale bias mean variance =>
    simp only [run_norm, bind_eq_ok] at h
    obtain ⟨_, -, _, -, _, -, _, -, h⟩ := h
    obtain ⟨epsilon, -, h⟩ := bind_eq_ok.mp h
    exact hlib.batchNorm h
  | relu => exact hlib.relu h

theorem shape_foldlM_run (hlib : lib.HasShapeRules) {stages : List Stage}
    (hplain : AllTakePlain lib op scope stages x) (hconv : ∀ st ∈ stages, st.isConv = false)
    (h : stages.foldlM (run lib op scope) x = .ok y) : lib.shape y = lib.shape x := by
  induction stages generalizing x with
  | nil =>
    cases h
    rfl
  | cons st stages ih =>
    rw [List.foldlM_cons, bind_eq_ok] at h
    obtain ⟨z, hz, h⟩ := h
    obtain ⟨hfirst, hrest⟩ := hplain
    rw [ih (hrest z hz) (fun st' hst' => hconv st' (by simp [hst'])) h]
    exact shape_run hlib hfirst (hconv st (by simp)) hz

end Stage

/-! ## An operator -/

namespace Op

variable {τ : Type} {lib : TensorLibrary τ} {op : Op} {S T : Scope τ} {x y : τ}

/-- A convolution stands at the beginning of an operator or nowhere. -/
theorem isConv_of_mem_standard : ∀ o ∈ Operator.standard,
    (∀ st ∈ o.stages.tail, st.isConv = false) ∧
      (o.kernel? = none → ∀ st ∈ o.stages, st.isConv = false) := by
  decide +kernel

/-- The shape that is inferred for an operator is that of the tensor it computes. -/
theorem computeShape_of_compute (hlib : lib.HasShapeRules) {o : Operator}
    (ho : Operator.ofType op.opType = .ok o) (hplain : Stage.AllTakePlain lib op S o.stages x)
    (h : op.compute lib S x = .ok y) :
    op.computeShape (Table.mapValues lib.sizes S) (lib.sizes x) = .ok (lib.sizes y) := by
  obtain ⟨o', ho', h⟩ := bind_eq_ok.mp h
  rw [ho] at ho'
  cases ho'
  obtain ⟨hbehind, hnone⟩ := isConv_of_mem_standard o (Operator.ofType_eq_ok ho).2
  rw [computeShape, ho, ok_bind]
  cases hkernel : o.kernel? with
  | none =>
    rw [TensorLibrary.sizes_eq_of_shape (Stage.shape_foldlM_run hlib hplain (hnone hkernel) h)]
    rfl
  | some kernel =>
    obtain ⟨depthwise, rest, hstages⟩ := Operator.exists_stages_of_kernel hkernel
    rw [hstages] at hplain h hbehind
    rw [List.foldlM_cons, bind_eq_ok] at h
    obtain ⟨z, hz, h⟩ := h
    -- The convolution makes the shape, which is then kept.
    rw [TensorLibrary.sizes_eq_of_shape (Stage.shape_foldlM_run hlib (hplain.2 z hz) hbehind h)]
    rw [Stage.run_conv, bind_eq_ok] at hz
    obtain ⟨t, ht, hz⟩ := hz
    obtain ⟨p, hp, hz⟩ := bind_eq_ok.mp hz
    show op.fetchParam _ kernel >>= op.convolvedShape (lib.sizes x) = _
    rw [fetchParam_mapValues ht, ok_bind]
    exact convolvedShape_sizes hlib hp hplain.1 hz

/-- The inference goes along with an operator that is run. -/
theorem infer_of_execute (hlib : lib.HasShapeRules) (hplain : op.TakesPlain lib S)
    (h : op.execute lib S = .ok T) :
    op.infer (Table.mapValues lib.sizes S) = .ok (Table.mapValues lib.sizes T) := by
  obtain ⟨n, b, x, y, hn, hb, hx, hy, rfl⟩ := execute_eq_ok.mp h
  obtain ⟨o, ho, hname⟩ := bind_eq_ok.mp hn
  have hfetch : S.fetch (.atom n) = .ok x := Scope.fetch_eq_ok.mpr ⟨n, rfl, hx⟩
  refine infer_eq_ok.mpr ⟨n, b, lib.sizes x, lib.sizes y, hn, hb, ?_, ?_,
    Table.mapValues_insert ..⟩
  · rw [Table.get?_mapValues, hx, Option.map_some]
  · exact computeShape_of_compute hlib ho (hplain o ho _ hname x hfetch) hy

end Op

/-! ## A run -/

/-- Where a program runs to an end, with four dimensions at convolutions and sums that keep the
shape of their first operand, the inference comes to an end as well and has the shapes of all
tensors, with every library whose results have the shapes that they are known to have. -/
theorem Executor.inferShapes_eq_of_run {τ : Type} {lib : TensorLibrary τ} (hlib : lib.HasShapeRules)
    {p : Program} {block : Block} (hblock : p.blocks = [block]) {feeds scope : Scope τ}
    (hplain : Op.AllTakePlain lib block.ops feeds)
    (hrun : ({} : Executor).run lib p feeds = .ok scope) :
    ({} : Executor).inferShapes p (Table.mapValues lib.sizes feeds)
      = .ok (Table.mapValues lib.sizes scope) := by
  rw [run_eq lib hblock] at hrun
  rw [inferShapes_eq hblock]
  generalize block.ops = ops at hplain hrun
  induction ops generalizing feeds with
  | nil =>
    cases hrun
    rfl
  | cons op ops ih =>
    rw [List.foldlM_cons, bind_eq_ok] at hrun
    obtain ⟨scope', hscope', hrun⟩ := hrun
    rw [List.foldlM_cons, Op.infer_of_execute hlib hplain.1 hscope', ok_bind]
    exact ih (hplain.2 scope' hscope') hrun

/-! ## Computation -/

section Decidable

variable {τ : Type} {lib : TensorLibrary τ}

instance decidableForallOk {ε α : Type} {r : Except ε α} {p : α → Prop} [DecidablePred p] :
    Decidable (∀ a, r = .ok a → p a) :=
  match r with
  | .ok a => decidable_of_iff (p a) ⟨fun h a' ha' => by cases ha'; exact h, fun h => h a rfl⟩
  | .error _ => isTrue nofun

instance {op : Op} {scope : Scope τ} {x : τ} : DecidablePred (Stage.TakesPlain lib op scope x) :=
  fun st => match st with
    | .conv .. => inferInstanceAs (Decidable (lib.rank x = 4))
    | .add operand => inferInstanceAs (Decidable (∀ y, op.fetchParam scope operand = .ok y →
        ∀ axis, op.intAttr "axis" (-1) = .ok axis →
          ∀ y', lib.alignAxis axis (lib.rank x) y = .ok y' →
            Shape.broadcast? (lib.shape x) (lib.shape y') = some (lib.shape x)))
    | .norm .. | .relu => isTrue trivial

instance Stage.decidableAllTakePlain (op : Op) (scope : Scope τ) :
    ∀ stages x, Decidable (Stage.AllTakePlain lib op scope stages x)
  | [], _ => isTrue trivial
  | st :: rest, x =>
      have := fun y => decidableAllTakePlain op scope rest y
      inferInstanceAs (Decidable (st.TakesPlain lib op scope x ∧
        ∀ y, Stage.run lib op scope x st = .ok y → Stage.AllTakePlain lib op scope rest y))

instance (op : Op) (scope : Scope τ) : Decidable (op.TakesPlain lib scope) :=
  inferInstanceAs (Decidable (∀ o, Operator.ofType op.opType = .ok o →
    ∀ name, op.inputName o.input = .ok name → ∀ x, scope.fetch name = .ok x →
      Stage.AllTakePlain lib op scope o.stages x))

instance Op.decidableAllTakePlain : ∀ ops scope, Decidable (Op.AllTakePlain lib ops scope)
  | [], _ => isTrue trivial
  | op :: rest, scope =>
      have := fun scope' => decidableAllTakePlain rest scope'
      inferInstanceAs (Decidable (op.TakesPlain lib scope ∧
        ∀ scope', op.execute lib scope = .ok scope' → Op.AllTakePlain lib rest scope'))

end Decidable

/-- A convolution by strides, an addition along the channels, an activation that writes over what it
reads, and a fused operator behind them. -/
def stridedConvs : List Op :=
  [{ Op.ofTexts "conv2d" [("Input", ["x"])] [("Output", ["c"])] [("Filter", ["w"])] with
      attrs := .ofList [(.text "strides", .list [.int 2, .int 1]),
        (.text "paddings", .list [.int 1, .int 0])] },
    { Op.ofTexts "elementwise_add" [("X", ["c"])] [("Out", ["t"])] [("Y", ["b"])] with
      attrs := .ofList [(.text "axis", .int 1)] },
    .ofTexts "relu" [("X", ["t"])] [("Out", ["t"])],
    .ofTexts "conv_add" [("Input", ["t"])] [("Out", ["y"])] [("Filter", ["v"]), ("Bias", ["d"])]]

def stridedFeeds : Scope (Tensor Float) := .ofList [
  (.text "x", .ofFn [1, 2, 5, 6] fun _ => 1),
  (.text "w", .ofFn [3, 2, 3, 2] fun _ => 1),
  (.text "b", .ofFn [3] fun _ => 1),
  (.text "v", .ofFn [4, 3, 2, 2] fun _ => 1),
  (.text "d", .ofFn [4, 1, 1] fun _ => 1)]

theorem inferShapes_eq_of_run_stridedConvs :
    (Tensor.library Numbers.doubles).HasShapeRules ∧
    Op.AllTakePlain (Tensor.library .doubles) stridedConvs stridedFeeds ∧
    ∃ scope, ({} : Executor).run (Tensor.library .doubles) (.ofOps stridedConvs) stridedFeeds
        = .ok scope ∧
      ({} : Executor).inferShapes (.ofOps stridedConvs)
          (Table.mapValues (Tensor.library .doubles).sizes stridedFeeds)
        = .ok (Table.mapValues (Tensor.library .doubles).sizes scope) ∧
      (scope.get? (.text "y")).map Tensor.shape = some [1, 4, 2, 4] := by
  have hlib := Tensor.library_hasShapeRules Numbers.doubles
  have hplain : Op.AllTakePlain (Tensor.library .doubles) stridedConvs stridedFeeds := by
    decide +kernel
  have hview : (({} : Executor).run (Tensor.library .doubles) (.ofOps stridedConvs)
      stridedFeeds).toOption.bind (fun scope => (scope.get? (.text "y")).map Tensor.shape)
      = some [1, 4, 2, 4] := by decide +kernel
  obtain ⟨scope, hscope⟩ := exists_ok_of_isOk
    (x := ({} : Executor).run (Tensor.library .doubles) (.ofOps stridedConvs) stridedFeeds)
    (by decide +kernel)
  rw [hscope] at hview
  exact ⟨hlib, hplain, scope, hscope, Executor.inferShapes_eq_of_run hlib rfl hplain hscope, hview⟩

end TensorFusion
