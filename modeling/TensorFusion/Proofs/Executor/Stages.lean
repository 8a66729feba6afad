import TensorFusion.Executor
import TensorFusion.Proofs.Results

/-!
# Proofs — Executor — Stages

What a stage depends on. It looks at a few parameter slots and a few attributes of its operator;
another operator that has the same there, if under other slots, computes the same.
-/

namespace TensorFusion

namespace Stage

/-- The slots of its parameters. -/
def slots : Stage → List String
  | .conv _ kernel => [kernel]
  | .add operand => [operand]
  | .norm scale bias mean variance => [scale, bias, mean, variance]
  | .relu => []

/-- The keys of the attributes that it looks at. -/
def attrKeys : Stage → List String
  | .conv .. => ["strides", "paddings", "dilations", "groups"]
  | .add _ => ["axis"]
  | .norm .. => ["epsilon"]
  | .relu => []

/-- The same step with other slots for its parameters. -/
def mapSlots (f : String → String) : Stage → Stage
  | .conv depthwise kernel => .conv depthwise (f kernel)
  | .add operand => .add (f operand)
  | .norm scale bias mean variance => .norm (f scale) (f bias) (f mean) (f variance)
  | .relu => .relu

theorem map_mapSlots_id (stages : List Stage) : stages.map (mapSlots id) = stages := by
  have hid : mapSlots id = id := by
    funext st
    cases st <;> rfl
  rw [hid, List.map_id]

end Stage

namespace Op

/-- What a parameter slot stands for. -/
def fetchParam {α : Type} (op : Op) (scope : Scope α) (slot : String) : Except Error α := do
  scope.fetch (← op.paramName slot)

variable {τ : Type} (lib : TensorLibrary τ) {op op' : Op}

theorem convolve_congr (h : ∀ key ∈ ["strides", "paddings", "dilations", "groups"],
    op'.attrs.get? (.text key) = op.attrs.get? (.text key)) :
    op'.convolve lib = op.convolve lib := by
  have hstrides := h "strides" (by simp)
  have hpaddings := h "paddings" (by simp)
  have hdilations := h "dilations" (by simp)
  have hgroups := h "groups" (by simp)
  funext depthwise x kernel
  simp only [convolve, window, groupsFor, pairAttr, hstrides, hpaddings, hdilations, hgroups]

theorem add_congr (h : op'.attrs.get? (.text "axis") = op.attrs.get? (.text "axis")) :
    op'.add lib = op.add lib := by
  funext x y
  simp only [add, intAttr, h]

theorem normalize_congr (h : op'.attrs.get? (.text "epsilon") = op.attrs.get? (.text "epsilon")) :
    op'.normalize lib = op.normalize lib := by
  funext s x
  simp only [normalize, h]

end Op

variable {τ : Type} {lib : TensorLibrary τ} {op op' : Op} {scope scope' : Scope τ}
  {f : String → String} {x y : τ}

namespace Stage

theorem run_conv (depthwise : Bool) (slot : String) : run lib op scope x (.conv depthwise slot)
    = op.fetchParam scope slot >>= op.convolve lib depthwise x := by
  simp only [run, Op.fetchParam, bind_assoc]

theorem run_add (slot : String) :
    run lib op scope x (.add slot) = op.fetchParam scope slot >>= op.add lib x := by
  simp only [run, Op.fetchParam, bind_assoc]

theorem run_norm (scale bias mean variance : String) :
    run lib op scope x (.norm scale bias mean variance) = (do
      let s : Statistics τ := {
        scale := ← op.fetchParam scope scale
        bias := ← op.fetchParam scope bias
        mean := ← op.fetchParam scope mean
        variance := ← op.fetchParam scope variance }
      op.normalize lib s x) := by
  simp only [run, Op.fetchParam, bind_assoc]

/-- A step computes the same for another operator that has the same tensors in its slots and the
same attributes. -/
theorem run_transfer {st : Stage}
    (hparams : ∀ slot ∈ st.slots, ∀ t, op.fetchParam scope slot = .ok t →
      op'.fetchParam scope' (f slot) = .ok t)
    (hattrs : ∀ key ∈ st.attrKeys, op'.attrs.get? (.text key) = op.attrs.get? (.text key))
    (h : run lib op scope x st = .ok y) : run lib op' scope' x (st.mapSlots f) = .ok y := by
  cases st with
  | conv depthwise kernel =>
    rw [run_conv, bind_eq_ok] at h
    obtain ⟨t, ht, h⟩ := h
    rw [mapSlots, run_conv, hparams kernel (by simp [slots]) t ht, ok_bind,
      Op.convolve_congr lib fun key hkey => hattrs key (by simpa [attrKeys] using hkey)]
    exact h
  | add operand =>
    rw [run_add, bind_eq_ok] at h
    obtain ⟨t, ht, h⟩ := h
    rw [mapSlots, run_add, hparams operand (by simp [slots]) t ht, ok_bind,
      Op.add_congr lib (hattrs "axis" (by simp [attrKeys]))]
    exact h
  | norm scale bias mean variance =>
    simp only [run_norm, bind_eq_ok] at h
    obtain ⟨t₁, ht₁, t₂, ht₂, t₃, ht₃, t₄, ht₄, h⟩ := h
    rw [mapSlots, run_norm, hparams scale (by simp [slots]) t₁ ht₁,
      hparams bias (by simp [slots]) t₂ ht₂, hparams mean (by simp [slots]) t₃ ht₃,
      hparams variance (by simp [slots]) t₄ ht₄,
      Op.normalize_congr lib (hattrs "epsilon" (by simp [attrKeys]))]
    exact h
  | relu => exact h

/-- Steps compute the same for another operator that has the same tensors in their slots and the
same attributes. -/
theorem foldlM_run_transfer {stages : List Stage}
    (hparams : ∀ st ∈ stages, ∀ slot ∈ st.slots, ∀ t, op.fetchParam scope slot = .ok t →
      op'.fetchParam scope' (f slot) = .ok t)
    (hattrs : ∀ st ∈ stages, ∀ key ∈ st.attrKeys,
      op'.attrs.get? (.text key) = op.attrs.get? (.text key))
    (h : stages.foldlM (run lib op scope) x = .ok y) :
    (stages.map (mapSlots f)).foldlM (run lib op' scope') x = .ok y := by
  induction stages generalizing x with
  | nil => exact h
  | cons st stages ih =>
    rw [List.foldlM_cons, bind_eq_ok] at h
    obtain ⟨z, hz, h⟩ := h
    rw [List.map_cons, List.foldlM_cons,
      run_transfer (hparams st (by simp)) (hattrs st (by simp)) hz, ok_bind]
    exact ih (fun st' hst' => hparams st' (by simp [hst']))
      (fun st' hst' => hattrs st' (by simp [hst'])) h

end Stage

end TensorFusion
