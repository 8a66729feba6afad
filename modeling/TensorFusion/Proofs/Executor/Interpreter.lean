import TensorFusion.Proofs.Executor.Stages
import TensorFusion.Proofs.Table

/-!
# Proofs — Executor — Interpreter

The two ways of going through a program. Operators can be run on tensors, and shapes can be inferred
for them; either way an operator finds something for its input by name, makes something of it with
what its parameter slots name, and puts that under the name of its output.
-/

namespace TensorFusion

/-! ## Scopes -/

namespace Scope

variable {α : Type} {S T U : Scope α} {v : Value} {x : α}

/-- What a scope knows, the other knows alike. -/
def Within (S T : Scope α) : Prop := ∀ b x, Table.get? S b = some x → Table.get? T b = some x

theorem Within.refl (S : Scope α) : S.Within S := fun _ _ h => h

theorem Within.trans (h : S.Within T) (h' : T.Within U) : S.Within U :=
  fun b x hx => h' b x (h b x hx)

theorem fetch_eq_ok : S.fetch v = .ok x ↔ ∃ b, v = .atom b ∧ Table.get? S b = some x := by
  cases v with
  | atom b =>
    simp only [fetch, Value.atom.injEq, exists_eq_left']
    cases Table.get? S b <;> simp
  | list items => simp [fetch]
  | map entries => simp [fetch]

theorem store_eq_ok : S.store v x = .ok T ↔ ∃ b, v = .atom b ∧ T = Table.insert S b x := by
  cases v with
  | atom b => simp [store, eq_comm]
  | list items => simp [store]
  | map entries => simp [store]

theorem Within.fetch (h : S.Within T) (hx : S.fetch v = .ok x) : T.fetch v = .ok x := by
  obtain ⟨b, rfl, hb⟩ := fetch_eq_ok.mp hx
  exact fetch_eq_ok.mpr ⟨b, rfl, h b x hb⟩

/-- A value at a name that was free takes nothing away. -/
theorem Within.of_new {b : Atom} (h : Table.get? S b = none) (y : α) :
    S.Within (Table.insert S b y) := fun c z hz => by
  rw [Table.get?_insert, if_neg, hz]
  intro hsame
  rw [← Table.get?_congr S hsame, h] at hz
  cases hz

/-- What another scope knows may be entered as the other knows it. -/
theorem Within.insert (h : S.Within T) {b : Atom} {y : α} (hb : Table.get? T b = some y) :
    Within (Table.insert S b y) T := fun c z hz => by
  rw [Table.get?_insert] at hz
  split at hz
  next hsame =>
    cases hz
    rw [← Table.get?_congr T hsame, hb]
  next => exact h c z hz

/-- What is entered as a larger scope knows it takes nothing away that it knows. -/
theorem Within.into_insert (h : U.Within S) (hT : U.Within T) {b : Atom} {y : α}
    (hb : Table.get? T b = some y) : U.Within (Table.insert S b y) := fun c z hz => by
  rw [Table.get?_insert]
  split
  next hsame => rw [← hT c z hz, ← Table.get?_congr T hsame, hb]
  next => exact h c z hz

end Scope

/-! ## Operators -/

namespace Op

/-- The name of the input. -/
def source (op : Op) : Except Error Value := do
  op.inputName (← Operator.ofType op.opType).input

/-- The name that the result is put under. -/
def target (op : Op) : Except Error Value := do
  op.outputName (← Operator.ofType op.opType).output

/-- The result is put under a name. -/
def Stores (op : Op) (b : Atom) : Prop := ∃ b', op.target = .ok (.atom b') ∧ b'.same b = true

/-- All parameters that the operator looks up are given. -/
def IsFed {α : Type} (feeds : Scope α) (op : Op) : Prop :=
  ∀ o, Operator.ofType op.opType = .ok o → ∀ st ∈ o.stages, ∀ slot ∈ st.slots,
    ∀ name, op.paramName slot = .ok name → ∃ x, feeds.fetch name = .ok x

/-- All parameters that an operator finds in a scope, it finds in another one alike. -/
def FindsAlike {α : Type} (op : Op) (S T : Scope α) : Prop :=
  ∀ o, Operator.ofType op.opType = .ok o → ∀ st ∈ o.stages, ∀ slot ∈ st.slots,
    ∀ z, op.fetchParam S slot = .ok z → op.fetchParam T slot = .ok z

section Parameters

variable {α : Type} {op : Op} {feeds S T : Scope α}

theorem findsAlike_of_within (h : S.Within T) : op.FindsAlike S T := by
  intro o _ st _ slot _ z hz
  obtain ⟨name, hname, hz⟩ := bind_eq_ok.mp hz
  exact bind_eq_ok.mpr ⟨name, hname, h.fetch hz⟩

/-- An operator whose parameters are given finds them among what is given. -/
theorem IsFed.findsAlike (hfed : op.IsFed feeds) (h : feeds.Within S) : op.FindsAlike S feeds := by
  intro o ho st hst slot hslot z hz
  obtain ⟨name, hname, hz⟩ := bind_eq_ok.mp hz
  obtain ⟨z', hz'⟩ := hfed o ho st hst slot hslot name hname
  have hsame := h.fetch hz'
  rw [hz] at hsame
  cases hsame
  exact bind_eq_ok.mpr ⟨name, hname, hz'⟩

end Parameters

end Op

/-- A way of going through operators. What an operator makes of its input depends on what its
parameter slots name, and on nothing else in the scope. -/
structure Interpreter (α : Type) where
  step : Scope α → Op → Except Error (Scope α)
  compute : Op → Scope α → α → Except Error α
  step_eq_ok : ∀ {op : Op} {S T : Scope α}, step S op = .ok T ↔ ∃ n b x y,
    op.source = .ok (.atom n) ∧ op.target = .ok (.atom b) ∧ Table.get? S n = some x ∧
      compute op S x = .ok y ∧ T = Table.insert S b y
  compute_transfer : ∀ {op : Op} {S T : Scope α} {x y : α}, op.FindsAlike S T →
    compute op S x = .ok y → compute op T x = .ok y

namespace Interpreter

variable {α : Type} (I : Interpreter α) {op : Op} {feeds S T : Scope α} {x y : α}

/-- An operator does in a larger scope what it does in a smaller one. -/
theorem compute_mono (h : S.Within T) (hy : I.compute op S x = .ok y) : I.compute op T x = .ok y :=
  I.compute_transfer (Op.findsAlike_of_within h) hy

/-- An operator whose parameters are given does with them alone what it does in any scope that has
them. -/
theorem compute_of_isFed (hfed : op.IsFed feeds) (h : feeds.Within S)
    (hy : I.compute op S x = .ok y) : I.compute op feeds x = .ok y :=
  I.compute_transfer (hfed.findsAlike h) hy

end Interpreter

/-! ## Tensors -/

section Tensors

variable {τ : Type} (lib : TensorLibrary τ)

namespace Op

/-- What becomes of the input, with the parameters from a scope. -/
def compute (op : Op) (scope : Scope τ) (x : τ) : Except Error τ := do
  (← Operator.ofType op.opType).stages.foldlM (Stage.run lib op scope) x

/-- Runs an operator as its type says. -/
def execute (scope : Scope τ) (op : Op) : Except Error (Scope τ) := do
  (← Operator.ofType op.opType).run lib op scope

variable {lib} {op : Op} {S T : Scope τ} {x y : τ}

theorem execute_eq_ok : op.execute lib S = .ok T ↔ ∃ n b x y, op.source = .ok (.atom n) ∧
    op.target = .ok (.atom b) ∧ Table.get? S n = some x ∧ op.compute lib S x = .ok y ∧
    T = Table.insert S b y := by
  unfold execute source target compute Operator.run
  cases Operator.ofType op.opType with
  | error e => simp [bind, Except.bind]
  | ok o =>
    simp only [ok_bind, bind_eq_ok, Scope.fetch_eq_ok, Scope.store_eq_ok]
    constructor
    · intro h
      obtain ⟨_, hn, x, ⟨n, rfl, hx⟩, y, hy, _, hb, b, rfl, rfl⟩ := h
      exact ⟨n, b, x, y, hn, hb, hx, hy, rfl⟩
    · intro h
      obtain ⟨n, b, x, y, hn, hb, hx, hy, rfl⟩ := h
      exact ⟨_, hn, x, ⟨n, rfl, hx⟩, y, hy, _, hb, b, rfl, rfl⟩

theorem compute_transfer (h : op.FindsAlike S T) (hy : op.compute lib S x = .ok y) :
    op.compute lib T x = .ok y := by
  obtain ⟨o, ho, hy⟩ := bind_eq_ok.mp hy
  refine bind_eq_ok.mpr ⟨o, ho, ?_⟩
  rw [← Stage.map_mapSlots_id o.stages]
  exact Stage.foldlM_run_transfer (fun st hst slot hslot z hz => h o ho st hst slot hslot z hz)
    (fun _ _ _ _ => rfl) hy

end Op

/-- Operators run on tensors. -/
def Interpreter.tensors : Interpreter τ where
  step scope op := op.execute lib scope
  compute := Op.compute lib
  step_eq_ok := Op.execute_eq_ok
  compute_transfer := Op.compute_transfer

theorem Executor.lookup_empty (v : Value) : ({} : Executor).lookup v = Operator.ofType v := by
  cases v <;> rfl

theorem Executor.run_eq {p : Program} {block : Block} (hblock : p.blocks = [block])
    (feeds : Scope τ) : ({} : Executor).run lib p feeds
      = block.ops.foldlM (fun scope op => op.execute lib scope) feeds := by
  simp only [run, opsOf, hblock, ok_bind, lookup_empty]
  rfl

end Tensors

/-! ## Shapes -/

namespace Operator

/-- The slot of the kernel of an operator that begins with a convolution. -/
def kernel? (o : Operator) : Option String :=
  match o.stages with
  | .conv _ kernel :: _ => some kernel
  | _ => none

variable {o : Operator} {op : Op} {shapes : Scope (List Value)}

theorem exists_stages_of_kernel {kernel : String} (h : o.kernel? = some kernel) :
    ∃ depthwise rest, o.stages = .conv depthwise kernel :: rest := by
  unfold kernel? at h
  split at h
  next depthwise kernel' rest hstages =>
    cases h
    exact ⟨depthwise, rest, hstages⟩
  next => cases h

theorem inferShape_of_kernel {kernel : String} (h : o.kernel? = some kernel) :
    o.inferShape op shapes = (do
      let shape ← op.convShape shapes o.input kernel
      shapes.store (← op.outputName o.output) shape) := by
  obtain ⟨depthwise, rest, hstages⟩ := exists_stages_of_kernel h
  simp only [inferShape, hstages]

theorem inferShape_of_no_kernel (h : o.kernel? = none) : o.inferShape op shapes = (do
    let shape ← shapes.fetch (← op.inputName o.input)
    shapes.store (← op.outputName o.output) shape) := by
  unfold kernel? at h
  unfold inferShape
  cases hstages : o.stages with
  | nil => rfl
  | cons st rest =>
    cases st with
    | conv depthwise kernel =>
      simp only [hstages] at h
      cases h
    | add operand => rfl
    | norm scale bias mean variance => rfl
    | relu => rfl

end Operator

namespace Op

/-- The shape of a convolution from those of the image and the kernel. -/
def convolvedShape (op : Op) : List Value → List Value → Except Error (List Value)
  | [images, _, height, width], [outs, _, rows, columns] => do
      let strides ← op.pairAttr "strides" 1
      let paddings ← op.pairAttr "paddings" 0
      let dilations ← op.pairAttr "dilations" 1
      let down ← convExtent height rows paddings.1 dilations.1 strides.1
      let across ← convExtent width columns paddings.2 dilations.2 strides.2
      return [images, outs, down, across]
  | _, _ => throw .unreadable

/-- What becomes of the shape of the input, with those of the parameters from a scope. -/
def computeShape (op : Op) (shapes : Scope (List Value)) (shape : List Value) :
    Except Error (List Value) := do
  match (← Operator.ofType op.opType).kernel? with
  | some kernel => op.convolvedShape shape (← op.fetchParam shapes kernel)
  | none => return shape

/-- Infers the shape for an operator as its type says. -/
def infer (shapes : Scope (List Value)) (op : Op) : Except Error (Scope (List Value)) := do
  (← Operator.ofType op.opType).inferShape op shapes

variable {op : Op} {S T : Scope (List Value)} {x y : List Value}

theorem convShape_eq_ok {input kernel : String} : op.convShape S input kernel = .ok y ↔
    ∃ name x w, op.inputName input = .ok name ∧ S.fetch name = .ok x ∧
      op.fetchParam S kernel = .ok w ∧ op.convolvedShape x w = .ok y := by
  unfold convShape fetchParam
  constructor
  · intro h
    obtain ⟨name, hname, h⟩ := bind_eq_ok.mp h
    obtain ⟨x, hx, h⟩ := bind_eq_ok.mp h
    split at h
    · obtain ⟨slotName, hslot, h⟩ := bind_eq_ok.mp h
      obtain ⟨w, hw, h⟩ := bind_eq_ok.mp h
      split at h
      · exact ⟨name, _, _, hname, hx, bind_eq_ok.mpr ⟨slotName, hslot, hw⟩, h⟩
      · cases h
    · cases h
  · intro h
    obtain ⟨name, x, w, hname, hx, hw, h⟩ := h
    obtain ⟨slotName, hslot, hw⟩ := bind_eq_ok.mp hw
    unfold convolvedShape at h
    split at h
    · simpa only [hname, hx, hslot, hw, ok_bind] using h
    · cases h

theorem infer_eq_ok : op.infer S = .ok T ↔ ∃ n b x y, op.source = .ok (.atom n) ∧
    op.target = .ok (.atom b) ∧ S.get? n = some x ∧ op.computeShape S x = .ok y ∧
    T = S.insert b y := by
  unfold infer source target computeShape
  cases Operator.ofType op.opType with
  | error e => simp [bind, Except.bind]
  | ok o =>
    simp only [ok_bind]
    -- Only a convolution makes a new shape.
    cases hkernel : o.kernel? with
    | some kernel =>
      simp only [Operator.inferShape_of_kernel hkernel, bind_eq_ok, convShape_eq_ok,
        Scope.fetch_eq_ok, Scope.store_eq_ok]
      constructor
      · intro h
        obtain ⟨y, ⟨_, x, w, hn, ⟨n, rfl, hx⟩, hw, hy⟩, _, hb, b, rfl, rfl⟩ := h
        exact ⟨n, b, x, y, hn, hb, hx, ⟨w, hw, hy⟩, rfl⟩
      · intro h
        obtain ⟨n, b, x, y, hn, hb, hx, ⟨w, hw, hy⟩, rfl⟩ := h
        exact ⟨y, ⟨_, x, w, hn, ⟨n, rfl, hx⟩, hw, hy⟩, _, hb, b, rfl, rfl⟩
    | none =>
      simp only [Operator.inferShape_of_no_kernel hkernel, bind_eq_ok, pure_eq_ok,
        Scope.fetch_eq_ok, Scope.store_eq_ok]
      constructor
      · intro h
        obtain ⟨_, hn, x, ⟨n, rfl, hx⟩, _, hb, b, rfl, rfl⟩ := h
        exact ⟨n, b, x, x, hn, hb, hx, rfl, rfl⟩
      · intro h
        obtain ⟨n, b, x, _, hn, hb, hx, rfl, rfl⟩ := h
        exact ⟨_, hn, x, ⟨n, rfl, hx⟩, _, hb, b, rfl, rfl⟩

theorem computeShape_transfer (h : op.FindsAlike S T) (hy : op.computeShape S x = .ok y) :
    op.computeShape T x = .ok y := by
  obtain ⟨o, ho, hy⟩ := bind_eq_ok.mp hy
  refine bind_eq_ok.mpr ⟨o, ho, ?_⟩
  cases hkernel : o.kernel? with
  | none => simpa only [hkernel] using hy
  | some kernel =>
    simp only [hkernel] at hy ⊢
    obtain ⟨w, hw, hy⟩ := bind_eq_ok.mp hy
    obtain ⟨depthwise, rest, hstages⟩ := Operator.exists_stages_of_kernel hkernel
    refine bind_eq_ok.mpr ⟨w, ?_, hy⟩
    exact h o ho (.conv depthwise kernel) (by simp [hstages]) kernel (by simp [Stage.slots]) w hw

end Op

/-- Shapes inferred for operators. -/
def Interpreter.shapes : Interpreter (List Value) where
  step shapes op := op.infer shapes
  compute := Op.computeShape
  step_eq_ok := Op.infer_eq_ok
  compute_transfer := Op.computeShape_transfer

theorem Executor.inferShapes_eq {p : Program} {block : Block} (hblock : p.blocks = [block])
    (shapes : Scope (List Value)) : ({} : Executor).inferShapes p shapes
      = block.ops.foldlM (fun shapes op => op.infer shapes) shapes := by
  simp only [inferShapes, opsOf, hblock, ok_bind, lookup_empty]
  rfl

end TensorFusion
