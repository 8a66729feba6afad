import TensorFusion.Program.Basic
import TensorFusion.Value.Number

/-!
# Operator — Basic

The reference operators. Each one takes the tensor of its input slot through a sequence of stages
and puts the result under the name of its output slot; a fused operator is the sequence of the
stages of the operators that it replaces, with other parameter slots.
-/

namespace TensorFusion

/-- What an operator is for. -/
inductive OperatorKind where
  | io
  | conv
  | elementwise
  | norm
  | activation
  | fused
  deriving DecidableEq

def OperatorKind.name : OperatorKind → String
  | .io => "IO"
  | .conv => "CONV"
  | .elementwise => "ELEMENTWISE"
  | .norm => "NORM"
  | .activation => "ACTIVATION"
  | .fused => "FUSED"

/-- A step of a computation, with the slots of its parameters. -/
inductive Stage where
  /-- A convolution; a depthwise one has by default as many groups as channels. -/
  | conv (depthwise : Bool) (kernel : String)
  | add (operand : String)
  | norm (scale bias mean variance : String)
  | relu
  deriving DecidableEq

/-- An operator with a reference implementation. -/
structure Operator where
  opType : String
  kind : OperatorKind
  input : String
  stages : List Stage
  output : String
  deriving DecidableEq

namespace Operator

def fusedNorm : Stage := .norm "BNScale" "BNBias" "BNMean" "BNVariance"

def standard : List Operator := [
  ⟨"feed", .io, "X", [], "Out"⟩,
  ⟨"fetch", .io, "X", [], "Out"⟩,
  ⟨"conv2d", .conv, "Input", [.conv false "Filter"], "Output"⟩,
  ⟨"depthwise_conv2d", .conv, "Input", [.conv true "Filter"], "Output"⟩,
  ⟨"elementwise_add", .elementwise, "X", [.add "Y"], "Out"⟩,
  ⟨"batch_norm", .norm, "X", [.norm "Scale" "Bias" "Mean" "Variance"], "Y"⟩,
  ⟨"relu", .activation, "X", [.relu], "Out"⟩,
  ⟨"conv_add_batchnorm_relu", .fused, "Input",
    [.conv false "Filter", .add "Bias", fusedNorm, .relu], "Out"⟩,
  ⟨"conv_add", .fused, "Input", [.conv false "Filter", .add "Bias"], "Out"⟩,
  ⟨"conv_bn_relu", .fused, "Input", [.conv false "Filter", fusedNorm, .relu], "Out"⟩,
  ⟨"dwconv_bn_relu", .fused, "Input", [.conv true "Filter", fusedNorm, .relu], "Out"⟩]

def ofType : Value → Except Error Operator
  | .atom opType => match standard.find? fun o => (Atom.text o.opType).same opType with
    | some o => .ok o
    | none => .error (.unknownOperator (.atom opType))
  | _ => .error .wrongKind

end Operator

namespace Op

def firstName (op : Op) (slots : Slots) (slot : String) : Except Error Value :=
  match slots.get? (.text slot) with
  | some (name :: _) => .ok name
  | _ => .error (.missingSlot op.opType slot)

def inputName (op : Op) (slot : String) : Except Error Value := op.firstName op.inputs slot

/-- The tensor that a parameter slot names. A parameter may also be given as an ordinary input. -/
def paramName (op : Op) (slot : String) : Except Error Value :=
  if op.params.contains (.text slot) then op.firstName op.params slot
  else op.firstName op.inputs slot

def outputName (op : Op) (slot : String) : Except Error Value := op.firstName op.outputs slot

/-- A whole attribute, or a default where it is missing. -/
def intAttr (op : Op) (key : String) (default : Int) : Except Error Int :=
  match op.attrs.get? (.text key) with
  | some v => v.toInt
  | none => .ok default

/-- A pair of whole numbers for height and width. One number stands for both, nothing for the
default; numbers behind the second are not looked at. -/
def pairAttr (op : Op) (key : String) (default : Int) : Except Error (Int × Int) :=
  match op.attrs.get? (.text key) with
  | none => .ok (default, default)
  | some .null => .ok (default, default)
  | some (.list []) => .error .outOfRange
  | some (.list [v]) => do let n ← v.toInt; return (n, n)
  | some (.list (v :: w :: _)) => do return (← v.toInt, ← w.toInt)
  | some v => do let n ← v.toInt; return (n, n)

end Op

/-- What is known by name while operators are gone through. -/
abbrev Scope (α : Type) := Table α

namespace Scope

variable {α : Type}

/-- What a name stands for. -/
def fetch (scope : Scope α) : Value → Except Error α
  | .atom name => match Table.get? scope name with
    | some x => .ok x
    | none => .error (.missing (.atom name))
  | _ => .error .wrongKind

def store (scope : Scope α) (name : Value) (x : α) : Except Error (Scope α) :=
  match name with
  | .atom name => .ok (Table.insert scope name x)
  | _ => .error .wrongKind

end Scope

end TensorFusion
