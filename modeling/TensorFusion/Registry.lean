import TensorFusion.Error
import TensorFusion.Value.Table

/-!
# Registry

The slots that operators of each type declare. Only declared slots carry tensors from one operator
to another; a type without an entry is unknown.
-/

namespace TensorFusion

/-- The declared input and output slots of an operator type, in order. -/
structure Signature where
  inputs : List Value
  outputs : List Value
  deriving Inhabited

/-- The slots of a signature as keys. -/
structure SlotKeys where
  inputs : List Atom
  outputs : List Atom
  deriving DecidableEq, Inhabited

def Signature.slotKey (slot : Value) : Except Error Atom :=
  match slot.atom? with
  | some key => .ok key
  | none => .error .wrongKind

/-- The slots of a signature as keys. A signature may declare what is no key, but no operator can be
looked into by it. -/
def Signature.slotKeys (s : Signature) : Except Error SlotKeys := do
  return { inputs := ← s.inputs.mapM slotKey, outputs := ← s.outputs.mapM slotKey }

/-- Signatures by operator type. -/
structure Registry where
  signatures : Table Signature := {}
  deriving Inhabited

namespace Registry

/-- The signature of a type. What cannot be a key cannot be asked for. -/
def lookup (r : Registry) : Value → Except Error Signature
  | .atom opType => match r.signatures.get? opType with
    | some signature => .ok signature
    | none => .error (.unknownOperator (.atom opType))
  | _ => .error .wrongKind

def contains (r : Registry) : Value → Except Error Bool
  | .atom opType => .ok (r.signatures.contains opType)
  | _ => .error .wrongKind

/-- Sets the signature of a type; a type that had one keeps its place. -/
def register (r : Registry) (opType : Atom) (signature : Signature) : Registry :=
  ⟨r.signatures.insert opType signature⟩

def size (r : Registry) : Nat := r.signatures.size

/-- Sets the signature of a type from values that list slots. -/
def registerValue (r : Registry) (opType inputs outputs : Value) : Except Error Registry := do
  let signature : Signature := { inputs := ← inputs.elements, outputs := ← outputs.elements }
  match opType with
  | .atom opType => return r.register opType signature
  | _ => throw .wrongKind

def entry (opType : String) (inputs outputs : List String) : Atom × Signature :=
  (.text opType, ⟨inputs.map Value.text, outputs.map Value.text⟩)

/-- The operators that every registry knows unless it is built empty. -/
def standard : Registry := ⟨⟨[
  entry "feed" ["X"] ["Out"],
  entry "fetch" ["X"] ["Out"],
  entry "conv2d" ["Input"] ["Output"],
  entry "depthwise_conv2d" ["Input"] ["Output"],
  entry "conv2d_transpose" ["Input"] ["Output"],
  entry "elementwise_add" ["X"] ["Out"],
  entry "batch_norm" ["X"] ["Y"],
  entry "relu" ["X"] ["Out"],
  entry "sigmoid" ["X"] ["Out"],
  entry "softmax" ["X"] ["Out"],
  entry "pool2d" ["X"] ["Out"],
  entry "reshape" ["X"] ["Out"],
  entry "transpose" ["X"] ["Out"],
  entry "concat" ["X"] ["Out"],
  entry "prior_box" ["Input", "Image"] ["Boxes", "Variances"],
  entry "box_coder" ["PriorBox", "PriorBoxVar", "TargetBox"] ["OutputBox"],
  entry "multiclass_nms" ["BBoxes", "Scores"] ["Out"],
  entry "conv_add_batchnorm_relu" ["Input"] ["Out"],
  entry "conv_add" ["Input"] ["Out"],
  entry "conv_bn_relu" ["Input"] ["Out"],
  entry "dwconv_bn_relu" ["Input"] ["Out"]], by decide⟩⟩

/-- A registry without entries stands for the standard one. -/
def orStandard (r : Registry) : Registry := if r.size = 0 then standard else r

end Registry

end TensorFusion
