import TensorFusion.Error
import TensorFusion.Program.Basic

/-!
# Program — Document

Programs as document values. Reading takes whatever can be walked through as a list and fills in
what is missing; writing gives every field. What was written reads back as the same program.
-/

namespace TensorFusion

namespace Value

def require (v : Value) (field : String) : Except Error Value :=
  match v with
  | .map entries => match Table.lookup entries (.text field) with
    | some x => .ok x
    | none => .error (.missing field)
  | _ => .error .wrongKind

/-- The value of a field, or a default where the field is missing. -/
def fieldD (v : Value) (field : String) (default : Value) : Except Error Value :=
  match v with
  | .map entries => .ok ((Table.lookup entries (.text field)).getD default)
  | _ => .error .noFields

end Value

def Slots.readEntry (e : Atom × Value) : Except Error (Atom × List Value) := do
  return (e.1, ← e.2.elements)

def Slots.ofValue : Value → Except Error Slots
  | .map entries => do return .ofList (← entries.mapM readEntry)
  | _ => .error .noFields

def Slots.toValue (slots : Slots) : Value := .map (slots.mapValues Value.list).entries

namespace Op

/-- Reads an attribute from a pair of a key and a value. -/
def readPair (pair : Value) : Except Error (Atom × Value) := do
  match ← pair.elements with
  | [.atom key, value] => return (key, value)
  | [_, _] => throw .wrongKind
  | _ => throw .unreadable

/-- Reads pairs one after another, so that an earlier fault wins over a later one. -/
def readPairs (t : Table Value) : List Value → Except Error (Table Value)
  | [] => .ok t
  | pair :: rest => do
      let (key, value) ← readPair pair
      readPairs (t.insert key value) rest

/-- Reads attributes from a map or from a list of pairs, a later pair overwriting an earlier. -/
def readAttrs : Value → Except Error (Table Value)
  | .map entries => .ok (.ofList entries)
  | v => do readPairs {} (← v.elements)

/-- Reads an operator. Its type is required and may be any value. -/
def ofValue (v : Value) : Except Error Op := do
  let opType ← v.require "type"
  let inputs ← Slots.ofValue (← v.fieldD "inputs" (.map []))
  let outputs ← Slots.ofValue (← v.fieldD "outputs" (.map []))
  let attrs ← readAttrs (← v.fieldD "attrs" (.map []))
  let params ← Slots.ofValue (← v.fieldD "params" (.map []))
  return { opType, inputs, outputs, attrs, params }

def toValue (op : Op) : Value := .map [
  (.text "type", op.opType),
  (.text "inputs", op.inputs.toValue),
  (.text "outputs", op.outputs.toValue),
  (.text "attrs", .map op.attrs.entries),
  (.text "params", op.params.toValue)]

end Op

namespace Variable

def ofValue (v : Value) : Except Error Variable := do
  let name ← v.require "name"
  let dtype ← v.fieldD "dtype" "float32"
  let shape ← (← v.fieldD "shape" (.list [])).elements
  let persistable ← v.fieldD "persistable" (.bool false)
  return { name, dtype, shape, persistable := persistable.truthy }

def toValue (var : Variable) : Value := .map [
  (.text "name", var.name),
  (.text "dtype", var.dtype),
  (.text "shape", .list var.shape),
  (.text "persistable", .bool var.persistable)]

end Variable

namespace Block

def ofValue (v : Value) : Except Error Block := do
  let vars ← (← (← v.fieldD "vars" (.list [])).elements).mapM Variable.ofValue
  let ops ← (← (← v.fieldD "ops" (.list [])).elements).mapM Op.ofValue
  return { vars, ops }

def toValue (block : Block) : Value := .map [
  (.text "vars", .list (block.vars.map Variable.toValue)),
  (.text "ops", .list (block.ops.map Op.toValue))]

end Block

namespace Program

def ofValue (v : Value) : Except Error Program := do
  let blocks ← (← (← v.fieldD "blocks" (.list [])).elements).mapM Block.ofValue
  return { blocks }

def toValue (p : Program) : Value := .map [
  (.text "blocks", .list (p.blocks.map Block.toValue))]

/-- Whether two programs are written by equal documents. -/
def same (p q : Program) : Bool := p.toValue.same q.toValue

end Program

end TensorFusion
