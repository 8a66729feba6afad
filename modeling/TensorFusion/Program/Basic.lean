import TensorFusion.Value.Table

/-!
# Program — Basic

Programs: blocks of operators in execution order. An operator reads and writes tensors by name,
grouped into slots; its parameters are slots of persistent tensors.
-/

namespace TensorFusion

/-- Tensor names by slot. -/
abbrev Slots := Table (List Value)

def Table.names (slots : Slots) : List Value := slots.values.flatten

/-- An operator. -/
structure Op where
  opType : Value
  inputs : Slots := {}
  outputs : Slots := {}
  attrs : Table Value := {}
  params : Slots := {}
  deriving Inhabited

/-- A declared tensor. -/
structure Variable where
  name : Value
  dtype : Value := "float32"
  shape : List Value := []
  persistable : Bool := false
  deriving Inhabited

/-- Declared tensors, and operators in execution order. -/
structure Block where
  vars : List Variable := []
  ops : List Op := []
  deriving Inhabited

/-- A program. Only programs of one block are optimized and executed. -/
structure Program where
  blocks : List Block := []
  deriving Inhabited

end TensorFusion
