import TensorFusion.Operator.Run
import TensorFusion.Operator.Shape

/-!
# Executor

Programs run operator by operator. All results stay in the scope, under the names that the
operators give them.
-/

namespace TensorFusion

/-- The operators that a program may use beside the reference ones; they come first. -/
structure Executor where
  custom : Table Operator := {}

namespace Executor

/-- Adds an operator under a type; an operator that the type had is replaced. -/
def register (e : Executor) (opType : Atom) (o : Operator) : Executor :=
  ⟨e.custom.insert opType o⟩

def registerAlias (e : Executor) (opType existing : Value) : Except Error Executor := do
  let o ← Operator.ofType existing
  match opType with
  | .atom opType => return e.register opType o
  | _ => throw .wrongKind

def lookup (e : Executor) : Value → Except Error Operator
  | .atom opType => match e.custom.get? opType with
    | some o => .ok o
    | none => Operator.ofType (.atom opType)
  | _ => .error .wrongKind

def opsOf (p : Program) : Except Error (List Op) :=
  match p.blocks with
  | [block] => .ok block.ops
  | blocks => .error (.fusion (.multipleBlocks blocks.length))

/-- Runs a program on the given tensors, with a library of tensors. -/
def run {τ : Type} (e : Executor) (lib : TensorLibrary τ) (p : Program) (feeds : Scope τ) :
    Except Error (Scope τ) := do
  (← opsOf p).foldlM (fun scope op => do (← e.lookup op.opType).run lib op scope) feeds

/-- Finds the shapes of all tensors of a program from the given ones. -/
def inferShapes (e : Executor) (p : Program) (shapes : Scope (List Value)) :
    Except Error (Scope (List Value)) := do
  (← opsOf p).foldlM (fun shapes op => do (← e.lookup op.opType).inferShape op shapes) shapes

end Executor

end TensorFusion
