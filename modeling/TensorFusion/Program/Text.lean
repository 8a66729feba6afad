import TensorFusion.Value.Text
import TensorFusion.Program.Document

/-!
# Program — Text

One-line descriptions of programs and their parts.
-/

namespace TensorFusion

def Op.describe (op : Op) : String :=
  "OpDesc(" ++ op.opType.plain ++ ", inputs=" ++ op.inputs.toValue.literal
    ++ ", outputs=" ++ op.outputs.toValue.literal ++ ")"

def Variable.describe (var : Variable) : String :=
  "VarDesc(name=" ++ var.name.literal ++ ", dtype=" ++ var.dtype.literal
    ++ ", shape=" ++ Value.parenthesized var.shape
    ++ ", persistable=" ++ boolText var.persistable ++ ")"

def Program.describe (p : Program) : String :=
  s!"ProgramDesc(blocks={p.blocks.length}, ops="
    ++ Value.bracketed (p.blocks.map fun block => toString block.ops.length) ++ ")"

end TensorFusion
