import TensorFusion.Value.Text

/-!
# Error

What can go wrong, by cause. The fusion errors are the ones that an optimizer may answer with the
program it was given; all others end the run.
-/

namespace TensorFusion

/-- Why a template or its place in a catalog is refused. -/
inductive TemplateError where
  | emptyChain
  | unnamed
  | noFusedType (name : Value)
  | badRename (opType : Atom) (pair : Value)
  | duplicate (name : Value)
  | tooDeep (name : Value) (depth : Nat) (limit : Value)

/-- Why a program cannot be fused. -/
inductive FusionError where
  | unknownOperator (opType : Value)
  | multipleBlocks (count : Nat)
  | template (cause : TemplateError)

/-- Why an operation has no result. -/
inductive Error where
  | fusion (cause : FusionError)
  /-- A field, a tensor or a template that is not there. -/
  | missing (name : Value)
  /-- An operator that does not name a tensor in a slot. -/
  | missingSlot (opType : Value) (slot : String)
  | noFields
  | wrongKind
  /-- A value of the right kind with content that cannot be used. -/
  | unreadable
  | outOfRange
  | divisionByZero
  | tooLarge
  | tensorMismatch
  /-- What the operating system refuses. -/
  | system (reason : String)
  | malformedDocument

def TemplateError.message : TemplateError → String
  | .emptyChain => "chain() requires at least one op type"
  | .unnamed => "Fusion template requires a name"
  | .noFusedType name => "Fusion template '" ++ name.plain ++ "' requires a fused type"
  | .badRename opType pair =>
      "Rename entry for '" ++ opType.plain ++ "' must be (from, to), got " ++ pair.literal
  | .duplicate name => "Fusion template '" ++ name.plain ++ "' already registered"
  | .tooDeep name depth limit =>
      "Fusion template '" ++ name.plain ++ s!"' depth {depth} exceeds max " ++ limit.plain

def FusionError.message : FusionError → String
  | .unknownOperator opType =>
      "Unknown operator type '" ++ opType.plain ++ "': no slot info registered"
  | .multipleBlocks count =>
      s!"Program has {count} blocks, only single-block programs are supported"
  | .template cause => cause.message

namespace Error

/-- The sentence that goes with an error, where it has one. -/
def message? : Error → Option String
  | .fusion cause => some cause.message
  | .missing (.text name) => some name
  | .missingSlot opType slot => some (opType.plain ++ ": missing slot '" ++ slot ++ "'")
  | _ => none

def unknownOperator (opType : Value) : Error := .fusion (.unknownOperator opType)

def template (cause : TemplateError) : Error := .fusion (.template cause)

end Error

def Value.elements (v : Value) : Except Error (List Value) :=
  match v.elements? with
  | some items => .ok items
  | none => .error .wrongKind

end TensorFusion
