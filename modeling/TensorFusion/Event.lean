import TensorFusion.Pattern

/-!
# Event

What an optimizer reports while it runs, and how a report reads in a log.
-/

namespace TensorFusion

/-- Something worth reporting. -/
inductive Event where
  | built (nodes types : Nat)
  /-- The tree of types at a node was compared with a template. -/
  | compared (agrees : Bool) (index : Nat) (template : Value) (shadow : Pattern)
  | fused (index : Nat) (fusedType : Value) (absorbed : List Nat)
  | skipped (template : Value)
  | fusionOff
  | optimized (before after : Nat)
  /-- A program could not be optimized and is used as it is. -/
  | fellBack (cause : FusionError)

/-- How grave a report is. -/
inductive Level where
  | debug
  | info
  | warning
  deriving DecidableEq

def Level.name : Level → String
  | .debug => "DEBUG"
  | .info => "INFO"
  | .warning => "WARNING"

/-- A line of a log. -/
structure LogRecord where
  level : Level
  logger : String
  message : String

def ascending (indices : List Nat) : List Nat := indices.mergeSort (· ≤ ·)

/-- The line of a log for an event. -/
def Event.record : Event → LogRecord
  | .built nodes types =>
      ⟨.debug, "opfuse.graph_builder", s!"Built graph with {nodes} nodes, {types} op types"⟩
  | .compared agrees index template shadow =>
      ⟨.debug, "opfuse.matcher",
        "[Fusion] " ++ (if agrees then "Match" else "No match")
          ++ s!" node #{index} for '" ++ template.plain ++ "': " ++ shadow.describe⟩
  | .fused index fusedType absorbed =>
      ⟨.debug, "opfuse.rewriter",
        s!"[Fusion] Fused node #{index} into '" ++ fusedType.plain ++ "', removed "
          ++ Value.bracketed ((ascending absorbed).map toString)⟩
  | .skipped template =>
      ⟨.debug, "opfuse.optimizer", "[Fusion] Skip: template '" ++ template.plain ++ "' disabled"⟩
  | .fusionOff =>
      ⟨.debug, "opfuse.optimizer", "[Fusion] Fusion disabled, reassembling program unchanged"⟩
  | .optimized before after =>
      ⟨.info, "opfuse.optimizer", s!"Optimized program: {before} ops -> {after} ops"⟩
  | .fellBack cause =>
      ⟨.warning, "opfuse.optimizer",
        "[Fusion] Optimization failed, running unoptimized program: " ++ cause.message⟩

def LogRecord.line (r : LogRecord) : String := r.level.name ++ " " ++ r.logger ++ ": " ++ r.message

end TensorFusion
