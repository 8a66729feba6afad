import TensorFusion.Catalog
import TensorFusion.Config
import TensorFusion.Event
import TensorFusion.Graph.Build
import TensorFusion.Graph.Fuse
import TensorFusion.Graph.Match

/-!
# Optimizer

The fusion pass over a program. The graph is built once; then the templates of the catalog are taken
in order, and each one is tried at the nodes that were built with its starting type. What remains
of the nodes, in program order, is the optimized program.
-/

namespace TensorFusion

/-- The state of a pass: the graph as changed so far, the nodes absorbed, how often each template
was applied, and what was reported. -/
structure Pass where
  arena : Arena
  removed : List Nat := []
  fused : Table Nat := {}
  events : List Event := []
  deriving Inhabited

namespace Pass

/-- Reports events. -/
def report (s : Pass) (events : List Event) : Pass := { s with events := s.events ++ events }

/-- Reports an event, if it is asked for. -/
def note (s : Pass) (wanted : Bool) (event : Event) : Pass :=
  if wanted then s.report [event] else s

def enter (s : Pass) (f : Fused) : Pass :=
  { s with
    arena := f.arena
    removed := s.removed ++ f.absorbed.filter fun i => !s.removed.contains i }

/-- Counts one more use of a template. A name that cannot be a key cannot be counted under. -/
def count (fused : Table Nat) : Value → Except Error (Table Nat)
  | .atom name => .ok (fused.insert name ((fused.get? name).getD 0 + 1))
  | _ => .error .wrongKind

def fuse (c : Config) (t : Template) (s : Pass) (index : Nat) : Except (Interrupted Pass) Pass := do
  let f ← (t.fuse s.arena index).mapError fun stop =>
    ⟨stop.error, { s with arena := stop.state }⟩
  let s := (s.enter f).report (f.report c.debugs index t)
  return { s with fused := ← Interrupted.before s (count s.fused t.name) }

/-- Tries a template at a node, unless the node was absorbed before. -/
def visit (c : Config) (heard : Bool) (t : Template) (s : Pass) (index : Nat) :
    Except (Interrupted Pass) Pass :=
  if s.removed.contains index then .ok s
  else do
    let verdict ← Interrupted.before s (t.examine s.arena index)
    let events ← Interrupted.before s (verdict.report c.debugs heard index t)
    let s := s.report events
    if verdict.isMatch then s.fuse c t index else return s

/-- Tries a template at each candidate, unless the template is switched off. -/
def runTemplate (c : Config) (heard : Bool) (g : Graph) (s : Pass) (t : Template) :
    Except (Interrupted Pass) Pass := do
  if ← Interrupted.before s (c.disables t.name) then return s.note c.debugs (.skipped t.name)
  let candidates ← Interrupted.before s (g.candidates t.trigger)
  candidates.foldlM (visit c heard t) s

def runTemplates (c : Config) (heard : Bool) (g : Graph) (templates : List Template) (s : Pass) :
    Except (Interrupted Pass) Pass :=
  templates.foldlM (runTemplate c heard g) s

def survivors (s : Pass) : List Op :=
  (s.arena.nodes.zipIdx.filter fun entry => !s.removed.contains entry.2).map (·.1.op)

end Pass

/-- What an optimizer has done since its counts were last cleared. -/
structure Stats where
  runs : Nat := 0
  fallbacks : Nat := 0
  removedOps : Nat := 0
  fused : Table Nat := {}
  deriving Inhabited

/-- An optimizer with its settings and its counts. Its reports may be heard or not; one that is
heard has to have a text. -/
structure Optimizer where
  registry : Registry
  catalog : Catalog
  config : Config
  stats : Stats := {}
  heard : Bool := false
  deriving Inhabited

/-- What a program becomes, and whether that is the very program that was given. -/
structure Outcome where
  program : Program
  fellBack : Bool := false
  deriving Inhabited

/-- A run of an optimizer: what the program becomes or why it does not, the optimizer with its new
counts, and what was reported. -/
structure Run where
  result : Except Error Outcome
  optimizer : Optimizer
  events : List Event := []

namespace Optimizer

/-- An optimizer from what is given; a registry or a catalog that is missing or empty is replaced
by the standard one. -/
def make (registry : Option Registry) (catalog : Option Catalog) (config : Option Config) :
    Except Error Optimizer := do
  let config := config.getD {}
  let registry := (registry.getD {}).orStandard
  let limit := config.maxPatternDepth.toValue
  match catalog with
  | some catalog =>
      if catalog.size = 0 then return { registry, config, catalog := ← Catalog.standard limit }
      else return { registry, config, catalog }
  | none => return { registry, config, catalog := ← Catalog.standard limit }

/-- Runs the templates over a graph, if fusion is switched on. -/
def fusePass (o : Optimizer) (g : Graph) : Except (Interrupted Pass) Pass :=
  let s : Pass :=
    { arena := g.arena
      fused := o.stats.fused
      events := [.built g.arena.size g.groups.size] }
  if o.config.fuses then s.runTemplates o.config o.heard g o.catalog.templates
  else .ok (s.note o.config.debugs .fusionOff)

/-- The counts of a run that has built its graph: the fusions count even if the run comes to no
end. -/
def startedStats (stats : Stats) (s : Pass) : Stats :=
  { stats with runs := stats.runs + 1, fused := s.fused }

def finishedStats (stats : Stats) (s : Pass) : Stats :=
  { startedStats stats s with removedOps := stats.removedOps + s.removed.length }

def runOn (o : Optimizer) (block : Block) (g : Graph) : Run :=
  match o.fusePass g with
  | .error stop => {
      result := .error stop.error
      optimizer := { o with stats := startedStats o.stats stop.state }
      events := stop.state.events }
  | .ok s =>
      let ops := s.survivors
      { result := .ok { program := { blocks := [{ vars := block.vars, ops }] } }
        optimizer := { o with stats := finishedStats o.stats s }
        events := s.events ++ [.optimized block.ops.length ops.length] }

def optimize (o : Optimizer) (p : Program) : Run :=
  match p.blocks with
  | [block] => match Graph.build o.registry block.ops with
    | .ok g => o.runOn block g
    | .error e => { result := .error e, optimizer := o }
  | blocks => { result := .error (.fusion (.multipleBlocks blocks.length)), optimizer := o }

def countFallback (o : Optimizer) : Optimizer :=
  { o with stats := { o.stats with fallbacks := o.stats.fallbacks + 1 } }

/-- Optimizes a program, or gives it back as it is where fusion fails and the settings allow it. -/
def optimizeOrFallback (o : Optimizer) (p : Program) : Run :=
  let run := o.optimize p
  match run.result with
  | .error (.fusion cause) =>
      if o.config.fallsBack then {
        result := .ok { program := p, fellBack := true }
        optimizer := run.optimizer.countFallback
        events := run.events ++ [.fellBack cause] }
      else run
  | _ => run

def clearStats (o : Optimizer) : Optimizer := { o with stats := {} }

end Optimizer

/-- Optimizes a program with an optimizer that is used only once. -/
def Program.optimized (p : Program) (registry : Option Registry) (catalog : Option Catalog)
    (config : Option Config) : Except Error Program := do
  return (← ((← Optimizer.make registry catalog config).optimize p).result).program

end TensorFusion
