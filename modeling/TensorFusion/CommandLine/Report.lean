import TensorFusion.CommandLine.Arguments
import TensorFusion.CommandLine.Files
import TensorFusion.Json.Reader
import TensorFusion.Json.Writer
import TensorFusion.Optimizer

/-!
# CommandLine — Report

The command as a function: from a request and the files of a file system to what is printed, what is
written and the exit code.
-/

namespace TensorFusion.CommandLine

/-- What a command comes to: what is printed, the file that is written after that, and the exit code
or the error that ends the run. -/
structure Report where
  stdout : String := ""
  stderr : String := ""
  written : Option (String × String) := none
  result : Except Error Nat

def rule : String := String.ofList (List.replicate 60 '=') ++ "\n"

/-- A text with blanks behind it up to a width. -/
def padRight (width : Nat) (s : String) : String :=
  s ++ String.ofList (List.replicate (width - s.length) ' ')

def countLine (entry : Atom × Nat) : String :=
  "  " ++ padRight 28 entry.1.plain ++ " x" ++ toString entry.2 ++ "\n"

def opCount (p : Program) : Nat :=
  p.blocks.foldl (fun count block => count + block.ops.length) 0

def summary (before after : Nat) (stats : Stats) : String :=
  rule ++ s!"Ops: {before} -> {after} (removed {stats.removedOps})\n"
    ++ String.join (stats.fused.entries.map countLine) ++ rule

/-- The events that are shown, one to a line. -/
def logText (debug : Bool) (events : List Event) : String :=
  let records := events.map Event.record
  let shown := records.filter fun r => debug || r.level ≠ .debug
  String.join (shown.map fun r => r.line ++ "\n")

def Request.config (r : Request) : Config :=
  { debugMode := .value (.bool r.debug), disabled := .series (r.disabled.map Value.text) }

def Request.written (r : Request) (p : Program) : Option (String × String) :=
  match r.output with
  | none => none
  | some "" => none
  | some path => some (path, Json.write p.toValue)

def reportRun (r : Request) (p : Program) (run : Run) : Report :=
  let log := logText r.debug run.events
  match run.result with
  | .error (.fusion cause) =>
      { stderr := log ++ "[Fusion][Error] " ++ cause.message ++ "\n", result := .ok 1 }
  | .error e => { stderr := log, result := .error e }
  | .ok outcome => {
      stdout := summary (opCount p) (opCount outcome.program) run.optimizer.stats
      stderr := log
      written := r.written outcome.program
      result := .ok 0 }

/-- Carries out a request on the text of the program file. -/
def report (r : Request) (text : String) : Report :=
  match (do
    let p ← Program.ofValue (← Json.read text)
    return (p, ← Optimizer.make none none (some r.config))) with
  | .error e => { result := .error e }
  | .ok (p, o) => reportRun r p (o.optimize p)

def writtenLine (path : String) : String := "Optimized program written to " ++ path ++ "\n"

/-- Carries out a request on files: the report, and the files afterwards. -/
def run {σ : Type} (fs : FileSystem σ) (files : σ) (r : Request) : Report × σ :=
  match fs.read files r.program with
  | .error e => ({ result := .error e }, files)
  | .ok text =>
      let done := report r text
      match done.written with
      | none => (done, files)
      | some (path, text) => match fs.write files path text with
        | .ok files => ({ done with stdout := done.stdout ++ writtenLine path }, files)
        | .error e => ({ done with result := .error e }, files)

end TensorFusion.CommandLine
