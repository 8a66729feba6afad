import TensorFusion.CommandLine.Report

/-!
# Main

The command itself: reads the file that is asked for, prints the report and writes the result.
-/

namespace TensorFusion.CommandLine

def carryOut (r : Request) : IO UInt32 := do
  let done := report r (← IO.FS.readFile r.program)
  IO.print done.stdout
  IO.eprint done.stderr
  match done.written with
  | some (path, text) =>
      IO.FS.writeFile path text
      IO.print (writtenLine path)
  | none => pure ()
  match done.result with
  | .ok code => return code.toUInt32
  | .error e => throw (IO.userError (e.message?.getD "the program could not be read"))

def runCommand (args : List String) : IO UInt32 :=
  match parse args with
  | .request r => carryOut r
  | .help => do
      IO.println "usage: tensorfusion [-h] [--output OUTPUT] [--disable DISABLE] [--debug] program"
      return 0
  | .refused => return 2

end TensorFusion.CommandLine

def main (args : List String) : IO UInt32 := TensorFusion.CommandLine.runCommand args
