import TensorFusion.Text.Digit

/-!
# CommandLine — Arguments

The arguments of the command: the program file, an output file, templates to leave out, and whether
to report every decision. Long options may be shortened as long as they stay unique, and a value may
follow an option in the same word.
-/

namespace TensorFusion.CommandLine

/-- What is asked for. -/
structure Request where
  program : String
  output : Option String := none
  disabled : List String := []
  debug : Bool := false
  deriving DecidableEq

/-- What a list of arguments comes to. -/
inductive Parsed where
  | request (r : Request)
  | help
  | refused
  deriving DecidableEq

/-- An option. -/
inductive Flag where
  | help
  | output
  | disable
  | debug
  deriving DecidableEq

def Flag.takesValue : Flag → Bool
  | .output | .disable => true
  | .help | .debug => false

/-- The spellings of the options. -/
def spellings : List (String × Flag) := [
  ("-h", .help), ("--help", .help), ("--output", .output), ("-o", .output),
  ("--disable", .disable), ("--debug", .debug)]

/-- What one argument is taken for. -/
inductive Item where
  | word (s : String)
  /-- The mark behind which all arguments are words. -/
  | dashes
  /-- An option, with what stands in the same word behind it or behind an equals sign. -/
  | option (flag : Flag) (value : Option String)
  /-- An option of one letter, with what stands in the same word behind the letter or behind an
  equals sign. -/
  | letter (flag : Flag) (tail : String)
  | unknown
  | ambiguous
  deriving DecidableEq

def splitValue (s : String) : String × Option String :=
  let name := s.toList.takeWhile (· ≠ '=')
  match s.toList.dropWhile (· ≠ '=') with
  | _ :: value => (String.ofList name, some (String.ofList value))
  | [] => (s, none)

def isDigit (c : Char) : Bool := (Digit.plain c).isDigit

/-- Whether a word is a negative number, and so no option. A line may end behind it. -/
def isNegativeNumber (s : String) : Bool :=
  match s.toList with
  | '-' :: body =>
      let body := if body.getLast? = some '\n' then body.dropLast else body
      let whole := body.takeWhile isDigit
      match body.dropWhile isDigit with
      | [] => !whole.isEmpty
      | '.' :: places => !places.isEmpty && places.all isDigit
      | _ => false
  | _ => false

/-- What a word may be short for: a long option by its first letters, or an option of one letter
with more behind it. -/
def shortened (s : String) : List Item :=
  if s.startsWith "--" then
    let (name, value) := splitValue s
    (spellings.filter fun spelling => spelling.1.startsWith name).map fun spelling =>
      .option spelling.2 value
  else
    let front := String.ofList (s.toList.take 2)
    (spellings.filter fun spelling => spelling.1 = front).map fun spelling =>
      .letter spelling.2 (String.ofList (s.toList.drop 2))

def classify (s : String) : Item :=
  if s = "--" then .dashes
  else if !s.startsWith "-" then .word s
  else match spellings.lookup s with
    | some flag => .option flag none
    | none =>
        if s = "-" then .word s
        else
          let (name, value) := splitValue s
          match spellings.lookup name, value with
          | some flag, some value =>
              if name.startsWith "--" then .option flag (some value) else .letter flag value
          | _, _ =>
              match shortened s with
              | [item] => item
              | _ :: _ :: _ => .ambiguous
              | [] => if isNegativeNumber s || s.contains ' ' then .word s else .unknown

def classifyAll : List String → List Item
  | [] => []
  | s :: rest =>
      match classify s with
      | .dashes => .dashes :: rest.map .word
      | item => item :: classifyAll rest

/-- The state of a reading: what is asked for so far, and whether anything was left over. -/
structure State where
  program : Option String := none
  output : Option String := none
  disabled : List String := []
  debug : Bool := false
  surplus : Bool := false

namespace State

/-- Sets an option with a value. The dashes that end the options are no value, even within a
word. -/
def set (st : State) (flag : Flag) (value : String) : State :=
  match flag with
  | .output => { st with output := if value = "--" then none else some value }
  | .disable => { st with disabled := if value = "--" then st.disabled else st.disabled ++ [value] }
  | _ => st

def finish (st : State) : Parsed :=
  match st.program, st.surplus with
  | some program, false =>
      .request { program, output := st.output, disabled := st.disabled, debug := st.debug }
  | _, _ => .refused

end State

/-- What the letters behind the option for help come to. They are options as well: the one for help
again, or the one for the output, whose value is the rest of the word or else the next one. -/
def cluster (tail : List Char) (rest : List Item) : Parsed :=
  match tail.dropWhile (· = 'h') with
  | [] => if tail.isEmpty then .refused else .help
  | ['o'] => match rest with
    | .word _ :: _ => .help
    | _ => .refused
  | 'o' :: _ => .help
  | _ => .refused

/-- Goes through the arguments. The first word is the program, with the dashes next to it; all
other words are left over. -/
def consume : List Item → State → Parsed
  | [], st => st.finish
  | .option .help none :: _, _ => .help
  | .option .debug none :: rest, st => consume rest { st with debug := true }
  | .option flag (some value) :: rest, st =>
      if flag.takesValue then consume rest (st.set flag value) else .refused
  | .option flag none :: .word value :: rest, st => consume rest (st.set flag value)
  | .option _ none :: _, _ => .refused
  | .letter .output tail :: rest, st => consume rest (st.set .output tail)
  | .letter _ tail :: rest, _ => cluster tail.toList rest
  | .ambiguous :: _, _ => .refused
  | .unknown :: rest, st => consume rest { st with surplus := true }
  | .word s :: .dashes :: rest, st =>
      if st.program.isNone then consume rest { st with program := some s } else .refused
  | .word s :: rest, st =>
      if st.program.isNone then consume rest { st with program := some s }
      else consume rest { st with surplus := true }
  | .dashes :: .word s :: rest, st =>
      if st.program.isNone then consume rest { st with program := some s } else .refused
  | .dashes :: _, _ => .refused

/-- Reads a list of arguments. A shortened option that is ambiguous is refused wherever it
stands. -/
def parse (args : List String) : Parsed :=
  let items := classifyAll args
  if items.contains .ambiguous then .refused else consume items {}

end TensorFusion.CommandLine
