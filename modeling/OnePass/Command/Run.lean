import OnePass.Command.Arguments
import OnePass.Command.Console

/-! Runs of the command. Inputs are compiled in order in one session, up to the first that
cannot be read or compiled; what was written for the inputs before it stays. -/
namespace OnePass.Command

inductive Failure where
  | manyInputs
  | unreadable (input : String) (fault : FileFault)
  | rejected (input : String) (fault : Diagnostic)
  | uncreatable (output : String) (fault : FileFault)
  deriving DecidableEq, Repr

def Failure.message : Failure → String
  | manyInputs => "--output can only be used with a single input file"
  | unreadable input fault => "failed to read '" ++ input ++ "': " ++ fault.message
  | rejected input fault => "failed to compile '" ++ input ++ "': " ++ fault.message
  | uncreatable output fault => "failed to create '" ++ output ++ "': " ++ fault.message

inductive Ending where
  | success
  | failed
  | misused
  deriving DecidableEq, Repr

def Ending.code : Ending → UInt32
  | success => 0
  | failed => 1
  | misused => 2

def helpText : String := String.join (
  ["Compile programs into stack machine instructions",
   "",
   "Arguments: [OPTIONS] <INPUTS>...",
   "",
   "  -o, --output <FILE>          write to a file, for one input only",
   "      --symbols                show the declared names of each program",
   "      --label-prefix <TEXT>    text in front of every label number",
   "      --continuous-labels      keep numbering labels across all inputs",
   "      --no-halt                do not end programs with halt",
   "  -v, --verbose                tell more, up to three times",
   "  -h, --help                   show this text"].map (· ++ "\n"))

section
variable {m : Type → Type} [Monad m] [Console m]

def tell (invocation : Invocation) (event : Event) : m Unit :=
  if event.isShown invocation.verbosity then Console.log event.text else pure ()

def deliver (invocation : Invocation) (code : Listing) : m (Except Failure Unit) := do
  match invocation.output with
  | none =>
    Console.print code.text
    return .ok ()
  | some output =>
    match ← Console.writeText output code.text with
    | .error fault => return .error (.uncreatable output fault)
    | .ok () =>
      tell invocation (.wrote output)
      return .ok ()

/-- Compiles one input, and gives the session for the next. -/
def compileInput (invocation : Invocation) (session : Session) (input : String) :
    m (Except Failure Session) := do
  match ← Console.readText input with
  | .error fault => return .error (.unreadable input fault)
  | .ok text =>
    let (attempt, after) := session.compile (.ofText text)
    attempt.events.forM (tell invocation)
    match attempt.outcome with
    | .error fault => return .error (.rejected input fault)
    | .ok compiled =>
      tell invocation (.compiled input compiled.code.size)
      if invocation.showSymbols then Console.remark compiled.symbols.text
      return (← deliver invocation compiled.code).map fun _ => after

def compileInputs (invocation : Invocation) (session : Session) :
    List String → m (Except Failure Unit)
  | [] => return .ok ()
  | input :: rest => do
    match ← compileInput invocation session input with
    | .error failure => return .error failure
    | .ok after => compileInputs invocation after rest

def perform (invocation : Invocation) : m (Except Failure Unit) :=
  if invocation.output.isSome ∧ 1 < invocation.inputs.length then return .error .manyInputs
  else compileInputs invocation { options := invocation.options } invocation.inputs

/-- Does what is asked for and says why it failed. -/
def Invocation.run (invocation : Invocation) : m Ending := do
  match ← perform invocation with
  | .ok () => return .success
  | .error failure =>
    Console.remark (failure.message ++ "\n")
    return .failed

def run (arguments : List String) : m Ending := do
  match Request.ofArguments arguments with
  | .error fault =>
    Console.remark ("error: " ++ fault.message ++ "\n")
    return .misused
  | .ok .help =>
    Console.print helpText
    return .success
  | .ok (.compile invocation) => invocation.run

end

end OnePass.Command
