import OnePass.Session

/-! The arguments of the command. Options and input paths may be mixed; an option has one
long name, and some have a letter that can be joined with others. Every option but the one
for verbosity can be given once. -/
namespace OnePass.Command

structure Invocation where
  inputs : List String
  output : Option String := none
  showSymbols : Bool := false
  options : Options := {}
  verbosity : Nat := 0
  deriving DecidableEq, Repr

inductive Request where
  | help
  | compile (invocation : Invocation)
  deriving DecidableEq, Repr

inductive UsageFault where
  | unknown (argument : String)
  /-- A value for an option that takes none. -/
  | needlessValue (option : String)
  | missingValue (option : String)
  | repeated (option : String)
  | emptyPath
  | noInput
  deriving DecidableEq, Repr

def UsageFault.message : UsageFault → String
  | unknown argument => "unexpected argument '" ++ argument ++ "'"
  | needlessValue option => "'" ++ option ++ "' takes no value"
  | missingValue option => "'" ++ option ++ "' needs a value"
  | repeated option => "'" ++ option ++ "' is given more than once"
  | emptyPath => "a path is empty"
  | noInput => "no input is given"

inductive Switch where
  | output | labelStem | symbols | continuousLabels | noHalt | verbose | help
  deriving DecidableEq, Repr

namespace Switch

def name : Switch → String
  | output => "output"
  | labelStem => "label-prefix"
  | symbols => "symbols"
  | continuousLabels => "continuous-labels"
  | noHalt => "no-halt"
  | verbose => "verbose"
  | help => "help"

def letter? : Switch → Option Char
  | output => some 'o'
  | verbose => some 'v'
  | help => some 'h'
  | _ => none

def takesValue : Switch → Bool
  | output => true
  | labelStem => true
  | _ => false

def all : List Switch := [output, labelStem, symbols, continuousLabels, noHalt, verbose, help]

def ofName? (name : String) : Option Switch := all.find? (·.name = name)

def ofLetter? (c : Char) : Option Switch := all.find? (·.letter? = some c)

end Switch

structure Draft where
  inputs : List String := []
  output : Option String := none
  stem : Option String := none
  symbols : Bool := false
  continuousLabels : Bool := false
  noHalt : Bool := false
  verbosity : Nat := 0
  deriving DecidableEq, Repr

namespace Draft

def addInput (draft : Draft) (path : String) : Except UsageFault Draft :=
  if path = "" then .error .emptyPath else .ok { draft with inputs := draft.inputs ++ [path] }

def setValue (draft : Draft) (switch : Switch) (value : String) : Except UsageFault Draft :=
  match switch with
  | .output =>
    if value = "" then .error .emptyPath
    else if draft.output.isSome then .error (.repeated switch.name)
    else .ok { draft with output := some value }
  | .labelStem =>
    if draft.stem.isSome then .error (.repeated switch.name)
    else .ok { draft with stem := some value }
  | _ => .error (.needlessValue switch.name)

def setFlag (draft : Draft) (switch : Switch) : Except UsageFault Draft :=
  match switch with
  | .symbols =>
    if draft.symbols then .error (.repeated switch.name) else .ok { draft with symbols := true }
  | .continuousLabels =>
    if draft.continuousLabels then .error (.repeated switch.name)
    else .ok { draft with continuousLabels := true }
  | .noHalt =>
    if draft.noHalt then .error (.repeated switch.name) else .ok { draft with noHalt := true }
  | .verbose => .ok { draft with verbosity := draft.verbosity + 1 }
  | .help => .ok draft
  | _ => .error (.missingValue switch.name)

def finish (draft : Draft) : Except UsageFault Request :=
  if draft.inputs.isEmpty then .error .noInput
  else .ok (.compile {
    inputs := draft.inputs
    output := draft.output
    showSymbols := draft.symbols
    verbosity := draft.verbosity
    options := {
      stem := draft.stem.getD ""
      numbering := if draft.continuousLabels then .continuous else .perCompile
      halting := !draft.noHalt } })

end Draft

inductive Reading where
  | done (draft : Draft)
  /-- The next argument is the value of an option. -/
  | awaits (draft : Draft) (switch : Switch)
  | help

/-- Reads joined letters. The first that takes a value takes the rest as its value, with or
without an equality sign in front of it. -/
def readLetters (draft : Draft) : List Char → Except UsageFault Reading
  | [] => .ok (.done draft)
  | c :: rest =>
    match Switch.ofLetter? c with
    | none => .error (.unknown c.toString)
    | some .help => .ok .help
    | some switch =>
      if switch.takesValue then
        match rest with
        | [] => .ok (.awaits draft switch)
        | '=' :: value => (draft.setValue switch (String.ofList value)).map .done
        | value => (draft.setValue switch (String.ofList value)).map .done
      else
        match draft.setFlag switch with
        | .error fault => .error fault
        | .ok after => readLetters after rest

/-- Reads a long name, with a value behind the first equality sign if there is one. -/
def readName (draft : Draft) (text : List Char) : Except UsageFault Reading :=
  let name := text.takeWhile (· ≠ '=')
  match Switch.ofName? (String.ofList name), text.drop name.length with
  | none, _ => .error (.unknown (String.ofList text))
  | some .help, [] => .ok .help
  | some switch, [] =>
    if switch.takesValue then .ok (.awaits draft switch) else (draft.setFlag switch).map .done
  | some switch, _ :: value => (draft.setValue switch (String.ofList value)).map .done

/-- Reads one argument. A lone hyphen is a path. -/
def readArgument (draft : Draft) (argument : String) : Except UsageFault Reading :=
  match argument.toList with
  | '-' :: '-' :: text => readName draft text
  | '-' :: c :: rest => readLetters draft (c :: rest)
  | _ => (draft.addInput argument).map .done

/-- Whether an argument that could be a value is an option instead. -/
def looksLikeOption (argument : String) : Bool :=
  match argument.toList with
  | '-' :: _ :: _ => true
  | _ => false

/-- Reads arguments one after the other. Behind `--` all of them are paths. -/
def readArguments (draft : Draft) : List String → Except UsageFault Request
  | [] => draft.finish
  | "--" :: paths =>
    match paths.foldlM Draft.addInput draft with
    | .error fault => .error fault
    | .ok after => after.finish
  | argument :: rest =>
    match readArgument draft argument with
    | .error fault => .error fault
    | .ok .help => .ok .help
    | .ok (.done after) => readArguments after rest
    | .ok (.awaits after switch) =>
      match rest with
      | [] => .error (.missingValue switch.name)
      | value :: rest =>
        if looksLikeOption value then .error (.missingValue switch.name)
        else
          match after.setValue switch value with
          | .error fault => .error fault
          | .ok after => readArguments after rest

def Request.ofArguments (arguments : List String) : Except UsageFault Request :=
  readArguments {} arguments

end OnePass.Command
