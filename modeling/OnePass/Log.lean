import OnePass.Code.Label
import OnePass.DataType

/-! What a run of the program tells about its work, and at which level of detail. -/
namespace OnePass

/-- Levels of detail, each of which includes the ones before. -/
inductive LogLevel where
  | info | debug | trace
  deriving DecidableEq, Repr

namespace LogLevel

def text : LogLevel → String
  | info => "INFO"
  | debug => "DEBUG"
  | trace => "TRACE"

/-- How often more detail has to be asked for until this level is shown. -/
def threshold : LogLevel → Nat
  | info => 1
  | debug => 2
  | trace => 3

end LogLevel

inductive Event where
  | allocated (label : Label)
  | declared (name : String) (type : DataType) (line : Nat)
  /-- The end of a successful compile, with the number of labels it made. -/
  | finished (instructions symbols labels : Nat)
  | compiled (input : String) (instructions : Nat)
  | wrote (output : String)
  deriving DecidableEq, Repr

namespace Event

def level : Event → LogLevel
  | allocated _ => .trace
  | declared .. => .debug
  | finished .. => .debug
  | compiled .. => .info
  | wrote _ => .info

def message : Event → String
  | allocated label => "allocated label label=" ++ label.text
  | declared name type line =>
    "declared identifier name=\"" ++ name ++ "\" data_type=" ++ type.text ++
      " line=" ++ toString line
  | finished instructions symbols labels =>
    "compile finished instructions=" ++ toString instructions ++
      " symbols=" ++ toString symbols ++ " labels=" ++ toString labels
  | compiled input instructions =>
    "compiled successfully input=" ++ input ++ " instructions=" ++ toString instructions
  | wrote output => "wrote instructions output=" ++ output

def text (event : Event) : String := event.level.text ++ " " ++ event.message

def isShown (verbosity : Nat) (event : Event) : Bool := event.level.threshold ≤ verbosity

end Event

end OnePass
