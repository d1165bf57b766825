import OnePass.Code.Listing
import OnePass.Log
import OnePass.Source.Basic
import OnePass.SymbolTable

/-! The state of a compilation and its elementary steps. A compilation sees one token
ahead. A step that fails leaves behind what it did before the fault. -/
namespace OnePass.Compilation

/-- How deep instructions, expressions and operands of `!` may lie in one another. -/
def maxNesting : Nat := 64

/-- What is left to read, and what has come of the part that was read. -/
structure State where
  source : Source
  lookahead : Located
  symbols : SymbolTable := .empty
  code : Listing := .empty
  labels : LabelSupply := {}
  /-- The number of levels that are open. -/
  depth : Nat := 0
  events : Array Event := #[]
  deriving DecidableEq, Repr

namespace State

def line (s : State) : Nat :=
  if s.lookahead.token = .finish then s.source.line else s.lookahead.place.line

def remaining (s : State) : Nat := s.lookahead.weight + s.source.remaining

end State

end Compilation

abbrev Compilation := EStateM Diagnostic Compilation.State

namespace Compilation

def unexpected {α : Type} (expected : String) : Compilation α := do
  let s ← get
  throw (.unexpected s.line expected s.lookahead.token.description)

/-- Reads one token ahead. If that fails the lookahead stays. -/
def advance : Compilation Unit := fun s =>
  match s.source.next with
  | (.ok token, after) => .ok () { s with source := after, lookahead := token }
  | (.error fault, after) => .error fault { s with source := after }

def expect (kind : Kind) : Compilation Unit := do
  if (← get).lookahead.kind = kind then advance else unexpected kind.description

def emit (instruction : Instruction) : Compilation Unit :=
  modify fun s => { s with code := s.code.push instruction }

def fresh : Compilation Label := modifyGet fun s =>
  let (label, labels) := s.labels.fresh
  (label, { s with labels, events := s.events.push (.allocated label) })

def enter : Compilation Unit := do
  let s ← get
  if s.depth < maxNesting then set { s with depth := s.depth + 1 }
  else throw (.tooDeep s.line maxNesting)

def leave : Compilation Unit := modify fun s => { s with depth := s.depth - 1 }

def declare (name : String) (type : DataType) (line : Nat) : Compilation Unit := do
  let s ← get
  match s.symbols.declare name type with
  | .ok symbols => set { s with symbols, events := s.events.push (.declared name type line) }
  | .error refused => throw (.redeclared line refused.name)

def pushName (name : String) (line : Nat) : Compilation Unit := do
  match (← get).symbols.lookup name with
  | some _ => emit (.push (.name name))
  | none => throw (.undeclared line name)

def start (source : Source) (labels : LabelSupply) : Except Diagnostic State :=
  match source.next with
  | (.ok token, after) => .ok { source := after, lookahead := token, labels }
  | (.error fault, _) => .error fault

end Compilation

end OnePass
