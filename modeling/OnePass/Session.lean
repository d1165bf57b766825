import OnePass.Compilation.Run

/-! Sessions: one compile after the other under the same options. Labels start again with
each compile, or go on from where the last one stopped, whether it succeeded or not. -/
namespace OnePass

inductive Numbering where
  | perCompile
  | continuous
  deriving DecidableEq, Repr, Inhabited

structure Options where
  /-- The text in front of each label's number. -/
  stem : String := ""
  numbering : Numbering := .perCompile
  halting : Bool := true
  deriving DecidableEq, Repr, Inhabited

structure Compiled where
  code : Listing
  symbols : SymbolTable
  deriving DecidableEq, Repr

structure Attempt where
  outcome : Except Diagnostic Compiled
  events : List Event

structure Session where
  options : Options := {}
  /-- The first number that continuous labels have not used. -/
  nextLabel : Nat := 0
  deriving DecidableEq, Repr, Inhabited

namespace Session

def firstLabel (session : Session) : Nat :=
  match session.options.numbering with
  | .perCompile => 0
  | .continuous => session.nextLabel

/-- The session after a compile that left `next` as the first unused number. -/
def used (session : Session) (next : Nat) : Session :=
  match session.options.numbering with
  | .perCompile => session
  | .continuous => { session with nextLabel := next }

def compile (session : Session) (source : Source) : Attempt × Session :=
  let first := session.firstLabel
  match Compilation.start source ⟨session.options.stem, first⟩ with
  | .error fault => (⟨.error fault, []⟩, session.used first)
  | .ok initial =>
    match Compilation.program session.options.halting initial with
    | .error fault final => (⟨.error fault, final.events.toList⟩, session.used final.labels.next)
    | .ok _ final =>
      let finished :=
        Event.finished final.code.size final.symbols.size (final.labels.next - first)
      (⟨.ok ⟨final.code, final.symbols⟩, final.events.toList ++ [finished]⟩,
        session.used final.labels.next)

end Session

/-- The code of a program text under the usual options. -/
def compile (text : String) : Except Diagnostic Listing :=
  (({} : Session).compile (.ofText text)).1.outcome.map (·.code)

end OnePass
