/-! Places that bytes are written to. A sink of bounded capacity takes what fits and
refuses the rest. -/
namespace OnePass

structure Sink where
  capacity : Option Nat
  written : List UInt8 := []
  deriving DecidableEq, Repr

inductive SinkFull where
  | full
  deriving DecidableEq, Repr

def SinkFull.message : SinkFull → String
  | full => "failed to write whole buffer"

/-- The bytes of a text in UTF-8. -/
def textBytes (text : String) : List UInt8 := text.toUTF8.data.toList

namespace Sink

def unbounded : Sink := ⟨none, []⟩

def bounded (capacity : Nat) : Sink := ⟨some capacity, []⟩

/-- How many of `count` more bytes the sink takes. -/
def room (sink : Sink) (count : Nat) : Nat :=
  match sink.capacity with
  | none => count
  | some capacity => min count (capacity - sink.written.length)

/-- Writes bytes as far as they fit, and fails if some are left over. -/
def write (sink : Sink) (bytes : List UInt8) : Except SinkFull Unit × Sink :=
  let taken := sink.room bytes.length
  let after := { sink with written := sink.written ++ bytes.take taken }
  if taken < bytes.length then (.error .full, after) else (.ok (), after)

/-- Writes runs of bytes one after the other, up to the first that does not fit. -/
def writeAll (sink : Sink) : List (List UInt8) → Except SinkFull Unit × Sink
  | [] => (.ok (), sink)
  | bytes :: rest =>
    match sink.write bytes with
    | (.ok (), after) => after.writeAll rest
    | (.error refused, after) => (.error refused, after)

end Sink

end OnePass
