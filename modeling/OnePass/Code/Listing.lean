import OnePass.Code.Instruction
import OnePass.Code.Sink

/-! Listings: code that grows at its end, and its text of one instruction per line. -/
namespace OnePass

structure Listing where
  instructions : Array Instruction := #[]
  deriving DecidableEq, Repr, Inhabited

namespace Listing

def empty : Listing := {}

def toList (code : Listing) : List Instruction := code.instructions.toList

def push (code : Listing) (instruction : Instruction) : Listing :=
  ⟨code.instructions.push instruction⟩

def size (code : Listing) : Nat := code.instructions.size

def isEmpty (code : Listing) : Bool := code.instructions.isEmpty

def lines (code : Listing) : List String := code.toList.map Instruction.text

/-- What is written for the code: the pieces of each instruction and the newline that ends it. -/
def pieces (code : Listing) : List String :=
  code.toList.flatMap fun instruction => instruction.pieces ++ ["\n"]

/-- The whole text, in which a newline ends each instruction. -/
def text (code : Listing) : String := String.join code.pieces

/-- Writes piece by piece, up to the first that does not fit. -/
def writeTo (code : Listing) (sink : Sink) : Except SinkFull Unit × Sink :=
  sink.writeAll (code.pieces.map textBytes)

@[simp] theorem toList_empty : empty.toList = [] := rfl

@[simp] theorem toList_push (code : Listing) (instruction : Instruction) :
    (code.push instruction).toList = code.toList ++ [instruction] := by
  simp [push, toList]

end Listing

end OnePass
