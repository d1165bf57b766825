/-! Files by their paths. Paths are resolved name by name from the working directory, and
only the last name may be absent. -/
namespace OnePass

inductive FileFault where
  | missing
  | notDirectory
  | isDirectory
  /-- The bytes of the file are no text. -/
  | notText
  | other (message : String)
  deriving DecidableEq, Repr

def FileFault.message : FileFault → String
  | missing => "No such file or directory (os error 2)"
  | notDirectory => "Not a directory (os error 20)"
  | isDirectory => "Is a directory (os error 21)"
  | notText => "stream did not contain valid UTF-8"
  | other message => message

structure Path where
  isAbsolute : Bool
  names : List String
  trailing : Bool
  deriving DecidableEq, Repr

def Path.ofString (text : String) : Path where
  isAbsolute := text.toList.head? = some '/'
  names := (text.splitOn "/").filter (· ≠ "")
  trailing := text.toList.getLast? = some '/'

inductive Node where
  | file (content : ByteArray)
  | directory

/-- The files and directories that are known, under the names from the working directory.
Directories above it have the name `..`, and the root of absolute paths the name `/`. -/
structure Disk where
  nodes : List (List String × Node) := []

inductive Destination where
  | directory
  | file (place : List String) (content : ByteArray)
  /-- A name in a directory that does not hold it. -/
  | vacant (place : List String)

namespace Disk

/-- The directories that are there without having been made. -/
def isGiven (place : List String) : Bool := place = ["/"] || place.all (· = "..")

def node? (disk : Disk) (place : List String) : Option Node :=
  if isGiven place then some .directory
  else (disk.nodes.find? (·.1 = place)).map (·.2)

def parent (place : List String) : List String :=
  if place = ["/"] then place
  else if place.all (· = "..") then place ++ [".."]
  else place.dropLast

def follow (disk : Disk) (place : List String) : List String → Except FileFault Destination
  | [] => .ok .directory
  | "." :: rest => follow disk place rest
  | ".." :: rest => follow disk (parent place) rest
  | name :: rest =>
    match disk.node? (place ++ [name]) with
    | some .directory => follow disk (place ++ [name]) rest
    | some (.file content) =>
      if rest.isEmpty then .ok (.file (place ++ [name]) content) else .error .notDirectory
    | none => if rest.isEmpty then .ok (.vacant (place ++ [name])) else .error .missing

def resolve (disk : Disk) (path : Path) : Except FileFault Destination :=
  disk.follow (if path.isAbsolute then ["/"] else []) path.names

def read (disk : Disk) (path : String) : Except FileFault ByteArray :=
  let parsed := Path.ofString path
  match disk.resolve parsed with
  | .error fault => .error fault
  | .ok .directory => .error .isDirectory
  | .ok (.vacant _) => .error .missing
  | .ok (.file _ content) => if parsed.trailing then .error .notDirectory else .ok content

def readText (disk : Disk) (path : String) : Except FileFault String :=
  match disk.read path with
  | .error fault => .error fault
  | .ok content =>
    match String.fromUTF8? content with
    | some text => .ok text
    | none => .error .notText

/-- Puts a node at a place, in the stead of one that is there. -/
def put (disk : Disk) (place : List String) (node : Node) : Disk :=
  ⟨(place, node) :: disk.nodes.filter (·.1 ≠ place)⟩

/-- Creates or replaces the file at a path. -/
def write (disk : Disk) (path : String) (content : ByteArray) : Except FileFault Disk :=
  let parsed := Path.ofString path
  match disk.resolve parsed with
  | .error fault => .error fault
  | .ok .directory => .error .isDirectory
  | .ok (.vacant place) =>
    if parsed.trailing then .error .isDirectory else .ok (disk.put place (.file content))
  | .ok (.file place _) =>
    if parsed.trailing then .error .isDirectory else .ok (disk.put place (.file content))

end Disk

end OnePass
