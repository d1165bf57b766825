import OnePass.Command.Run

/-! The command on the machine that it is started on. -/
namespace OnePass

/-- The cause of a refused access to a file. Codes are given with either sign. -/
def FileFault.ofError : IO.Error → FileFault
  | .noFileOrDirectory .. => .missing
  | .inappropriateType _ code details =>
    if code = 20 ∨ -code = 20 then .notDirectory
    else if code = 21 ∨ -code = 21 then .isDirectory
    else .other details
  | .permissionDenied .. => .other "Permission denied (os error 13)"
  | error => .other (toString error)

instance : Command.Console IO where
  readText path := do
    try
      let content ← IO.FS.readBinFile path
      match String.fromUTF8? content with
      | some text => return .ok text
      | none => return .error .notText
    catch error => return .error (.ofError error)
  writeText path text := do
    try
      IO.FS.writeFile path text
      return .ok ()
    catch error => return .error (.ofError error)
  print text := IO.print text
  remark text := IO.eprint text
  log line := IO.eprintln line

end OnePass

def main (arguments : List String) : IO UInt32 := do
  let ending ← OnePass.Command.run arguments
  return ending.code
