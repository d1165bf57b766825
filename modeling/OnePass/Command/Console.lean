import OnePass.Command.Disk

/-! What the command needs of the machine that it runs on, and a machine that is a value:
a disk and everything that has been said so far. -/
namespace OnePass.Command

/-- Reading and writing files, and saying something on one of three channels. -/
class Console (m : Type → Type) where
  readText : String → m (Except FileFault String)
  writeText : String → String → m (Except FileFault Unit)
  print : String → m Unit
  remark : String → m Unit
  log : String → m Unit

structure Transcript where
  disk : Disk := {}
  printed : String := ""
  remarks : String := ""
  logged : List String := []

instance : Console (StateM Transcript) where
  readText path := return (← get).disk.readText path
  writeText path text := do
    let transcript ← get
    match transcript.disk.write path text.toUTF8 with
    | .ok disk =>
      set { transcript with disk }
      return .ok ()
    | .error fault => return .error fault
  print text := modify fun transcript => { transcript with printed := transcript.printed ++ text }
  remark text := modify fun transcript => { transcript with remarks := transcript.remarks ++ text }
  log line := modify fun transcript => { transcript with logged := transcript.logged ++ [line] }

end OnePass.Command
