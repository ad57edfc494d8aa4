/-
The command line tool on the file system of the machine.
-/
import HybridMarkup.CommandLine

set_option autoImplicit false

namespace HybridMarkup

/-- The reason for a fault of the machine's file system. -/
def FileFault.ofError : IO.Error → FileFault
  | .noFileOrDirectory .. => .notFound
  | .alreadyExists .. => .exists
  | .inappropriateType _ 20 _ => .notDirectory
  | .inappropriateType _ 21 _ => .isDirectory
  | error => .other (toString error)

/-- A path as the machine's file system takes it. -/
def Path.toString (p : Path) : String := String.ofList p.spelling

/-- Runs a command of the machine's file system, with its fault as a value. -/
def FileFault.attempt {α : Type} (command : IO α) : IO (Except FileFault α) := do
  try return .ok (← command)
  catch error => return .error (.ofError error)

instance : FileSystem IO where
  readFile p := FileFault.attempt do return (← IO.FS.readFile p.toString).toList
  pathExists p := do
    match ← FileFault.attempt (IO.FS.Handle.mk p.toString .read) with
    | .error .notFound => return false
    | .error .notDirectory => return false
    | _ => return true
  createDirectories p := FileFault.attempt (IO.FS.createDirAll p.toString)
  writeFile p text := FileFault.attempt (IO.FS.writeFile p.toString (String.ofList text))

end HybridMarkup

def main (arguments : List String) : IO UInt32 := do
  let outcome : HybridMarkup.Outcome ← HybridMarkup.run (arguments.map String.toList)
  IO.print (String.ofList outcome.stdout)
  IO.eprint (String.ofList outcome.stderr)
  return outcome.code.toUInt32
