/-
Files: what a program of this library asks of a file system, and a file system that is a value.

`FileSystem` lists the four questions and commands in which documents, configurations and
generated files reach the world. `Disk` answers them from a list of files. It knows paths the way
a Unix system does: every component but the last has to be a directory, and a directory may be
left again by two periods.
-/
import HybridMarkup.Path

set_option autoImplicit false

namespace HybridMarkup

/-- Why a file operation failed. -/
inductive FileFault where
  | notFound
  | exists
  | notDirectory
  | isDirectory
  /-- Any other reason, in the words of the system. -/
  | other (message : String)
deriving DecidableEq, Repr, Inhabited

namespace FileFault

/-- The reason in words. -/
def message : FileFault → String
  | notFound => "No such file or directory (os error 2)"
  | .exists => "File exists (os error 17)"
  | notDirectory => "Not a directory (os error 20)"
  | isDirectory => "Is a directory (os error 21)"
  | other message => message

end FileFault

/-- A file system that commands of the monad can use. -/
class FileSystem (m : Type → Type) where
  readFile : Path → m (Except FileFault Text)
  pathExists : Path → m Bool
  /-- Creates a directory with all that are missing above it. -/
  createDirectories : Path → m (Except FileFault Unit)
  writeFile : Path → Text → m (Except FileFault Unit)

/-- What there is under a name. -/
inductive DiskEntry where
  | file (text : Text)
  | directory
deriving DecidableEq, Repr

/-- Files and directories by their names from the root on. A directory exists if it is listed or
if anything below it is; so does the working directory. -/
structure Disk where
  workingDirectory : List Text := []
  entries : List (List Text × DiskEntry) := []
deriving DecidableEq, Repr, Inhabited

namespace Disk

/-- What there is under the names. -/
def get? (d : Disk) (names : List Text) : Option DiskEntry :=
  match d.entries.lookup names with
  | some entry => some entry
  | none =>
    if names.isPrefixOf d.workingDirectory || d.entries.any fun (other, _) => names.isPrefixOf other
    then some .directory
    else none

/-- Goes from a directory along the parts of a path. -/
def walk (d : Disk) : List Text → List Text → Except FileFault (List Text)
  | names, [] => .ok names
  | names, part :: parts =>
    match d.get? names with
    | none => .error .notFound
    | some (.file _) => .error .notDirectory
    | some .directory =>
      match Component.ofPart? part with
      | none => d.walk names parts
      | some .parent => d.walk names.dropLast parts
      | some _ => d.walk (names ++ [part]) parts

/-- Where a path leads, whether or not there is something. -/
def resolve (d : Disk) (p : Path) : Except FileFault (List Text) :=
  if p.spelling = [] then .error .notFound
  else d.walk (if p.isAbsolute then [] else d.workingDirectory) p.parts

/-- What there is at a path. -/
def lookup (d : Disk) (p : Path) : Except FileFault DiskEntry :=
  match d.resolve p with
  | .error fault => .error fault
  | .ok names =>
    match d.get? names with
    | some entry => .ok entry
    | none => .error .notFound

/-- The text of the file at a path. -/
def read (d : Disk) (p : Path) : Except FileFault Text :=
  match d.lookup p with
  | .ok (.file text) => .ok text
  | .ok .directory => .error .isDirectory
  | .error fault => .error fault

/-- The text of the file at a path, if there is one. -/
def read? (d : Disk) (p : Path) : Option Text := (d.read p).toOption

/-- Whether there is anything at a path. -/
def hasPath (d : Disk) (p : Path) : Bool := (d.lookup p).toBool

/-- Whether there is a directory at a path. -/
def isDirectory (d : Disk) (p : Path) : Bool :=
  match d.lookup p with
  | .ok .directory => true
  | _ => false

/-- The disk with an entry put under the names. -/
def put (d : Disk) (names : List Text) (entry : DiskEntry) : Disk :=
  { d with entries := (names, entry) :: d.entries.filter fun (other, _) => other != names }

/-- Stores a text at a path. -/
def write (d : Disk) (p : Path) (text : Text) : Except FileFault Disk :=
  match d.resolve p with
  | .error fault => .error fault
  | .ok names =>
    match d.get? names, d.get? names.dropLast with
    | some .directory, _ => .error .isDirectory
    | some (.file _), _ => .ok (d.put names (.file text))
    | none, some .directory => .ok (d.put names (.file text))
    | none, some (.file _) => .error .notDirectory
    | none, none => .error .notFound

/-- Creates one directory. Slashes and periods at the end of the path do not count. -/
def createDirectory (d : Disk) (p : Path) : Except FileFault Disk :=
  let names := d.walk (if p.isAbsolute then [] else d.workingDirectory) (Path.trimParts p.parts)
  match if p.spelling = [] then .error .notFound else names with
  | .error fault => .error fault
  | .ok names =>
    match d.get? names, d.get? names.dropLast with
    | some _, _ => .error .exists
    | none, some .directory => .ok (d.put names .directory)
    | none, some (.file _) => .error .notDirectory
    | none, none => .error .notFound

/-- Creates the last of the given directories, and those behind it in the list as far as they are
needed. Each stands in the one that follows it. -/
def createChain (d : Disk) : List Path → Except FileFault Disk
  | [] => .ok d
  | p :: above =>
    if p.spelling = [] then .ok d
    else
      match d.createDirectory p with
      | .ok d => .ok d
      | .error .notFound =>
        match d.createChain above with
        | .error fault => .error fault
        | .ok d =>
          -- the second try can still find that the name is taken
          match d.createDirectory p with
          | .ok d => .ok d
          | .error fault => if d.isDirectory p then .ok d else .error fault
      | .error fault => if d.isDirectory p then .ok d else .error fault

/-- Creates a directory with all that are missing above it. -/
def createDirectories (d : Disk) (p : Path) : Except FileFault Disk := d.createChain p.ancestors

/-- Runs a command that may fail, and keeps the disk as it was if it does. -/
def attempt (command : Disk → Except FileFault Disk) : StateM Disk (Except FileFault Unit) :=
  fun d =>
    match command d with
    | .ok d => (.ok (), d)
    | .error fault => (.error fault, d)

instance : FileSystem (StateM Disk) where
  readFile p d := (d.read p, d)
  pathExists p d := (d.hasPath p, d)
  createDirectories p := attempt fun d => d.createDirectories p
  writeFile p text := attempt fun d => d.write p text

/-- The files that `after` has and `before` has not, or has with another text. -/
def written (before after : Disk) : List (List Text × Text) :=
  after.entries.filterMap fun (names, entry) =>
    match entry with
    | .file text =>
      if before.entries.lookup names = some (.file text) then none else some (names, text)
    | .directory => none

end Disk

end HybridMarkup
