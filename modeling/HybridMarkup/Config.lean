/-
Configurations: switches for parsing, levels for the lint rules, and dialects for further file
extensions.

A configuration is read from settings with three sections, `parser`, `lint` and `dialects`, each of
which may be left out but not be given twice. Anything else in the settings is refused. The
configuration of a document is the nearest `weft.toml` above it; where there is none, the defaults
hold.
-/
import HybridMarkup.Disk
import HybridMarkup.Parse
import HybridMarkup.Toml

set_option autoImplicit false

namespace HybridMarkup

/-- A configuration. -/
structure Config where
  /-- Whether offsets can be resolved to lines and columns. -/
  location : Bool := true
  /-- Levels by rule name. -/
  lint : List (Text × Text) := []
  /-- Dialect names by file extension. -/
  dialects : List (Text × Text) := []
deriving DecidableEq, Repr, Inhabited

namespace Config

/-! ## Reading settings -/

/-- The sections of the settings. -/
inductive Section where
  | parser
  | lint
  | dialects
deriving DecidableEq, Repr

/-- The section of a name. -/
def Section.ofName? (name : Text) : Option Section :=
  if name = "parser".toList then some .parser
  else if name = "lint".toList then some .lint
  else if name = "dialects".toList then some .dialects
  else none

/-- Settings being read. -/
structure Reading where
  config : Config := {}
  hasLocation : Bool := false
  /-- The section that entries belong to, once a header has opened one. -/
  current : Option Section := none
  /-- The sections that a header or an inline table has given. -/
  given : List Section := []
  /-- The sections to which dotted keys have added. -/
  extended : List Section := []
deriving Repr

namespace Reading

/-- An entry in a list in which no key may occur twice. -/
def addPair? (entries : List (Text × Text)) (key : Text) :
    Toml.Value → Option (List (Text × Text))
  | .text value =>
    if (entries.lookup key).isSome then none else some (entries ++ [(key, value)])
  | _ => none

/-- Takes in an entry of a section. -/
def set? (r : Reading) (s : Section) (key : Text) (value : Toml.Value) : Option Reading :=
  match s with
  | .parser =>
    match value with
    | .boolean location =>
      -- the switch may be given only once
      if key = "location".toList ∧ r.hasLocation = false then
        some { r with hasLocation := true, config := { r.config with location } }
      else none
    | _ => none
  | .lint =>
    (addPair? r.config.lint key value).map fun lint =>
      { r with config := { r.config with lint } }
  | .dialects =>
    (addPair? r.config.dialects key value).map fun dialects =>
      { r with config := { r.config with dialects } }

/-- Takes in the entries of an inline table. -/
def setAll? (r : Reading) (s : Section) : List (List Text × Toml.Value) → Option Reading
  | [] => some r
  | ([key], value) :: entries => (r.set? s key value).bind (·.setAll? s entries)
  | _ => none

/-- The name under which a moment holds its text where a table is called for. -/
def momentName : Text := "$__toml_private_datetime".toList

/-- Takes in a section given as one value. The switches for parsing may also be listed without
their names; what is listed beyond them is of no account. A moment is a table of its text. -/
def setSection? (r : Reading) (s : Section) : Toml.Value → Option Reading
  | .table entries => r.setAll? s entries
  | .list values =>
    match s, values with
    | .parser, [] => some r
    | .parser, value :: _ => r.set? .parser "location".toList value
    | _, _ => none
  | .moment moment => r.set? s momentName (.text moment.text)
  | _ => none

/-- Whether a section may still be given. -/
def isFree (r : Reading) (s : Section) : Bool := !r.given.contains s && !r.extended.contains s

/-- Takes in a statement. -/
def step? (r : Reading) : Toml.Statement → Option Reading
  | .header [name] =>
    (Section.ofName? name).bind fun s =>
      if r.isFree s then some { r with current := some s, given := s :: r.given } else none
  | .header _ => none
  | .listHeader _ => none
  | .entry path value =>
    match r.current, path with
    | some s, [key] => r.set? s key value
    | none, [name] =>
      (Section.ofName? name).bind fun s =>
        if r.isFree s then { r with given := s :: r.given }.setSection? s value else none
    | none, [name, key] =>
      (Section.ofName? name).bind fun s =>
        if r.given.contains s then none
        else { r with extended := s :: r.extended }.set? s key value
    | _, _ => none

end Reading

/-- Reads settings. -/
def ofToml? (text : Text) : Option Config :=
  (Toml.read? text).bind fun statements =>
    (statements.foldlM Reading.step? ({} : Reading)).map Reading.config

/-! ## Finding settings -/

/-- Why there is no configuration. -/
inductive Fault where
  | read (path : Path) (fault : FileFault)
  | parse (path : Path)
deriving DecidableEq, Repr

/-- The name of the file that holds the settings. -/
def fileName : Path := Path.ofString "weft.toml"

section
variable {m : Type → Type} [Monad m] [FileSystem m]

/-- The configuration in the file at a path. A missing file means the defaults. -/
def load (path : Path) : m (Except Fault Config) := do
  if ← FileSystem.pathExists path then
    match ← FileSystem.readFile path with
    | .error fault => return .error (.read path fault)
    | .ok text =>
      match ofToml? text with
      | some config => return .ok config
      | none => return .error (.parse path)
  else return .ok {}

/-- The configuration in the first of the directories that has one. -/
def loadNearest : List Path → m (Except Fault Config)
  | [] => return .ok {}
  | directory :: directories => do
    let path := directory.join fileName
    if ← FileSystem.pathExists path then load path else loadNearest directories

/-- The configuration for documents in a directory. -/
def discover (directory : Path) : m (Except Fault Config) := loadNearest directory.ancestors

end

/-! ## Using settings -/

/-- The levels of the lint rules. -/
def lintConfig (c : Config) : LintConfig := LintConfig.ofLevels c.lint

/-- The dialect of a file. What is configured for its extension goes before what is built in, even
if it names no dialect. -/
def dialectFor (c : Config) (path : Path) : Option Dialect :=
  path.extension?.bind fun extension =>
    match c.dialects.lookup extension with
    | some name => Dialect.ofName? name
    | none => Dialect.ofExtension? extension

/-- How a file is to be parsed, if it is of a known dialect. -/
def parseOptions (c : Config) (path : Path) : Option ParseOptions :=
  (c.dialectFor path).map fun dialect =>
    { dialect, location := c.location, lint := c.lintConfig }

end Config

end HybridMarkup
