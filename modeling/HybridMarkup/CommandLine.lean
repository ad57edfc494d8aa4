/-
The command line tool, as a program over any file system.

A run reads its command line, does what the command says and ends in an outcome: a status and two
streams of text. Faults of documents are no failure of the tool; `check` shows them all before it
fails because of them. A failure is one message with at most one cause, and it leaves standing
what was printed before it.
-/
import HybridMarkup.CommandLine.Arguments
import HybridMarkup.Config
import HybridMarkup.Artifact.All
import HybridMarkup.Diagnostic.Snippet
import HybridMarkup.Tree.Dump

set_option autoImplicit false

namespace HybridMarkup

/-! ## Failures and outcomes -/

/-- Why a command failed. -/
inductive Failure where
  | config (fault : Config.Fault)
  | unknownDialect (path : Path)
  | read (path : Path) (fault : FileFault)
  | create (path : Path) (fault : FileFault)
  | write (path : Path) (fault : FileFault)
  | faulty (count : Nat)
deriving DecidableEq, Repr

namespace Failure

/-- A path as it is set off in a message. -/
def quotedPath (path : Path) : Text := '\x60' :: path.spelling ++ ['\x60']

/-- What happened, in words. -/
def message : Failure → Text
  | config (.read path fault) =>
    "failed to read config file at ".toList ++ path.spelling ++ ": ".toList ++
      fault.message.toList
  | config (.parse path) => "failed to parse config file at ".toList ++ path.spelling
  | unknownDialect path => quotedPath path ++ " is not a document of any known dialect".toList
  | read path _ => "failed to read ".toList ++ quotedPath path
  | create path _ => "failed to create ".toList ++ quotedPath path
  | write path _ => "failed to write ".toList ++ quotedPath path
  | faulty count => "found ".toList ++ Text.ofNat count ++ " error(s)".toList

/-- What was behind it. -/
def cause? : Failure → Option FileFault
  | config (.read _ fault) => some fault
  | config (.parse _) => none
  | unknownDialect _ => none
  | read _ fault => some fault
  | create _ fault => some fault
  | write _ fault => some fault
  | faulty _ => none

/-- The last words of a run that fails. -/
def report (f : Failure) : Text :=
  let cause :=
    match f.cause? with
    | some fault => "\n\nCaused by:\n    ".toList ++ fault.message.toList
    | none => []
  "Error: ".toList ++ f.message ++ cause ++ ['\n']

end Failure

/-- How a run ended and what it printed. -/
structure Outcome where
  code : Nat
  stdout : Text
  stderr : Text
deriving DecidableEq, Repr, Inhabited

namespace Outcome

/-- The outcome of a command that printed something and may have failed after that. -/
def ofResult (stdout stderr : Text) : Except Failure Unit → Outcome
  | .ok () => { code := 0, stdout, stderr }
  | .error failure => { code := 1, stdout, stderr := stderr ++ failure.report }

/-- How to spell a command line. -/
def usage : Text :=
  "Usage: weft [--config <CONFIG>] <check|tokens|tree|transform> <PATH>\n".toList

/-- The outcome of a command line that is no invocation. -/
def ofRefusal : Refusal → Outcome
  | .help => { code := 0, stdout := usage, stderr := [] }
  | .misuse => { code := 2, stdout := [], stderr := usage }

end Outcome

/-! ## Commands -/

/-- A document that a command is about. -/
structure Input where
  path : Path
  text : Text
  options : ParseOptions

namespace Input

/-- The parsed document. -/
def parse (i : Input) : Parse := Parse.ofText i.options i.text

/-- The tokens of the document, one on a line. A token with a fault shows its name in the place of
the text. -/
def tokenLines (i : Input) : Text :=
  (tokenize i.options.dialect i.text).flatMap fun t =>
    let content :=
      match t.error with
      | some error => error.name.toList
      | none => Text.quoted t.lexeme
    t.kind.label.toList ++ '@' :: t.span.shown ++ ' ' :: content ++ ['\n']

/-- What is generated from the document. -/
def artifacts (i : Input) : List Artifact := i.parse.tree.artifacts i.path.spelling

/-- What is generated from the document, each text under its name. -/
def artifactTexts (i : Input) : Text :=
  i.artifacts.flatMap fun a => "== ".toList ++ a.fileName ++ '\n' :: a.text ++ ['\n']

/-- Pictures of what is wrong with the document. -/
def pictures (i : Input) : Text :=
  i.parse.diagnostics.flatMap fun d => d.render .ansi i.path.spelling i.text ++ ['\n']

/-- How many findings make the document unacceptable. -/
def errorCount (i : Input) : Nat := i.parse.diagnostics.countP Diagnostic.isError

end Input

namespace Artifact

/-- Where an artifact is written when a directory is given. -/
def target (a : Artifact) (out : Path) : Path :=
  out.join ⟨(Path.fileName? ⟨a.fileName⟩).getD a.fileName⟩

end Artifact

section
variable {m : Type → Type} [Monad m] [FileSystem m]

/-- The configuration for a document: the one that is named, or else the nearest. -/
def Config.near (explicit : Option Path) (path : Path) : m (Except Config.Fault Config) :=
  match explicit with
  | some file => Config.load file
  | none =>
    match path.parent? with
    | some directory =>
      Config.discover (if directory.spelling = [] then Path.ofString "." else directory)
    | none => Config.discover (Path.ofString ".")

/-- Reads the document at a path. -/
def Input.load (explicit : Option Path) (path : Path) : m (Except Failure Input) := do
  match ← Config.near explicit path with
  | .error fault => return .error (.config fault)
  | .ok config =>
    match config.parseOptions path with
    | none => return .error (.unknownDialect path)
    | some options =>
      match ← FileSystem.readFile path with
      | .error fault => return .error (.read path fault)
      | .ok text => return .ok { path, text, options }

/-- Checks documents one after another. Gives the pictures, and the number of errors unless a
document could not be read. -/
def checkAll (config : Option Path) : List Path → m (Text × Except Failure Nat)
  | [] => return ([], .ok 0)
  | path :: paths => do
    match ← Input.load config path with
    | .error failure => return ([], .error failure)
    | .ok input =>
      let (pictures, count) ← checkAll config paths
      return (input.pictures ++ pictures, count.map (input.errorCount + ·))

/-- Writes artifacts into a directory, up to the first that cannot be written. -/
def writeAll (out : Path) : List Artifact → m (Except Failure Unit)
  | [] => return .ok ()
  | a :: artifacts => do
    match ← FileSystem.writeFile (a.target out) a.text with
    | .error fault => return .error (.write (a.target out) fault)
    | .ok () => writeAll out artifacts

/-- Creates a directory and writes artifacts into it. -/
def Input.writeTo (i : Input) (out : Path) : m (Except Failure Unit) := do
  match ← FileSystem.createDirectories out with
  | .error fault => return .error (.create out fault)
  | .ok () => writeAll out i.artifacts

/-- Does something with one document. -/
def withInput (config : Option Path) (path : Path) (use : Input → m Outcome) : m Outcome := do
  match ← Input.load config path with
  | .error failure => return Outcome.ofResult [] [] (.error failure)
  | .ok input => use input

/-- Does what a command says. -/
def Invocation.run (i : Invocation) : m Outcome :=
  match i.command with
  | .check paths => do
    match ← checkAll i.config paths with
    | (pictures, .error failure) => return Outcome.ofResult [] pictures (.error failure)
    | (pictures, .ok 0) => return Outcome.ofResult [] pictures (.ok ())
    | (pictures, .ok count) => return Outcome.ofResult [] pictures (.error (.faulty count))
  | .tokens path =>
    withInput i.config path fun input => return Outcome.ofResult input.tokenLines [] (.ok ())
  | .tree path =>
    withInput i.config path fun input => return Outcome.ofResult input.parse.tree.dump [] (.ok ())
  | .transform path none =>
    withInput i.config path fun input => return Outcome.ofResult input.artifactTexts [] (.ok ())
  | .transform path (some out) =>
    withInput i.config path fun input => do
      return Outcome.ofResult [] [] (← input.writeTo out)

/-- Runs a command line. -/
def run (arguments : List Text) : m Outcome :=
  match Invocation.ofArguments arguments with
  | .error refusal => return Outcome.ofRefusal refusal
  | .ok invocation => invocation.run

end

end HybridMarkup
