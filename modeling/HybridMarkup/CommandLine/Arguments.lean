/-
Command lines: what may be asked for, and how it is spelled.

A command line names a command and its operands, with options anywhere between them. An option
takes its value behind an equals sign or from the next argument, which must not look like an
option itself; two hyphens alone end the options. The configuration may be named before and
behind the command, and the later place wins.
-/
import HybridMarkup.Path

set_option autoImplicit false

namespace HybridMarkup

/-- What is to be done. -/
inductive Command where
  /-- Shows what is wrong with documents. -/
  | check (paths : List Path)
  /-- Prints the tokens of a document. -/
  | tokens (path : Path)
  /-- Prints the syntax tree of a document. -/
  | tree (path : Path)
  /-- Prints what is generated from a document, or writes it to a directory. -/
  | transform (path : Path) (out : Option Path)
deriving DecidableEq, Repr

/-- A command, with the file that holds the configuration if one is named. -/
structure Invocation where
  config : Option Path
  command : Command
deriving DecidableEq, Repr

/-- Why a command line is no invocation. -/
inductive Refusal where
  /-- It asks how to spell one. -/
  | help
  | misuse
deriving DecidableEq, Repr

/-- The name of a command. -/
inductive Verb where
  | check
  | tokens
  | tree
  | transform
deriving DecidableEq, Repr

/-- The command of a name. -/
def Verb.ofName? (name : Text) : Option Verb :=
  if name = "check".toList then some .check
  else if name = "tokens".toList then some .tokens
  else if name = "tree".toList then some .tree
  else if name = "transform".toList then some .transform
  else none

/-- One argument by its spelling. -/
inductive Argument where
  | option (name : Text) (value : Option Text)
  /-- Letters behind a single hyphen. -/
  | letters (first : Char) (more : Text)
  | optionsEnd
  | operand (text : Text)
deriving DecidableEq, Repr

/-- What an argument is, as long as options have not been ended. -/
def Argument.ofText : Text → Argument
  | ['-', '-'] => .optionsEnd
  | '-' :: '-' :: t =>
    match Text.cutAt? '=' t with
    | some (name, value) => .option name (some value)
    | none => .option t none
  | '-' :: c :: t => .letters c t
  | t => .operand t

/-- All arguments by their spelling. -/
def Argument.ofTexts : List Text → List Argument
  | [] => []
  | t :: ts =>
    match ofText t with
    | .optionsEnd => .optionsEnd :: ts.map .operand
    | a => a :: ofTexts ts

namespace Invocation

/-- A command line read up to some argument. -/
structure Reading where
  verb : Option Verb := none
  /-- The configuration named before the command. -/
  outerConfig : Option Path := none
  /-- The configuration named on this side of the command. -/
  config : Option Path := none
  out : Option Path := none
  paths : List Path := []
  optionsEnded : Bool := false
deriving Repr

namespace Reading

/-- Takes in an option with its value. None may be given twice. -/
def option (r : Reading) (name value : Text) : Except Refusal Reading :=
  if name = "config".toList ∧ r.config = none then .ok { r with config := some ⟨value⟩ }
  else if name = "out".toList ∧ r.verb = some .transform ∧ r.out = none then
    .ok { r with out := some ⟨value⟩ }
  else .error .misuse

/-- Takes in an option without a value. The version can only be asked for before the command. -/
def flag (r : Reading) (name : Text) : Refusal :=
  if name = "help".toList ∨ name = "version".toList ∧ r.verb = none then .help else .misuse

/-- Takes in letters behind a hyphen, of which the first already decides. -/
def letters (r : Reading) (first : Char) : Refusal :=
  if first = 'h' ∨ first = 'V' ∧ r.verb = none then .help else .misuse

/-- Takes in an operand. The first one is the name of the command. -/
def operand (r : Reading) (text : Text) : Except Refusal Reading :=
  match r.verb with
  | none =>
    if r.optionsEnded then .error .misuse
    else
      match Verb.ofName? text with
      | some verb => .ok { r with verb := some verb, outerConfig := r.config, config := none }
      | none => .error (if text = "help".toList then .help else .misuse)
  -- only a check takes more than one
  | some .check => .ok { r with paths := r.paths ++ [⟨text⟩] }
  | some _ => if r.paths = [] then .ok { r with paths := [⟨text⟩] } else .error .misuse

/-- Takes in arguments. -/
def arguments (r : Reading) : List Argument → Except Refusal Reading
  | [] => .ok r
  | .optionsEnd :: rest => { r with optionsEnded := true }.arguments rest
  | .operand text :: rest => (r.operand text).bind fun r => r.arguments rest
  | .letters first _ :: _ => .error (r.letters first)
  | .option name (some value) :: rest => (r.option name value).bind fun r => r.arguments rest
  | .option name none :: .operand value :: rest =>
    match r.option name value with
    | .ok r => r.arguments rest
    | .error _ => .error (r.flag name)
  | .option name none :: _ => .error (r.flag name)

/-- The command, if its operands are all there. -/
def command? (r : Reading) : Option Command :=
  match r.verb, r.paths with
  | some .check, path :: paths => some (.check (path :: paths))
  | some .tokens, [path] => some (.tokens path)
  | some .tree, [path] => some (.tree path)
  | some .transform, [path] => some (.transform path r.out)
  | _, _ => none

end Reading

/-- Reads a command line. -/
def ofArguments (arguments : List Text) : Except Refusal Invocation :=
  (({} : Reading).arguments (Argument.ofTexts arguments)).bind fun r =>
    match r.command? with
    | some command => .ok { config := r.config.or r.outerConfig, command }
    | none => .error .misuse

end Invocation

end HybridMarkup
