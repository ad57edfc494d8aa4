/-
Directives: attributes whose name is an instruction.

The long form of a directive is `v-name:arg.modifier.modifier`, and three names have a sign of
their own that stands for name and colon together: `:` for `v-bind:`, `@` for `v-on:` and `#` for
`v-slot:`. Reading a name loses nothing; which of the two forms was written is kept in
`isShorthand`.
-/
import HybridMarkup.Text

set_option autoImplicit false

namespace HybridMarkup

/-- A directive, taken apart. -/
structure Directive where
  name : Text
  arg : Option Text
  modifiers : List Text
  value : Option Text
  valueSpan : Option Span
  isShorthand : Bool
deriving DecidableEq, Repr, Inhabited

namespace Directive

/-- The directive for which a sign stands. -/
def ofSign? (c : Char) : Option Text :=
  if c = ':' then some "bind".toList
  else if c = '@' then some "on".toList
  else if c = '#' then some "slot".toList
  else none

/-- The directive with the given name and the given rest of its spelling, in which the parts are
set off by periods. The first part is the argument if the spelling announced one. -/
def ofParts (name rest : Text) (hasArg isShorthand : Bool) : Directive :=
  let parts := Text.splitAt '.' rest
  { name
    arg := if hasArg then some (parts.headD []) else none
    modifiers := parts.tail
    value := none
    valueSpan := none
    isShorthand }

/-- Reads the long form, from behind the `v-`. -/
def ofLongForm (body : Text) : Directive :=
  let name := body.takeWhile fun c => c != ':' && c != '.'
  match body.dropWhile fun c => c != ':' && c != '.' with
  | ':' :: rest => ofParts name rest true false
  | rest => ofParts name rest false false

/-- Reads the name of a directive. -/
def ofRaw (raw : Text) : Directive :=
  match raw with
  | [] => ofLongForm []
  | c :: rest =>
    match ofSign? c with
    | some name => ofParts name rest true true
    | none => ofLongForm ((Text.strip? ['v', '-'] raw).getD raw)

/-- What two directives on one element must not share: the name with the argument. -/
def key (d : Directive) : Text :=
  match d.arg with
  | some arg => "v-".toList ++ d.name ++ ':' :: arg
  | none => "v-".toList ++ d.name

end Directive

end HybridMarkup
