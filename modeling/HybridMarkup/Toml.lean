/-
The settings language: TOML.

A document is a sequence of statements, one per line: a header that says which table the
following entries belong to, or an entry. Keys may be bare, quoted or dotted. Values are strings,
booleans, numbers, dates and times, lists, and inline tables. Between brackets and between braces
lines may be broken and comments stand, though not within a dotted key.

What the statements mean, and which of them may stand together, is not decided here. Only the
entries of an inline table are, since nothing outside of it can add to them.
-/
import HybridMarkup.Toml.Moment
import HybridMarkup.Toml.Number
import HybridMarkup.Toml.Quoted

set_option autoImplicit false

namespace HybridMarkup.Toml

/-- A value. -/
inductive Value where
  | text (text : Text)
  | boolean (value : Bool)
  /-- A number, as it is written. -/
  | number (text : Text)
  | moment (moment : Moment)
  | list (values : List Value)
  /-- Entries between braces. Each has a path, since its key may be dotted. -/
  | table (entries : List (List Text × Value))
deriving Inhabited

/-- A line of a document. -/
inductive Statement where
  /-- Opens the table at a path. -/
  | header (path : List Text)
  /-- Opens one more table in the list at a path. -/
  | listHeader (path : List Text)
  | entry (path : List Text) (value : Value)
deriving Inhabited

/-! ## Keys -/

/-- A character of a key without quotes. -/
def isBare (c : Char) : Bool := c.isAlphanum || c == '_' || c == '-'

/-- One part of a key. -/
def keyPart? (t : Text) : Option (Text × Text) :=
  match t with
  | [] => none
  | c :: _ =>
    if isBare c then some (t.takeWhile isBare, t.dropWhile isBare) else lineString? t

/-- A key: parts with periods between them and space around the periods. Every round takes a
part. The space behind the key is dropped too. -/
def key? : Nat → Reader (List Text)
  | 0, _ => none
  | fuel + 1, t =>
    (keyPart? (skipSpace t)).bind fun (part, t) =>
      match skipSpace t with
      | '.' :: t => (key? fuel t).map fun (parts, t) => (part :: parts, t)
      | t => some ([part], t)

/-! ## Words -/

/-- A character of a value without quotes. -/
def isWord (c : Char) : Bool := !("=,[]\x7b\x7d \t#\r\n".toList.contains c)

/-- The value that a word is, if it is one. -/
def ofWord? (word : Text) : Option Value :=
  if word = "true".toList then some (.boolean true)
  else if word = "false".toList then some (.boolean false)
  else if isNumber word then some (.number word)
  else (Moment.ofText? word).map .moment

/-- A value without quotes or brackets. A space may stand for the `T` behind a day. -/
def word? (t : Text) : Option (Value × Text) :=
  let word := t.takeWhile isWord
  let rest := t.dropWhile isWord
  (ofWord? word).bind fun value =>
    match value, rest with
    | .moment (.day _), ' ' :: c :: t =>
      if isWord c then
        (ofWord? (word ++ ' ' :: (c :: t).takeWhile isWord)).map (·, (c :: t).dropWhile isWord)
      else some (value, rest)
    | _, _ => some (value, rest)

/-! ## Values and statements -/

/-- How many brackets and braces may be open at once. -/
def nestingLimit : Nat := 80

/-- Whether entries at these paths may stand in one table: none of the paths leads to the value at
another or through it. -/
def areApart : List (List Text) → Bool
  | [] => true
  | path :: paths =>
    paths.all (fun other => !path.isPrefixOf other && !other.isPrefixOf path) && areApart paths

/-- An inline table of the given entries. -/
def table? (entries : List (List Text × Value)) : Option Value :=
  if areApart (entries.map Prod.fst) then some (.table entries) else none

mutual

/-- A value, in which no more than `room` brackets and braces are open at once. Every nested value
takes at least a character, so the length of the text bounds the number of rounds. -/
def value? (room : Nat) : Nat → Reader Value
  | 0, _ => none
  | fuel + 1, t =>
    match t, room with
    | '[' :: _, 0 => none
    | '{' :: _, 0 => none
    | '[' :: t, room + 1 =>
      match skipAll t with
      | ']' :: t => some (.list [], t)
      | t => (values? room fuel t).map fun (vs, t) => (.list vs, t)
    | '{' :: t, room + 1 =>
      match skipAll t with
      | '}' :: t => some (.table [], t)
      | t => (entries? room fuel t).bind fun (es, t) => (table? es).map (·, t)
    | '"' :: _, _ => (string? t).map fun (s, t) => (.text s, t)
    | '\'' :: _, _ => (string? t).map fun (s, t) => (.text s, t)
    | t, _ => word? t
termination_by structural fuel => fuel

/-- The values of a list up to its closing bracket, of which there is at least one. -/
def values? (room : Nat) : Nat → Reader (List Value)
  | 0, _ => none
  | fuel + 1, t =>
    (value? room fuel t).bind fun (v, t) =>
      match skipAll t with
      | ']' :: t => some ([v], t)
      | ',' :: t =>
        match skipAll t with
        | ']' :: t => some ([v], t)
        | t => (values? room fuel t).map fun (vs, t) => (v :: vs, t)
      | _ => none
termination_by structural fuel => fuel

/-- The entries of an inline table up to its closing brace, of which there is at least one. -/
def entries? (room : Nat) : Nat → Reader (List (List Text × Value))
  | 0, _ => none
  | fuel + 1, t =>
    (pair? room skipAll fuel t).bind fun (e, t) =>
      match skipAll t with
      | '}' :: t => some ([e], t)
      | ',' :: t =>
        match skipAll t with
        | '}' :: t => some ([e], t)
        | t => (entries? room fuel t).map fun (es, t) => (e :: es, t)
      | _ => none
termination_by structural fuel => fuel

/-- A key, an equals sign and a value, with what `gap` drops around the sign. -/
def pair? (room : Nat) (gap : Text → Text) : Nat → Reader (List Text × Value)
  | 0, _ => none
  | fuel + 1, t =>
    (key? (t.length + 1) t).bind fun (path, t) =>
      match gap t with
      | '=' :: t => (value? room fuel (gap t)).map fun (v, t) => ((path, v), t)
      | _ => none
termination_by structural fuel => fuel

end

/-- A statement, without what ends its line. -/
def statement? (t : Text) : Option (Statement × Text) :=
  match t with
  | '[' :: '[' :: t =>
    (key? (t.length + 1) t).bind fun (path, t) =>
      match t with
      | ']' :: ']' :: t => some (.listHeader path, t)
      | _ => none
  | '[' :: t =>
    (key? (t.length + 1) t).bind fun (path, t) =>
      match t with
      | ']' :: t => some (.header path, t)
      | _ => none
  | t =>
    (pair? nestingLimit skipSpace (2 * t.length + 2) t).map fun ((path, v), t) =>
      (.entry path v, t)

/-- The statements of a document from a line on. Every round takes a line. -/
def statements? : Nat → Text → Option (List Statement)
  | 0, _ => none
  | fuel + 1, t =>
    match skipAll t with
    | [] => some []
    | t =>
      (statement? t).bind fun (s, t) =>
        (endOfLine? t).bind fun t => (statements? fuel t).map (s :: ·)

/-- The statements of a document. A byte order mark at its front is passed over. -/
def read? (t : Text) : Option (List Statement) :=
  let t := if t.head? = some '\ufeff' then t.drop 1 else t
  statements? (t.length + 1) t

end HybridMarkup.Toml
