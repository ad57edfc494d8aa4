/-
Paths, read component by component.

A path is kept as it was spelled. Its components are what stands between its slashes, except that
empty parts and single periods are passed over; only a period at the very front of a relative
path counts. Two periods are a component like any other until `normalize` resolves them, which it
does by looking at the spelling alone: a name before them goes, and at the front, where there is
no name to go, they go by themselves.
-/
import HybridMarkup.Text

set_option autoImplicit false

namespace HybridMarkup

/-- A path as it was spelled. -/
structure Path where
  spelling : Text
deriving DecidableEq, Repr, Inhabited

/-- A component of a path. -/
inductive Component where
  | root
  | current
  | parent
  | normal (name : Text)
deriving DecidableEq, Repr

namespace Component

/-- What a part between two slashes stands for, if it counts. -/
def ofPart? (part : Text) : Option Component :=
  if part = [] || part = ['.'] then none
  else if part = ['.', '.'] then some parent
  else some (normal part)

/-- The root is least and names are greatest, among which the alphabet decides. -/
def rank : Component → Nat × Text
  | root => (0, [])
  | current => (1, [])
  | parent => (2, [])
  | normal name => (3, name)

end Component

namespace Path

/-- The path of a spelling given as a string. -/
def ofString (s : String) : Path := ⟨s.toList⟩

/-- Whether the path begins at the root. -/
def isAbsolute (p : Path) : Bool := p.spelling.head? == some '/'

/-- What stands at the front of a path and is no part between slashes: the slash of the root, or
the period of a relative path that begins with one. -/
def front (p : Path) : Text :=
  match p.spelling with
  | '/' :: _ => ['/']
  | ['.'] => ['.']
  | '.' :: '/' :: _ => ['.']
  | _ => []

/-- The component that the front stands for. -/
def frontComponent? (p : Path) : Option Component :=
  match p.front with
  | ['/'] => some .root
  | ['.'] => some .current
  | _ => none

/-- The parts between slashes behind the front. -/
def parts (p : Path) : List Text := Text.splitAt '/' (p.spelling.drop p.front.length)

/-- The components. -/
def components (p : Path) : List Component :=
  p.frontComponent?.toList ++ p.parts.filterMap Component.ofPart?

/-- The last component if it is a name. -/
def fileName? (p : Path) : Option Text :=
  match p.components.getLast? with
  | some (.normal name) => some name
  | _ => none

/-- The name without the last period and what follows it, and what follows it. A period at the
front of a name does not count. -/
def splitExtension (name : Text) : Text × Option Text :=
  match Text.cutAtLast? '.' name with
  | some ([], _) => (name, none)
  | some (stem, extension) => (stem, some extension)
  | none => (name, none)

/-- What follows the last period of the file name. -/
def extension? (p : Path) : Option Text := p.fileName?.bind fun name => (splitExtension name).2

/-- Drops the parts at the end that do not count. -/
def trimParts (parts : List Text) : List Text :=
  (parts.reverse.dropWhile fun part => (Component.ofPart? part).isNone).reverse

/-- The path without its last component, spelled as it was up to there. The root has no parent,
and neither has the empty path. -/
def parent? (p : Path) : Option Path :=
  match trimParts p.parts with
  | [] => if p.front = ['.'] then some ⟨[]⟩ else none
  | part :: parts =>
    let kept := trimParts (part :: parts).dropLast
    some ⟨p.front ++ List.intercalate ['/'] kept⟩

/-- The path followed from another one: an absolute path stands for itself, and any other is
spelled behind it, with one slash between them. -/
def join (p q : Path) : Path :=
  if q.isAbsolute then q
  else if p.spelling = [] || p.spelling.getLast? = some '/' then ⟨p.spelling ++ q.spelling⟩
  else ⟨p.spelling ++ '/' :: q.spelling⟩

/-- The path with its file name replaced. -/
def withFileName (p : Path) (name : Text) : Path :=
  if p.fileName?.isSome then ((p.parent?).getD p).join ⟨name⟩ else p.join ⟨name⟩

/-- The path and its parents, up to the first that has none. Each is shorter than the one before,
so there are no more than characters. -/
def ancestorsIn : Nat → Path → List Path
  | 0, p => [p]
  | fuel + 1, p =>
    match p.parent? with
    | some q => p :: ancestorsIn fuel q
    | none => [p]

/-- The path and its parents, up to the first that has none. -/
def ancestors (p : Path) : List Path := ancestorsIn p.spelling.length p

/-- The names that are left of a path, the last one first, when two periods take away the name
before them. -/
def resolve : List Text → List Component → List Text
  | names, [] => names
  | names, .normal name :: components => resolve (name :: names) components
  | names, .parent :: components => resolve names.tail components
  | names, .current :: components => resolve names components
  | names, .root :: components => resolve names components

/-- The path of the given names, from the root or relative. -/
def ofNames (isAbsolute : Bool) (names : List Text) : Path :=
  ⟨(if isAbsolute then ['/'] else []) ++ List.intercalate ['/'] names⟩

/-- Resolves periods without looking at any file. -/
def normalize (p : Path) : Path := ofNames p.isAbsolute (resolve [] p.components).reverse

/-- Whether a list of characters comes before another, or is equal, in the order of code
points. -/
def textLe : Text → Text → Bool
  | [], _ => true
  | _ :: _, [] => false
  | c :: s, d :: t => if c = d then textLe s t else decide (c.toNat < d.toNat)

/-- Whether a sequence of components comes before another, or is equal. -/
def componentsLe : List Component → List Component → Bool
  | [], _ => true
  | _ :: _, [] => false
  | c :: cs, d :: ds =>
    if c = d then componentsLe cs ds
    else if c.rank.1 = d.rank.1 then textLe c.rank.2 d.rank.2
    else decide (c.rank.1 < d.rank.1)

/-- The order of paths, which is that of their components and not that of their spelling. -/
def le (p q : Path) : Bool := componentsLe p.components q.components

/-- The paths in order. -/
def sorted (paths : List Path) : List Path := paths.mergeSort le

end Path

end HybridMarkup
