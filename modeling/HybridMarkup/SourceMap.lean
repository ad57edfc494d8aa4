/-
Source maps: where the parts of a generated text come from.

A mapping ties a span of the source to a span of the generated text in one of three modes, and a
map is a list of mappings. A question is put to all of them, and the answer lists the candidates
in the order of the mappings. Source and generated text play symmetric parts; which of them the
question is about is a `Direction`.
-/
import HybridMarkup.Text

set_option autoImplicit false

namespace HybridMarkup

/-- How the offsets of two spans correspond. -/
inductive MappingMode where
  /-- By equal distance from the start, but not beyond the end of the other side. -/
  | offset
  /-- End to end; nothing in between corresponds. -/
  | totally
  /-- All of the one side to the start of the other. -/
  | expand
deriving DecidableEq, Repr, Inhabited

/-- Which side is asked for the place of something on the other. -/
inductive Direction where
  | sourceToMapped
  | mappedToSource
deriving DecidableEq, Repr

/-- The correspondence of two spans. -/
structure Mapping where
  mode : MappingMode
  source : Span
  mapped : Span
deriving DecidableEq, Repr, Inhabited

namespace Mapping

/-- The side that is asked about. -/
def asked (m : Mapping) : Direction → Span
  | .sourceToMapped => m.source
  | .mappedToSource => m.mapped

/-- The side in which the answer lies. -/
def target (m : Mapping) : Direction → Span
  | .sourceToMapped => m.mapped
  | .mappedToSource => m.source

/-- The place of an offset on the other side. -/
def mapOffset (m : Mapping) (direction : Direction) (offset : Nat) : Option Nat :=
  let asked := m.asked direction
  let target := m.target direction
  match m.mode with
  | .totally =>
    if offset = asked.start then some target.start
    else if offset = asked.stop then some target.stop
    else none
  | .offset =>
    if asked.touches offset then some (min (target.start + (offset - asked.start)) target.stop)
    else none
  | .expand => if asked.touches offset then some target.start else none

/-- The place of a span on the other side. -/
def mapSpan (m : Mapping) (direction : Direction) (span : Span) : Option Span :=
  let asked := m.asked direction
  let target := m.target direction
  match m.mode with
  | .totally => if span = asked then some target else none
  | .expand => if asked.includes span then some target else none
  | .offset =>
    match m.mapOffset direction span.start, m.mapOffset direction span.stop with
    | some start, some stop => some ⟨start, stop⟩
    | _, _ => none

end Mapping

/-- The mappings between a document and one text generated from it. -/
structure SourceMap where
  mappings : List Mapping
deriving DecidableEq, Repr, Inhabited

namespace SourceMap

/-- The candidates for an offset. -/
def mapOffsets (s : SourceMap) (direction : Direction) (offset : Nat) : List Nat :=
  s.mappings.filterMap fun m => m.mapOffset direction offset

/-- The candidates for a span. -/
def mapSpans (s : SourceMap) (direction : Direction) (span : Span) : List Span :=
  s.mappings.filterMap fun m => m.mapSpan direction span

/-- The places of a source offset in the generated text. -/
def mappedOffsets (s : SourceMap) (offset : Nat) : List Nat := s.mapOffsets .sourceToMapped offset

/-- The places of a generated offset in the source. -/
def sourceOffsets (s : SourceMap) (offset : Nat) : List Nat := s.mapOffsets .mappedToSource offset

/-- The places of a source span in the generated text. -/
def mappedSpans (s : SourceMap) (span : Span) : List Span := s.mapSpans .sourceToMapped span

/-- The places of a generated span in the source. -/
def sourceSpans (s : SourceMap) (span : Span) : List Span := s.mapSpans .mappedToSource span

/-- The first place of a source offset in the generated text. -/
def mappedOffset? (s : SourceMap) (offset : Nat) : Option Nat := (s.mappedOffsets offset).head?

/-- The first place of a generated offset in the source. -/
def sourceOffset? (s : SourceMap) (offset : Nat) : Option Nat := (s.sourceOffsets offset).head?

/-- The first place of a source span in the generated text. -/
def mappedSpan? (s : SourceMap) (span : Span) : Option Span := (s.mappedSpans span).head?

/-- The first place of a generated span in the source. -/
def sourceSpan? (s : SourceMap) (span : Span) : Option Span := (s.sourceSpans span).head?

/-- Whether a source offset has a place in the generated text. -/
def hasSourceOffset (s : SourceMap) (offset : Nat) : Bool := (s.mappedOffset? offset).isSome

/-- Whether a generated offset has a place in the source. -/
def hasMappedOffset (s : SourceMap) (offset : Nat) : Bool := (s.sourceOffset? offset).isSome

/-- Whether a source span has a place in the generated text. -/
def hasSourceSpan (s : SourceMap) (span : Span) : Bool := (s.mappedSpan? span).isSome

/-- Whether a generated span has a place in the source. -/
def hasMappedSpan (s : SourceMap) (span : Span) : Bool := (s.sourceSpan? span).isSome

end SourceMap

end HybridMarkup
