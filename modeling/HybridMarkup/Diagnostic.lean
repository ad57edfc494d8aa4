/-
Diagnostics, and the sink that collects them.

A run of faulty characters should surface once. The sink therefore merges a diagnostic into the
one before it when both say the same with the same severity and the new one begins exactly where
the old one ends. It looks at nothing but the last entry, so the entries of a sink are the runs of
what was reported, each with the message of its first member.
-/
import HybridMarkup.Text

set_option autoImplicit false

namespace HybridMarkup

/-- How grave a diagnostic is. -/
inductive Severity where
  | ignore
  | warn
  | error
deriving DecidableEq, Repr, Inhabited

namespace Severity

/-- The severity a configured level stands for. An unknown level switches the check off. -/
def ofLevel (level : Text) : Severity :=
  if Text.equalIgnoringCase level "error".toList then error
  else if Text.equalIgnoringCase level "warn".toList then warn
  else ignore

end Severity

/-- A finding about a part of a document. -/
structure Diagnostic where
  name : String
  message : String
  severity : Severity
  span : Span
deriving DecidableEq, Repr

namespace Diagnostic

/-- Whether the finding makes the document unacceptable. -/
def isError (d : Diagnostic) : Bool := d.severity == .error

/-- Whether `next` carries on where `d` ends and says the same. -/
def continuedBy (d next : Diagnostic) : Bool :=
  d.name == next.name && d.severity == next.severity && d.span.stop == next.span.start

end Diagnostic

/-- What has been reported so far, the newest entry first. -/
structure Diagnostics where
  newestFirst : List Diagnostic := []
deriving DecidableEq, Repr, Inhabited

namespace Diagnostics

/-- The entries in the order in which they were first reported. -/
def entries (s : Diagnostics) : List Diagnostic := s.newestFirst.reverse

/-- The newest entry. -/
def last? (s : Diagnostics) : Option Diagnostic := s.newestFirst.head?

/-- Reports one more finding. -/
def push (s : Diagnostics) (d : Diagnostic) : Diagnostics :=
  match s.newestFirst with
  | [] => ⟨[d]⟩
  | last :: older =>
    if last.continuedBy d then ⟨{ last with span := last.span.cover d.span } :: older⟩
    else ⟨d :: last :: older⟩

/-- Reports findings one after another. -/
def extend (s : Diagnostics) (ds : List Diagnostic) : Diagnostics := ds.foldl push s

end Diagnostics

end HybridMarkup
