/-
  DwarfExpr/Diagnostic.lean
  =========================
  **What is wrong with a source, and where.** A diagnostic names a cause and a span of the source,
  and shows the line and column at which the span begins (`location_of`).  An expression that breaks
  off is described by its syntax error, with one exception (`parse_expression`).
-/
import DwarfExpr.Call.Encode

namespace DwarfExpr

/-- What is wrong with a source. -/
inductive Cause where
  | lexical (fault : LexicalFault)
  | grammar (fault : SyntaxFault)
  | encoding (fault : EncodeFault)
  deriving DecidableEq, Repr

def Cause.text : Cause → String
  | lexical fault => fault.message
  | grammar fault => fault.message
  | encoding fault => fault.message

/-- The two kinds of error that a reader is told apart. -/
inductive DiagnosticKind where
  | lexical
  | parse
  deriving DecidableEq, Repr

def DiagnosticKind.text : DiagnosticKind → String
  | lexical => "lexical error"
  | parse => "parse error"

/-- What is wrong with a source, and where. -/
structure Diagnostic where
  cause : Cause
  span : Span
  location : Location
  deriving DecidableEq, Repr

namespace Diagnostic

/-- The diagnostic of a cause at a span of a source. -/
def ofSource (source : String) (cause : Cause) (span : Span) : Diagnostic :=
  ⟨cause, span, Location.ofOffset source span.start⟩

def kind (d : Diagnostic) : DiagnosticKind :=
  match d.cause with
  | .lexical _ => .lexical
  | .grammar _ | .encoding _ => .parse

def text (d : Diagnostic) : String := d.cause.text

def message (d : Diagnostic) : String := s!"{d.location.text}: {d.text}"

end Diagnostic

/-- The diagnostic of an expression that breaks off.  If that happens in a list which should not be
    there at all, the list is what is wrong. -/
def SyntaxError.diagnostic (source : String) (e : SyntaxError) : Diagnostic :=
  match e.needless with
  | some opening => .ofSource source (.encoding .needlessList) opening
  | none => .ofSource source (.grammar e.fault.value) e.fault.span

end DwarfExpr
