import RuleLang.Parser
import RuleLang.Text.LineMap

/-!
# Diagnostics

Reports to the author of a rule file: how severe, of what kind, the message, and the place.

## Main definitions

* `Severity`, `DiagnosticKind`, `Location`, `Diagnostic` — a report and its parts.
* `Diagnostic.ofLexError`, `Diagnostic.ofSyntaxError` — reports of the errors of a parse.
* `Diagnostic.sort` — reports by offset.
-/

namespace RuleLang

inductive Severity where
  | info | warning | error
  deriving DecidableEq, Repr, Inhabited

def Severity.describe : Severity → String
  | .info => "info"
  | .warning => "warning"
  | .error => "error"

inductive DiagnosticKind where
  | lexError | syntaxError | semanticWarning | rewriteConflict | staleHandle | internal
  deriving DecidableEq, Repr, Inhabited

namespace DiagnosticKind

def describe : DiagnosticKind → String
  | .lexError => "lex-error"
  | .syntaxError => "syntax-error"
  | .semanticWarning => "semantic-warning"
  | .rewriteConflict => "rewrite-conflict"
  | .staleHandle => "stale-handle"
  | .internal => "internal"

/-- The stable code that reports show. -/
def code : DiagnosticKind → String
  | .lexError => "DRL001"
  | .syntaxError => "DRL002"
  | .semanticWarning => "DRL003"
  | .rewriteConflict => "DRL004"
  | .staleHandle => "DRL005"
  | .internal => "DRL099"

end DiagnosticKind

/-- A place in a source. Line and column count from 1. -/
structure Location where
  sourceId : String
  span : Span
  line : Nat
  column : Nat
  deriving DecidableEq, Repr, Inhabited

namespace Location

def ofSpan (sourceId : String) (map : LineMap) (span : Span) : Location :=
  let (line, column) := map.position span.start
  ⟨sourceId, span, line, column⟩

def describe (l : Location) : String :=
  l.sourceId ++ ":" ++ toString l.line ++ ":" ++ toString l.column

end Location

structure Diagnostic where
  severity : Severity
  kind : DiagnosticKind
  code : String
  message : String
  location : Location
  deriving DecidableEq, Repr, Inhabited

namespace Diagnostic

/-- A report with the code of its kind. -/
def ofKind (severity : Severity) (kind : DiagnosticKind) (message : String)
    (location : Location) : Diagnostic :=
  ⟨severity, kind, kind.code, message, location⟩

def isError (d : Diagnostic) : Bool :=
  d.severity == .error

def ofLexError (sourceId : String) (map : LineMap) (e : LexError) : Diagnostic :=
  .ofKind .error .lexError e.message (.ofSpan sourceId map e.span)

/-- An unknown attribute is a warning, all else an error. -/
def ofSyntaxError (sourceId : String) (map : LineMap) (e : SyntaxError) : Diagnostic :=
  let location := .ofSpan sourceId map e.span
  if e.isWarning then .ofKind .warning .semanticWarning e.message location
  else .ofKind .error .syntaxError e.message location

/-- The report on one line. -/
def describe (d : Diagnostic) : String :=
  d.location.describe ++ ": " ++ d.severity.describe ++ "[" ++ d.code ++ "] " ++ d.message

/-- Reports by offset; reports at one offset keep their order. -/
def sort (ds : List Diagnostic) : List Diagnostic :=
  ds.mergeSort fun a b => a.location.span.start ≤ b.location.span.start

end Diagnostic

end RuleLang
