import RuleLang.Report.Text
import RuleLang.Text.Json

/-!
# Reports

The diagnostics of one source, for people or for programs.

## Main definitions

* `ReportFormat` — the forms of a report.
* `report` — all diagnostics of a source in one form.
-/

namespace RuleLang

inductive ReportFormat where
  | text | json | jsonPretty
  deriving DecidableEq, Repr, Inhabited

def Location.toJson (l : Location) : Json :=
  .object [("source_id", .string l.sourceId),
    ("span", .object [("start", .number l.span.start), ("end", .number l.span.stop)]),
    ("line", .number l.line), ("column", .number l.column)]

def Diagnostic.toJson (d : Diagnostic) : Json :=
  .object [("severity", .string d.severity.describe), ("kind", .string d.kind.describe),
    ("code", .string d.code), ("message", .string d.message), ("location", d.location.toJson)]

/-- Text reports one after another. -/
def textReports (ds : List Diagnostic) (source : List Char) : String :=
  String.ofList (ds.flatMap (TextReport.render source))

/-- The diagnostics of a source in a form. -/
def report (format : ReportFormat) (ds : List Diagnostic) (source : List Char) : String :=
  match format with
  | .text => textReports ds source
  | .json => (Json.array (ds.map Diagnostic.toJson)).compact
  | .jsonPretty => (Json.array (ds.map Diagnostic.toJson)).pretty

end RuleLang
