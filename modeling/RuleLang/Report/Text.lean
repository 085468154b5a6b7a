import RuleLang.Diagnostic
import RuleLang.Report.Excerpt

/-!
# Text reports

A diagnostic as people read it: a headline, the place, the lines of the source that it is about,
and the message under them.

## Main definitions

* `TextReport.lines` — the lines of a report.
* `TextReport.render` — its text.
-/

namespace RuleLang.TextReport

/-- The part of a span inside a source of the given length. -/
def clamp (length : Nat) (span : Span) : Span :=
  let start := min span.start length
  ⟨start, max start (min span.stop length)⟩

def severityWord : Severity → String
  | .error => "Error"
  | .warning => "Warning"
  | .info => "Advice"

def spaces (n : Nat) : List Char :=
  List.replicate n ' '

/-- A number at the right end of a field. -/
def alignRight (width : Nat) (n : Nat) : List Char :=
  let digits := (toString n).toList
  spaces (width - digits.length) ++ digits

/-- A line with its number in the margin. -/
def numbered (width : Nat) (line : SourceLine) (content : List Char) : List Char :=
  ' ' :: alignRight width line.number ++ " │ ".toList ++ content

/-- The marks under columns `first` to `last` of one line: an arrow from their middle leads to the
message. An empty range has the arrow alone. -/
def pointAt (margin : List Char) (line : SourceLine) (first last : Nat) (message : List Char) :
    List (List Char) :=
  let middle := (first + last) / 2
  let upper (column : Nat) : SourceLine.Mark :=
    if column = middle then (if first = last then ⟨'│', ' '⟩ else ⟨'┬', '─'⟩)
    else if first ≤ column && column < last then .plain '─'
    else .plain ' '
  let lower (column : Nat) : SourceLine.Mark :=
    if column < middle then .plain ' '
    else if column = middle then ⟨'╰', '─'⟩
    else .plain '─'
  [margin ++ "│ ".toList ++ line.spread (last + 2) upper,
    margin ++ "│ ".toList ++ line.spread (last + 2) lower ++ ' ' :: message]

/-- The excerpt for a span within one line. -/
def withinLine (width : Nat) (line : SourceLine) (first last : Nat) (message : List Char) :
    List (List Char) :=
  numbered width line line.shown :: pointAt (spaces (width + 2)) line first last message

/-- The excerpt for a span over several lines: the first and the last of them. -/
def acrossLines (width : Nat) (first last : SourceLine) (message : List Char) : List (List Char) :=
  let margin := spaces (width + 2)
  let columns := last.text.length + 2
  numbered width first ("╭─▶ ".toList ++ first.shown) ::
    (if first.number + 1 < last.number then [margin ++ "┆ ┆   ".toList] else []) ++
    [numbered width last ("├─▶ ".toList ++ last.shown),
      margin ++ "│ │   ".toList ++ last.spread columns fun _ => .plain ' ',
      margin ++ "│ ╰───".toList ++ (last.spread columns fun _ => .plain '─') ++ ' ' :: message]

/-- The lines of a report. -/
def lines (source : List Char) (d : Diagnostic) : List (List Char) :=
  let span := clamp (Text.byteLength source) d.location.span
  let sourceLines := SourceLine.ofSource source
  let first := (SourceLine.at? sourceLines span.start).getD default
  let last := if span.length = 0 then first
    else (SourceLine.at? sourceLines (span.stop - 1)).getD default
  let width := (toString last.number).length
  let message := d.message.toList
  let column := first.columnOf span.start
  let headline := "[" ++ d.code ++ "] " ++ severityWord d.severity ++ ": " ++ d.message
  let place := "╭─[ " ++ d.location.sourceId ++ ":" ++ toString first.number ++ ":" ++
    toString (column + 1) ++ " ]"
  [headline.toList, spaces (width + 2) ++ place.toList, spaces (width + 2) ++ ['│']] ++
    (if first.number = last.number then withinLine width first column (first.columnOf span.stop) message
      else acrossLines width first last message) ++
    [List.replicate (width + 2) '─' ++ ['╯']]

/-- The text of a report; every line has an end. -/
def render (source : List Char) (d : Diagnostic) : List Char :=
  (lines source d).flatMap fun line => line ++ ['\n']

end RuleLang.TextReport
