import RuleLang.Diff.Unified
import RuleLang.Recipe.Basic
import RuleLang.Report

/-!
# Results of commands

What a command learned about each file, and how it is shown.

## Main definitions

* `FileReport`, `Summary` — what is shown.
* `FileReport.checkText`, `FileReport.migrationText`, `Summary.text` — in text.
* `checkJson`, `migrationJson`, `recipesJson` — as JSON documents.
* `recipesText` — the list of recipes.
-/

namespace RuleLang

structure FileReport where
  path : String
  source : List Char
  /-- The text after a migration. -/
  migrated? : Option (List Char) := none
  /-- The recipes that changed the text. -/
  applied : List String := []
  diagnostics : List Diagnostic

structure Summary where
  files : Nat
  changed : Nat
  errors : Nat
  warnings : Nat
  infos : Nat

namespace FileReport

/-- The text after a migration, if it is another one. -/
def changedText? (r : FileReport) : Option (List Char) :=
  r.migrated?.filter fun text => text != r.source

def isChanged (r : FileReport) : Bool :=
  r.changedText?.isSome

/-- The reports of the diagnostics. -/
def diagnosticsText (r : FileReport) : String :=
  textReports r.diagnostics r.source

/-- What a migration that writes, or one that does not, shows of a file. -/
def migrationText (write : Bool) (r : FileReport) : String :=
  match r.changedText? with
  | none => ""
  | some text =>
    if write then "Migrated " ++ r.path ++ "\n"
    else String.ofList (Diff.unified ("a/" ++ r.path) ("b/" ++ r.path) r.source text)

end FileReport

namespace Summary

def ofReports (reports : List FileReport) : Summary :=
  let diagnostics := reports.flatMap FileReport.diagnostics
  let count (s : Severity) : Nat := diagnostics.countP fun d => d.severity == s
  ⟨reports.length, reports.countP FileReport.isChanged, count .error, count .warning, count .info⟩

def total (s : Summary) : Nat :=
  s.errors + s.warnings + s.infos

def hasErrors (s : Summary) : Bool :=
  s.errors != 0

/-- A line with a count, if it counts anything. -/
def countLine (name : String) (n : Nat) : String :=
  if n = 0 then "" else "    " ++ name ++ ": " ++ toString n ++ "\n"

/-- The summary in text; that of a migration tells how many files changed. -/
def text (migration : Bool) (s : Summary) : String :=
  "\nSummary:\n  Files checked: " ++ toString s.files ++ "\n" ++
    (if migration then "  Files changed: " ++ toString s.changed ++ "\n" else "") ++
    if s.total = 0 then "  No issues found\n"
    else "  Issues found:\n" ++ countLine "Errors" s.errors ++ countLine "Warnings" s.warnings ++
      countLine "Info" s.infos

def toJson (s : Summary) : Json :=
  .object [("errors", .number s.errors), ("warnings", .number s.warnings),
    ("info", .number s.infos), ("total", .number s.total)]

end Summary

def diagnosticsJson (r : FileReport) : Json :=
  .array (r.diagnostics.map Diagnostic.toJson)

def checkJson (reports : List FileReport) : Json :=
  let summary := Summary.ofReports reports
  let file (r : FileReport) : Json :=
    .object [("path", .string r.path), ("diagnostics", diagnosticsJson r)]
  .object [("files_checked", .number summary.files), ("files", .array (reports.map file)),
    ("summary", summary.toJson)]

def migrationJson (write : Bool) (reports : List FileReport) : Json :=
  let summary := Summary.ofReports reports
  let file (r : FileReport) : Json :=
    .object [("path", .string r.path), ("changed", .bool r.isChanged),
      ("written", .bool (write && r.isChanged)), ("applied", .array (r.applied.map .string)),
      ("diagnostics", diagnosticsJson r)]
  .object [("files_checked", .number summary.files), ("files_changed", .number summary.changed),
    ("files", .array (reports.map file)), ("summary", summary.toJson)]

def infoFields (info : RecipeInfo) : List (String × Json) :=
  [("id", .string info.id), ("display_name", .string info.displayName),
    ("description", .string info.description)]

mutual

/-- A recipe; one without steps has no field for them. -/
def descriptorJson : Recipe.Descriptor → Json
  | .mk info [] => .object (infoFields info)
  | .mk info (step :: steps) =>
    .object (infoFields info ++ [("steps", .array (descriptorJson step :: descriptorsJson steps))])

def descriptorsJson : List Recipe.Descriptor → List Json
  | [] => []
  | d :: ds => descriptorJson d :: descriptorsJson ds

end

def recipesJson (ds : List Recipe.Descriptor) : Json :=
  .array (descriptorsJson ds)

def recipesText (ds : List Recipe.Descriptor) : String :=
  String.join (ds.map fun d =>
    d.info.id ++ "\n  " ++ d.info.displayName ++ "\n  " ++ d.info.description ++ "\n" ++
      String.join (d.steps.map fun step => "  - " ++ step.info.id ++ "\n"))

end RuleLang
