import RuleLang.CommandLine.Arguments
import RuleLang.CommandLine.FileReport
import RuleLang.CommandLine.FileTree
import RuleLang.CommandLine.Selection
import RuleLang.Config.Toml
import RuleLang.Element.Dump
import RuleLang.Recipe.Run

/-!
# Commands

What each command answers, and which files it writes. A command sees the files at the paths that
its invocation names, and nothing else.

## Main definitions

* `Outcome` — what a command leaves behind.
* `Invocation.places` — the paths that a command looks at.
* `Invocation.run` — the outcome of an invocation.
* `runArguments` — the same from the arguments of the program.
-/

namespace RuleLang

structure Outcome where
  stdout : String := ""
  stderr : String := ""
  exitCode : Nat := 0
  /-- Files with their new texts. -/
  written : List (String × List Char) := []

/-- What is found at a path. -/
abbrev Lookup := String → Option FileTree

/-- Why a command cannot be carried out. -/
inductive CommandFailure where
  | noConfig (path : String)
  | unreadableConfig (path reason : String)
  | invalidConfig (path : String)
  | noPath (path : String)
  | unreadable (path reason : String)
  | selection (fault : SelectionFault)
  | failure (failure : Failure)

namespace CommandFailure

def message : CommandFailure → String
  | .noConfig path => "Configuration file not found: " ++ path
  | .unreadableConfig path reason =>
    "Failed to read configuration file " ++ path ++ ": " ++ reason
  | .invalidConfig path =>
    "Invalid configuration file " ++ path ++ ": " ++
      (Failure.config "not a document of known settings").message .numbered
  | .noPath path => "Path does not exist: " ++ path
  | .unreadable path reason => "Failed to read " ++ path ++ ": " ++ reason
  | .selection fault => fault.message
  | .failure f => f.message .numbered

/-- A command that fails says why. -/
def outcome (f : CommandFailure) : Outcome :=
  { stderr := "Error: " ++ f.message ++ "\n", exitCode := 1 }

end CommandFailure

namespace CommandLine

/-! ## Files -/

def noSuchFile : String :=
  "No such file or directory (os error 2)"

def isDirectory : String :=
  "Is a directory (os error 21)"

/-- The bytes of a file, or why there are none. -/
def readFile (look : Lookup) (path : String) : Except String (List UInt8) :=
  match look path with
  | none => .error noSuchFile
  | some (.directory _) => .error isDirectory
  | some (.file content) => .ok content

/-- The configuration file that is used where none is named and this one exists. -/
def defaultConfigPath : String :=
  "drl-rewrite.toml"

/-- The configuration in a file that exists. -/
def readConfig (look : Lookup) (path : String) : Except CommandFailure Config :=
  match readFile look path with
  | .error reason => .error (.unreadableConfig path reason)
  | .ok bytes =>
    match Utf8.decode bytes with
    | .error _ => .error (.unreadableConfig path "stream did not contain valid UTF-8")
    | .ok source =>
      match Config.ofToml? source with
      | some config => .ok config
      | none => .error (.invalidConfig path)

def loadConfig (look : Lookup) (path? : Option String) : Except CommandFailure Config :=
  match path? with
  | some path => if (look path).isNone then .error (.noConfig path) else readConfig look path
  | none =>
    if (look defaultConfigPath).isNone then .ok {} else readConfig look defaultConfigPath

/-- Files with their paths, without those that are there already under another spelling. -/
def addFiles (files : List (String × List UInt8)) :
    List (String × List UInt8) → List (String × List UInt8)
  | [] => files
  | f :: more =>
    if files.any fun g => Path.normal g.1 == Path.normal f.1 then addFiles files more
    else addFiles (files ++ [f]) more

/-- The files at paths: a path of a file stands for it whatever its name, one of a directory for the
rule files below it. -/
def discover (look : Lookup) (files : List (String × List UInt8)) :
    List String → Except CommandFailure (List (String × List UInt8))
  | [] => .ok files
  | path :: paths =>
    match look path with
    | none => .error (.noPath path)
    | some (.file content) => discover look (addFiles files [(path, content)]) paths
    | some tree => discover look (addFiles files (tree.ruleFiles path path)) paths

/-! ## Commands -/

/-- What is written for all files, and the exit code that tells whether there were errors. -/
def finish (stdout stderr : String) (reports : List FileReport)
    (written : List (String × List Char) := []) : Outcome :=
  { stdout, stderr, written, exitCode := if (Summary.ofReports reports).hasErrors then 1 else 0 }

def checkFile (config : ParserConfig) (file : String × List UInt8) : FileReport :=
  let (path, bytes) := file
  { path
    source := Utf8.decodeLossy bytes
    diagnostics := match Document.readBytes config 0 path bytes with
      | .ok document => document.diagnostics
      | .error f => [f.toDiagnostic .numbered path] }

def check (look : Lookup) (config : Config) (paths : List String) (form : OutputForm) :
    Except CommandFailure Outcome := do
  let files ← discover look [] paths
  let reports := files.map (checkFile config.parser)
  match form with
  | .text =>
    return finish (String.join (reports.map FileReport.diagnosticsText) ++
      (Summary.ofReports reports).text false) "" reports
  | .json => return finish ((checkJson reports).pretty ++ "\n") "" reports

def migrateFile (runner : Runner) (recipes : List Recipe) (file : String × List UInt8) :
    FileReport :=
  let (path, bytes) := file
  match Utf8.decode bytes with
  | .error offset =>
    { path
      source := []
      diagnostics := [(Failure.invalidUtf8 path offset).toDiagnostic .numbered path] }
  | .ok source =>
    match runner.run path source recipes with
    | .ok o => ⟨path, source, some o.text, o.applied, o.diagnostics⟩
    | .error f => ⟨path, source, none, [], [f.toDiagnostic .numbered path]⟩

def migrate (look : Lookup) (config : Config) (paths : List String) (write : Bool)
    (requested disabled : List String) (form : OutputForm) : Except CommandFailure Outcome := do
  let recipes ← (selectRecipes requested disabled config.migration).mapError .selection
  let files ← discover look [] paths
  let reports := files.map (migrateFile (Runner.ofConfig config) recipes)
  let written :=
    if write then reports.filterMap fun r => r.changedText?.map fun text => (r.path, text) else []
  match form with
  | .text =>
    return finish (String.join (reports.map (FileReport.migrationText write)) ++
      (Summary.ofReports reports).text true)
      (String.join (reports.map FileReport.diagnosticsText)) reports written
  | .json => return finish ((migrationJson write reports).pretty ++ "\n") "" reports written

def tree (look : Lookup) (config : Config) (path : String) (trivia : Bool) :
    Except CommandFailure Outcome := do
  let bytes ← (readFile look path).mapError (.unreadable path)
  let document ← (Document.readBytes config.parser 0 path bytes).mapError .failure
  return {
    stdout := String.ofList (document.tree.element.dump { trivia })
    stderr := textReports document.diagnostics document.tree.text }

def recipes (config : Config) (form : OutputForm) : Outcome :=
  let all := Recipe.ids.filterMap fun id => (Recipe.ofId? config.migration id).toOption
  let ds := Recipe.descriptors all
  match form with
  | .text => { stdout := recipesText ds }
  | .json => { stdout := (recipesJson ds).pretty ++ "\n" }

end CommandLine

namespace Invocation

/-- The paths that a command looks at. -/
def places (i : Invocation) : List String :=
  i.config?.getD CommandLine.defaultConfigPath ::
    match i.command with
    | .check paths _ => paths
    | .migrate paths _ _ _ _ => paths
    | .tree file _ => [file]
    | .recipes _ => []

/-- The configuration is read before anything else. -/
def run (look : Lookup) (i : Invocation) : Outcome :=
  let result := (CommandLine.loadConfig look i.config?).bind fun config =>
    match i.command with
    | .check paths form => CommandLine.check look config paths form
    | .migrate paths write requested disabled form =>
      CommandLine.migrate look config paths write requested disabled form
    | .tree file trivia => CommandLine.tree look config file trivia
    | .recipes form => .ok (CommandLine.recipes config form)
  match result with
  | .ok outcome => outcome
  | .error f => f.outcome

end Invocation

/-- The outcome of a call of the program. -/
def runArguments (look : Lookup) (arguments : List String) : Outcome :=
  match Invocation.ofArguments arguments with
  | .ok invocation => invocation.run look
  | .error fault => { stderr := "error: " ++ fault.message ++ "\n", exitCode := 2 }

end RuleLang
