import RuleLang.Document
import RuleLang.Recipe.Basic
import RuleLang.Rewrite.Batch

/-!
# Running recipes

Recipes are run one after another on a source, and the text is read anew after every change, so that
each recipe sees what the one before it left. The list is run again until nothing changes, up to a
number of cycles.

## Main definitions

* `Runner` — the configuration of runs.
* `RunState`, `Runner.step`, `Runner.cycle` — one recipe, and one pass over all of them.
* `Runner.run` — the whole run.
* `introducedErrors` — the errors that were not there before a change.
-/

namespace RuleLang

structure Runner where
  parser : ParserConfig := {}
  rewrite : RewriteConfig := {}
  /-- At least one pass is made. -/
  maxCycles : Nat := 3
  deriving DecidableEq, Repr

namespace Runner

def ofConfig (config : Config) : Runner :=
  { parser := config.parser, rewrite := config.rewrite }

def withMaxCycles (r : Runner) (n : Nat) : Runner :=
  { r with maxCycles := max n 1 }

end Runner

/-- The outcome of a run. -/
structure RunOutput where
  text : List Char
  /-- What the source had, then for each step what was dropped and which errors are new. -/
  diagnostics : List Diagnostic
  changed : Bool
  /-- The passes that changed the text. -/
  cycles : Nat
  /-- The recipes that changed the text, in the order of their runs. -/
  applied : List String
  deriving DecidableEq, Repr

/-- Two reports of one error: places move when a text is rewritten. -/
def Diagnostic.sameError (a b : Diagnostic) : Bool :=
  a.code == b.code && a.message == b.message

/-- The list without its member at `i`. The last member takes the free place. -/
def swapRemove (l : List Diagnostic) (i : Nat) : List Diagnostic :=
  match l.getLast? with
  | none => []
  | some last => (l.set i last).dropLast

/-- The errors of a text that are not `known`. Each known error accounts for one error only. -/
def introducedErrors (known : List Diagnostic) : List Diagnostic → List Diagnostic
  | [] => []
  | d :: after =>
    if !d.isError then introducedErrors known after
    else
      match known.findIdx? d.sameError with
      | some i => introducedErrors (swapRemove known i) after
      | none => d :: introducedErrors known after

/-- Between the steps of a run. -/
structure RunState where
  tree : SyntaxTree
  text : List Char
  /-- The errors of the text. -/
  errors : List Diagnostic
  diagnostics : List Diagnostic
  applied : List String
  deriving Repr

namespace Runner

def introducedBy (id : String) (d : Diagnostic) : Diagnostic :=
  { d with message := d.message ++ " (introduced by recipe " ++ id ++ ")" }

/-- A rewritten text may be blank. -/
def rereadConfig (r : Runner) : ParserConfig :=
  { r.parser with rejectEmpty := false }

/-- Runs one recipe, and tells whether it changed the text. -/
def step (r : Runner) (recipe : Recipe) (s : RunState) : Except Failure (RunState × Bool) :=
  let edits := recipe.visit s.tree
  if edits.isEmpty then .ok (s, false)
  else
    (s.tree.apply r.rewrite (s.tree.id + 1) edits).bind fun rewritten =>
      let s := { s with diagnostics := s.diagnostics ++ rewritten.diagnostics }
      let text := rewritten.text
      if text == s.text then .ok (s, false)
      else
        (Document.read r.rereadConfig (s.tree.id + 1) s.tree.sourceId text).map fun document =>
          let introduced := introducedErrors s.errors document.diagnostics
          ({ tree := document.tree
             text := text
             errors := document.diagnostics.filter Diagnostic.isError
             diagnostics := s.diagnostics ++ introduced.map (introducedBy recipe.id)
             applied := s.applied ++ [recipe.id] }, true)

/-- Runs all recipes once, and tells whether one of them changed the text. -/
def cycle (r : Runner) : List Recipe → RunState → Except Failure (RunState × Bool)
  | [], s => .ok (s, false)
  | recipe :: recipes, s =>
    (r.step recipe s).bind fun (s, changed) =>
      (r.cycle recipes s).map fun (s, changedLater) => (s, changed || changedLater)

/-- Runs all recipes at most `n` times, until nothing changes. Counts the passes with changes. -/
def cycles (r : Runner) (recipes : List Recipe) : Nat → RunState → Except Failure (RunState × Nat)
  | 0, s => .ok (s, 0)
  | n + 1, s =>
    (r.cycle recipes s).bind fun (s, changed) =>
      if changed then (r.cycles recipes n s).map fun (s, count) => (s, count + 1) else .ok (s, 0)

/-- Runs recipes on a source. -/
def run (r : Runner) (sourceId : String) (source : List Char) (recipes : List Recipe) :
    Except Failure RunOutput :=
  (Document.read r.parser 0 sourceId source).bind fun document =>
    let initial : RunState :=
      { tree := document.tree
        text := source
        errors := document.diagnostics.filter Diagnostic.isError
        diagnostics := document.diagnostics
        applied := [] }
    (r.cycles (Recipe.flatten recipes) r.maxCycles initial).map fun (s, count) =>
      ⟨s.text, s.diagnostics, s.text != source, count, s.applied⟩

/-- Runs recipes on the text of a tree. -/
def runTree (r : Runner) (tree : SyntaxTree) (recipes : List Recipe) : Except Failure RunOutput :=
  r.run tree.sourceId tree.text recipes

end Runner

end RuleLang
