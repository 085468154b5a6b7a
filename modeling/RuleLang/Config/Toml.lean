import RuleLang.Config
import RuleLang.Toml.Document

/-!
# Configuration files

A configuration as a TOML document with one table for each section. Everything can be left out, but
nothing unknown can stand there.

## Main definitions

* `Config.ofToml?` — the configuration that a document holds.
* `Config.toToml` — the document of a configuration, with all settings.
-/

namespace RuleLang

/-- How the settings of a section are taken from values, in their order. -/
abbrev Settings (σ : Type) := List (String × (Toml.Value → σ → Option σ))

namespace Settings

/-- Reads a section over the values that it has by default. An array gives the first settings by
their order. -/
def read {σ : Type} (settings : Settings σ) (initial : σ) : Toml.Value → Option σ
  | .table fields =>
    fields.foldlM (fun s (key, value) =>
      ((settings.find? fun setting => setting.1.toList == key).bind fun setting =>
        setting.2 value s)) initial
  | .array items =>
    (settings.zip items).foldlM (fun s (setting, value) => setting.2 value s) initial
  | _ => none

end Settings

namespace Toml.Value

def toBool? : Value → Option Bool
  | .boolean b => some b
  | _ => none

/-- Counts are numbers of at most 64 bits. -/
def toCount? : Value → Option Nat
  | .integer (.ofNat n) => if n < UInt64.size then some n else none
  | _ => none

def toText? : Value → Option String
  | .string text => some (String.ofList text)
  | _ => none

def toTexts? : Value → Option (List String)
  | .array items => items.mapM toText?
  | _ => none

end Toml.Value

def ParserConfig.settings : Settings ParserConfig := [
  ("reject_empty", fun v c => v.toBool?.map fun b => { c with rejectEmpty := b }),
  ("max_errors", fun v c => v.toCount?.map fun n => { c with maxErrors := n })]

def RewriteConfig.settings : Settings RewriteConfig := [
  ("report_conflicts", fun v c => v.toBool?.map fun b => { c with reportConflicts := b })]

def MigrationOptions.settings : Settings MigrationOptions := [
  ("rewrite_half_constraints", fun v o =>
    v.toBool?.map fun b => { o with rewriteHalfConstraints := b }),
  ("prefix_custom_operators", fun v o =>
    v.toBool?.map fun b => { o with prefixCustomOperators := b }),
  ("replace_lhs_logical_infix", fun v o =>
    v.toBool?.map fun b => { o with replaceLhsLogicalInfix := b }),
  ("rewrite_agenda_group", fun v o => v.toBool?.map fun b => { o with rewriteAgendaGroup := b }),
  ("extra_builtin_operators", fun v o =>
    v.toTexts?.map fun ts => { o with extraBuiltinOperators := ts })]

namespace Config

def settings : Settings Config := [
  ("parser", fun v c => (ParserConfig.settings.read {} v).map fun p => { c with parser := p }),
  ("rewrite", fun v c => (RewriteConfig.settings.read {} v).map fun r => { c with rewrite := r }),
  ("migration", fun v c =>
    (MigrationOptions.settings.read {} v).map fun m => { c with migration := m })]

/-- The configuration that a document holds. -/
def ofToml? (source : List Char) : Option Config :=
  (Toml.parse source).bind (settings.read {})

/-- A list of strings: more than one stand on a line each. -/
def writeTexts : List String → String
  | [] => "[]"
  | [t] => "[" ++ String.ofList (Toml.writeText t.toList) ++ "]"
  | ts => "[\n" ++ String.join (ts.map fun t =>
      "    " ++ String.ofList (Toml.writeText t.toList) ++ ",\n") ++ "]"

def writeSection (name : String) (settings : List (String × String)) : String :=
  "[" ++ name ++ "]\n" ++ String.join (settings.map fun (key, value) =>
    key ++ " = " ++ value ++ "\n")

/-- The document of a configuration. -/
def toToml (c : Config) : String :=
  "\n".intercalate [
    writeSection "parser" [
      ("reject_empty", toString c.parser.rejectEmpty),
      ("max_errors", toString c.parser.maxErrors)],
    writeSection "rewrite" [("report_conflicts", toString c.rewrite.reportConflicts)],
    writeSection "migration" [
      ("rewrite_half_constraints", toString c.migration.rewriteHalfConstraints),
      ("prefix_custom_operators", toString c.migration.prefixCustomOperators),
      ("replace_lhs_logical_infix", toString c.migration.replaceLhsLogicalInfix),
      ("rewrite_agenda_group", toString c.migration.rewriteAgendaGroup),
      ("extra_builtin_operators", writeTexts c.migration.extraBuiltinOperators)]]

end Config

end RuleLang
