/-!
# Configuration

## Main definitions

* `ParserConfig`, `RewriteConfig`, `MigrationOptions` — the sections.
* `Config` — all of them.
-/

namespace RuleLang

structure ParserConfig where
  /-- Refuse a source of nothing but blanks. -/
  rejectEmpty : Bool := true
  /-- Record at most so many syntax errors. -/
  maxErrors : Nat := 100
  deriving DecidableEq, Repr, Inhabited

structure RewriteConfig where
  /-- Warn of every edit that is dropped. -/
  reportConflicts : Bool := true
  deriving DecidableEq, Repr, Inhabited

structure MigrationOptions where
  rewriteHalfConstraints : Bool := true
  prefixCustomOperators : Bool := true
  replaceLhsLogicalInfix : Bool := true
  rewriteAgendaGroup : Bool := true
  /-- Operators that count as built in besides those of the language. -/
  extraBuiltinOperators : List String := []
  deriving DecidableEq, Repr, Inhabited

structure Config where
  parser : ParserConfig := {}
  rewrite : RewriteConfig := {}
  migration : MigrationOptions := {}
  deriving DecidableEq, Repr, Inhabited

end RuleLang
