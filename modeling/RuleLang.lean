import RuleLang.Element.Trivia
import RuleLang.Main
import RuleLang.Proofs.Parser.Lossless
import RuleLang.Rewrite.Session
import RuleLang.Tree.Builder
import RuleLang.Proofs.Grammar.Agree
import RuleLang.Proofs.Grammar.Carries
import RuleLang.Proofs.Grammar.Transfer
import RuleLang.Proofs.Lexeme.Boundary
import RuleLang.Proofs.Lexer.Relex
import RuleLang.Proofs.Parser.Changed
import RuleLang.Proofs.Recipe.RespelledText
import RuleLang.Proofs.Element.Spacing
import RuleLang.Proofs.Grammar.Spacing
import RuleLang.Proofs.Grammar.SpacedRules
import RuleLang.Proofs.Tree.Identity
import RuleLang.Proofs.Rewrite.Rebuild
import RuleLang.Proofs.Rewrite.Settling
import RuleLang.Proofs.Rewrite.Outcome
import RuleLang.Proofs.Grammar.Sight
import RuleLang.Proofs.Grammar.Steady
import RuleLang.Proofs.Grammar.Replay
import RuleLang.Proofs.Parser.Separate
import RuleLang.Proofs.Parser.Append
import RuleLang.Proofs.Lexeme.LineEnd
import RuleLang.Proofs.Lexer.Concat
import RuleLang.Proofs.Parser.Sealed
import RuleLang.Proofs.Visitor.Walk
import RuleLang.Proofs.Rewrite.Marking
import RuleLang.Proofs.Recipe.LhsLogical
import RuleLang.Proofs.Parser.Capped
import RuleLang.Proofs.Recipe.Content
import RuleLang.Proofs.Recipe.Converged
import RuleLang.Proofs.Element.Graded
import RuleLang.Proofs.Grammar.Makes
import RuleLang.Proofs.Parser.Graded
import RuleLang.Proofs.Lexeme.Prefix
import RuleLang.Proofs.Lexer.Part
import RuleLang.Proofs.Grammar.Spends
import RuleLang.Proofs.Grammar.SpendsRules
import RuleLang.Proofs.Grammar.Cut
import RuleLang.Proofs.Grammar.Confined
import RuleLang.Proofs.Grammar.ConfinedRules
import RuleLang.Proofs.Grammar.Gathers
import RuleLang.Proofs.Parser.Fragments
import RuleLang.Proofs.Element.Everywhere
import RuleLang.Proofs.Grammar.Mends
import RuleLang.Proofs.Grammar.MendsRules
import RuleLang.Proofs.Parser.Recovery
import RuleLang.Proofs.Element.Prefixed
import RuleLang.Proofs.Grammar.Marked
import RuleLang.Proofs.Grammar.Admits
import RuleLang.Proofs.Grammar.AdmitsRules
import RuleLang.Proofs.Grammar.AdmitsOperators
import RuleLang.Proofs.Lexeme.Mark
import RuleLang.Proofs.Parser.Marked
import RuleLang.Proofs.Recipe.CustomOperator
import RuleLang.Proofs.Lexer.Consequences
import RuleLang.Proofs.Element.Edges
import RuleLang.Proofs.Grammar.Flushes
import RuleLang.Proofs.Grammar.Shuts
import RuleLang.Proofs.Grammar.ShutsRules
import RuleLang.Proofs.Parser.Declared
import RuleLang.Proofs.Recipe.Consequences
import RuleLang.Proofs.Text.Slice
import RuleLang.Proofs.Lexeme.Parted
import RuleLang.Proofs.Lexer.Restart
import RuleLang.Proofs.Text.LineMap
import RuleLang.Proofs.Grammar.Anchored
import RuleLang.Proofs.Diagnostic.Order
import RuleLang.Proofs.Diagnostic.Located
import RuleLang.Proofs.Grammar.Budget
import RuleLang.Proofs.Grammar.BudgetRules
import RuleLang.Proofs.Parser.Bounded
import RuleLang.Proofs.Tree.Clocked
import RuleLang.Proofs.Grammar.Builds
import RuleLang.Proofs.Parser.Built
import RuleLang.Proofs.Rewrite.Reordered
import RuleLang.Proofs.Grammar.Outside
import RuleLang.Proofs.Rewrite.MarkedWalk
import RuleLang.Proofs.Recipe.AgendaGroup
import RuleLang.Proofs.Recipe.HalfConstraint
import RuleLang.Proofs.Recipe.BuiltIn
import RuleLang.Proofs.Recipe.Passes
import RuleLang.Proofs.Parser.Clauses
import RuleLang.Proofs.Rewrite.Sessions
import RuleLang.Proofs.Lexeme.ConsequenceEnd
import RuleLang.Proofs.Parser.TypeDeclarations
import RuleLang.Proofs.Recipe.IntroducedErrors
import RuleLang.Proofs.Visitor.Traversal
import RuleLang.Proofs.Parser.RuleHeaders
import RuleLang.Proofs.Recipe.RenamedKeys
import RuleLang.Proofs.Element.Ownership
import RuleLang.Proofs.Lexeme.LongestWord
import RuleLang.Proofs.Lexer.Faithful
import RuleLang.Proofs.Lexer.Malformed
import RuleLang.Proofs.Text.Quoted
import RuleLang.Proofs.Element.Dumped
import RuleLang.Proofs.CommandLine.Selection
