import RuleLang.Kind
import RuleLang.Text.Position

/-!
# Syntax errors

What can be wrong with the order of tokens. A complaint says what was expected and what was found
instead; a syntax error is a complaint with its place.

## Main definitions

* `Complaint`, `Complaint.message` — the cause of a syntax error, and its text.
* `SyntaxError` — a complaint and the token it is about.
* `ErrorClass` — the four classes of complaints.
-/

namespace RuleLang

/-- Classes of complaints. -/
inductive ErrorClass where
  | unexpectedToken
  | missingToken
  | unexpectedEof
  | unknownAttribute
  deriving DecidableEq, Repr

/-- What a name in the grammar is for. -/
inductive Role where
  | name | type | ruleName | queryName | functionName | globalName | windowType
  deriving DecidableEq, Repr

def Role.describe : Role → String
  | .name => "name"
  | .type => "type"
  | .ruleName => "rule name"
  | .queryName => "query name"
  | .functionName => "function name"
  | .globalName => "global name"
  | .windowType => "window type"

/-- Declarations that `end` closes. -/
inductive Block where
  | rule | query | declare
  deriving DecidableEq, Repr

def Block.describe : Block → String
  | .rule => "rule"
  | .query => "query"
  | .declare => "declare"

inductive Complaint where
  | expectedDeclaration (found : Kind)
  | expectedCondition (found : Kind)
  | expectedField (found : Kind)
  | expectedExpression (found : Kind)
  | expectedToken (kind found : Kind)
  | expectedRole (role : Role) (found : Kind)
  | expectedParameters
  | expectedFunctionBody
  | expectedParent
  | expectedNewArguments
  | expectedEnd (block : Block) (found : Kind)
  | unclosedBlock (block : Block)
  | unclosedBrackets
  | unknownAttribute (key : List Char)
  deriving DecidableEq, Repr

namespace Complaint

def errorClass : Complaint → ErrorClass
  | .expectedDeclaration _ | .expectedCondition _ | .expectedField _ | .expectedExpression _ =>
    .unexpectedToken
  | .expectedToken _ _ | .expectedRole _ _ | .expectedParameters | .expectedFunctionBody
  | .expectedParent | .expectedNewArguments | .expectedEnd _ _ => .missingToken
  | .unclosedBlock _ | .unclosedBrackets => .unexpectedEof
  | .unknownAttribute _ => .unknownAttribute

/-- A warning does not make the input invalid. -/
def isWarning (c : Complaint) : Bool :=
  c.errorClass == .unknownAttribute

def message : Complaint → String
  | .expectedDeclaration found => "expected a declaration, found " ++ found.describe
  | .expectedCondition found =>
    "expected a pattern or conditional element, found " ++ found.describe
  | .expectedField found => "expected field declaration, found " ++ found.describe
  | .expectedExpression found => "expected expression, found " ++ found.describe
  | .expectedToken kind found => "expected " ++ kind.describe ++ ", found " ++ found.describe
  | .expectedRole role found => "expected " ++ role.describe ++ ", found " ++ found.describe
  | .expectedParameters => "expected '(' after function name"
  | .expectedFunctionBody => "expected '\x7b' to open the function body"
  | .expectedParent => "expected parent rule name"
  | .expectedNewArguments => "expected '(' or '[' after the type in a new expression"
  | .expectedEnd block found =>
    "expected 'end' to close " ++ block.describe ++ ", found " ++ found.describe
  | .unclosedBlock block => "unexpected end of file, " ++ block.describe ++ " is missing 'end'"
  | .unclosedBrackets => "unexpected end of file inside brackets"
  | .unknownAttribute key => "unknown rule attribute '" ++ String.ofList key ++ "'"

end Complaint

structure SyntaxError where
  complaint : Complaint
  span : Span
  deriving DecidableEq, Repr

namespace SyntaxError

def message (e : SyntaxError) : String :=
  e.complaint.message

def isWarning (e : SyntaxError) : Bool :=
  e.complaint.isWarning

end SyntaxError

end RuleLang
