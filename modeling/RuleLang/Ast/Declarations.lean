import RuleLang.Ast.Conditions

/-!
# Views of declarations

## Main definitions

* `CompilationUnit` — a file and its declarations.
* `PackageDecl`, `ImportDecl`, `GlobalDecl`, `FunctionDecl`, `QueryDecl`, `DeclareDecl`,
  `RuleDecl` — the declarations.
* `Attribute`, `ThenClause`, `ActionBlock` — the parts of rules.
-/

namespace RuleLang

abbrev CompilationUnit := View .compilationUnit
abbrev PackageDecl := View .packageDecl
abbrev ImportDecl := View .importDecl
abbrev GlobalDecl := View .globalDecl
abbrev FunctionDecl := View .functionDecl
abbrev QueryDecl := View .queryDecl
abbrev DeclareDecl := View .declareDecl
abbrev RuleDecl := View .ruleDecl
abbrev Attribute := View .attribute
abbrev ThenClause := View .thenClause
abbrev ActionBlock := View .actionBlock

namespace CompilationUnit

def package? (u : CompilationUnit) : Option PackageDecl :=
  Ast.childOf? .packageDecl u.children

def imports (u : CompilationUnit) : List ImportDecl :=
  Ast.childrenOf .importDecl u.children

def globals (u : CompilationUnit) : List GlobalDecl :=
  Ast.childrenOf .globalDecl u.children

def functions (u : CompilationUnit) : List FunctionDecl :=
  Ast.childrenOf .functionDecl u.children

def queries (u : CompilationUnit) : List QueryDecl :=
  Ast.childrenOf .queryDecl u.children

def declares (u : CompilationUnit) : List DeclareDecl :=
  Ast.childrenOf .declareDecl u.children

def rules (u : CompilationUnit) : List RuleDecl :=
  Ast.childrenOf .ruleDecl u.children

/-- The regions between declarations that could not be read. -/
def errors (u : CompilationUnit) : List (View .error) :=
  Ast.childrenOf .error u.children

end CompilationUnit

def PackageDecl.name? (p : PackageDecl) : Option (List Char) :=
  Ast.qualifiedName? p.children

namespace ImportDecl

def isStatic (i : ImportDecl) : Bool :=
  Ast.hasToken .staticKw i.children

def isFunction (i : ImportDecl) : Bool :=
  Ast.hasToken .functionKw i.children

def isWildcard (i : ImportDecl) : Bool :=
  Ast.hasToken .star i.children

/-- The imported path, with `.*` if it has one. -/
def path? (i : ImportDecl) : Option (List Char) :=
  (Ast.qualifiedName? i.children).map fun path => if i.isWildcard then path ++ ['.', '*'] else path

end ImportDecl

namespace GlobalDecl

def type? (g : GlobalDecl) : Option (List Char) :=
  Ast.typeName? g.children

def name? (g : GlobalDecl) : Option (List Char) :=
  let tokens := (Ast.significantTokens g.children).filter fun t => t.kind != .semicolon
  (tokens.getLast?.filter fun t => t.kind != .globalKw).map Leaf.text

end GlobalDecl

namespace Ast

/-- The names of the parameters of a function or query. A parameter without a type has its name
where else the type stands. -/
def parameterNames (children : List Element) : List (List Char) :=
  match childOf? .parameterList children with
  | none => []
  | some list =>
    (childrenOf .parameter list.children).filterMap fun p =>
      match (significantTokens p.children).getLast? with
      | some t => some t.text
      | none => typeName? p.children

end Ast

namespace FunctionDecl

def returnType? (f : FunctionDecl) : Option (List Char) :=
  Ast.typeName? f.children

def name? (f : FunctionDecl) : Option (List Char) :=
  ((Ast.significantTokens f.children).find? fun t => t.kind != .functionKw).map Leaf.text

def parameters (f : FunctionDecl) : List (List Char) :=
  Ast.parameterNames f.children

/-- The body with its braces. -/
def body? (f : FunctionDecl) : Option (List Char) :=
  (Ast.childOf? .functionBody f.children).map View.text

end FunctionDecl

namespace QueryDecl

def name? (q : QueryDecl) : Option (List Char) :=
  Ast.declName? q.children

def parameters (q : QueryDecl) : List (List Char) :=
  Ast.parameterNames q.children

def patterns (q : QueryDecl) : List Pattern :=
  Ast.descendantsOf .pattern q.element

end QueryDecl

namespace DeclareDecl

def name? (d : DeclareDecl) : Option (List Char) :=
  Ast.qualifiedName? d.children

def isTrait (d : DeclareDecl) : Bool :=
  Ast.hasToken .traitKw d.children

def supertypes (d : DeclareDecl) : List (List Char) :=
  ((Ast.childrenOf .qualifiedName d.children).drop 1).map View.text

/-- Name and type of every field that has both. -/
def fields (d : DeclareDecl) : List (List Char × List Char) :=
  (Ast.childrenOf .fieldDecl d.children).filterMap fun f =>
    (Ast.significantTokens f.children).head?.bind fun name =>
      (Ast.typeName? f.children).map fun type => (name.text, type)

end DeclareDecl

namespace Attribute

def keyToken? (a : Attribute) : Option Leaf :=
  (Ast.significantTokens a.children).head?

def key? (a : Attribute) : Option (List Char) :=
  a.keyToken?.map Leaf.text

/-- The key is a keyword of the language. -/
def isKnown (a : Attribute) : Bool :=
  a.keyToken?.any fun t => t.kind.isAttributeKeyword

/-- The value as written. -/
def value? (a : Attribute) : Option (List Char) :=
  (Ast.childOf? .attributeValue a.children).map View.text

end Attribute

namespace RuleDecl

def name? (r : RuleDecl) : Option (List Char) :=
  Ast.declName? r.children

/-- The rule that this one extends. -/
def parent? (r : RuleDecl) : Option (List Char) :=
  (Ast.childOf? .ruleExtends r.children).bind fun e =>
    ((Ast.significantTokens e.children).find? fun t => t.kind != .extendsKw).map fun t =>
      Ast.unquote t.text

def attributes (r : RuleDecl) : List Attribute :=
  match Ast.childOf? .attributeList r.children with
  | some list => Ast.childrenOf .attribute list.children
  | none => []

/-- The first attribute with a key. -/
def attribute? (r : RuleDecl) (key : List Char) : Option Attribute :=
  r.attributes.find? fun a => a.key? == some key

def whenClause? (r : RuleDecl) : Option WhenClause :=
  Ast.childOf? .whenClause r.children

def thenClause? (r : RuleDecl) : Option ThenClause :=
  Ast.childOf? .thenClause r.children

end RuleDecl

def ThenClause.action? (t : ThenClause) : Option ActionBlock :=
  Ast.childOf? .actionBlock t.children

namespace ActionBlock

def isEmpty (a : ActionBlock) : Bool :=
  !Ast.hasToken .actionText a.children

/-- The action code, without the trivia around it. -/
def code (a : ActionBlock) : List Char :=
  ((Ast.tokenOf? .actionText a.children).map Leaf.text).getD []

end ActionBlock

end RuleLang
