import RuleLang.Grammar.Production

/-!
# Declarations

The productions for the top level of a file and for everything but conditions and expressions.

A declaration owns the trivia before it and the trivia after it through the first line break. All
other nodes start and end at significant tokens.
-/

namespace RuleLang.Grammar

/-- The productions refer to each other by name. -/
abbrev Rule := Grammar Production

namespace Declarations

/-- A file. -/
def compilationUnit : Rule :=
  node .compilationUnit (.call .declarations >> .trivia)

/-- Any number of declarations, with whatever else stands between them. -/
def declarations : Rule :=
  .recovered >> .look fun a =>
    match a.current with
    | .eof => .skip
    | .packageKw => .call .packageDecl >> .call .declarations
    | .importKw => .call .importDecl >> .call .declarations
    | .globalKw => .call .globalDecl >> .call .declarations
    | .functionKw => .call .functionDecl >> .call .declarations
    | .queryKw => .call .queryDecl >> .call .declarations
    | .declareKw => .call .declareDecl >> .call .declarations
    | .ruleKw => .call .ruleDecl >> .call .declarations
    | _ => .call .strayTokens >> .call .declarations

/-- Tokens that start no declaration, up to the next that does. -/
def strayTokens : Rule :=
  node .error
    (fail .expectedDeclaration >> bump >>
      .look (fun a => .take (a.countUntil fun k => k == .eof || k.isDeclarationStart)) >>
      .lineTrivia)

/-- `package a.b.c [;]` -/
def packageDecl : Rule :=
  node .packageDecl (bump >> .call .qualifiedName >> eat .semicolon >> .lineTrivia)

/-- `import [static | function] a.b.C[.*] [;]` -/
def importDecl : Rule :=
  node .importDecl
    (bump >> eat .staticKw .skip (eat .functionKw) >> .call .qualifiedName >>
      when (fun a => a.isAt .dot && a.nth 1 == .star) (.take 2) >>
      eat .semicolon >> .lineTrivia)

/-- `global Type name [;]` -/
def globalDecl : Rule :=
  node .globalDecl
    (bump >> .call .typeRef >> expectName .globalName >> eat .semicolon >> .lineTrivia)

/-- `function Type name ( parameters ) { body }` -/
def functionDecl : Rule :=
  node .functionDecl
    (bump >> .call .typeRef >> expectName .functionName >>
      whenAt .lParen (.call .parameterList) (.complain .expectedParameters) >>
      whenAt .lBrace (inner .functionBody balanced)
        (.complain .expectedFunctionBody >> recoverTo []) >>
      .lineTrivia)

/-- `query name [( parameters )] condition* end` -/
def queryDecl : Rule :=
  node .queryDecl
    (bump >> .call (.declName .queryName) >> whenAt .lParen (.call .parameterList) >>
      .call .conditions >> .call (.blockEnd .query) >> .lineTrivia)

/-- `declare [trait] Name [extends Super, ...] annotation* field* end` -/
def declareDecl : Rule :=
  node .declareDecl
    (bump >> eat .traitKw >> .call .qualifiedName >>
      eat .extendsKw (.call .qualifiedName >> .call .supertypes) >>
      .call .annotations >> .call .fields >> .call (.blockEnd .declare) >> .lineTrivia)

def supertypes : Rule :=
  eat .comma (.call .qualifiedName >> .call .supertypes)

def annotations : Rule :=
  whenAt .at (.call .annotated >> .call .annotations)

/-- `@name [( raw tokens )]` -/
def annotated : Rule :=
  inner .annotationTag (bump >> .call .qualifiedName >> whenAt .lParen balanced)

/-- The fields of a declared type, up to a boundary keyword. -/
def fields : Rule :=
  .look fun a =>
    if a.current == .eof || a.current.isBoundaryKeyword then .skip
    else if a.atName && a.nth 1 == .colon then .call .field >> .call .fields
    else fail .expectedField >> recoverTo [] >> .call .fields

/-- `name : Type [= initializer] annotation*` -/
def field : Rule :=
  inner .fieldDecl
    (.take 2 >> .call .typeRef >> eat .eq (.call .expr) >> .call .annotations)

/-- `rule name [extends parent] annotation* attribute* when conditions then action end` -/
def ruleDecl : Rule :=
  node .ruleDecl
    (bump >> .call (.declName .ruleName) >> whenAt .extendsKw (.call .parent) >>
      .call .annotations >>
      when (fun a => a.current.isAttributeKeyword || a.isAt .ident) (.call .attributeList) >>
      whenAt .whenKw .skip
        (fail (.expectedToken .whenKw) >> recoverTo [.whenKw, .thenKw]) >>
      whenAt .whenKw (.call .whenClause) >>
      whenAt .thenKw .skip (fail (.expectedToken .thenKw) >> recoverTo [.thenKw]) >>
      whenAt .thenKw (.call .thenClause) >>
      .call (.blockEnd .rule) >> .lineTrivia)

/-- The name of a rule or query: a string or a name. -/
def declName (role : Role) : Rule :=
  when (fun a => a.isAt .stringLit || a.atName) (inner .ruleName bump)
    (fail (.expectedRole role))

/-- `extends parent` -/
def parent : Rule :=
  inner .ruleExtends
    (bump >> when (fun a => a.isAt .stringLit || a.atName) bump (.complain .expectedParent))

def attributeList : Rule :=
  inner .attributeList (.call .attributes)

/-- Attributes, separated by commas or nothing, with the keyword `attributes` between them. -/
def attributes : Rule :=
  .look fun a =>
    if a.isAt .attributesKw then bump >> eat .colon >> .call .attributes
    else if a.isAt .comma then bump >> .call .attributes
    else if a.current.isAttributeKeyword || a.isAt .ident then
      .call .attribute >> .call .attributes
    else .skip

/-- A key and its value, if it has one: strings, a number, a truth value or a group in parentheses.
A key that is no keyword is worth a warning. -/
def attributeItem : Rule :=
  inner .attribute
    (.look (fun a =>
        match a.currentToken? with
        | some t => if t.kind == .ident then .complain (.unknownAttribute t.text) else .skip
        | none => .skip) >>
      bump >>
      .look fun a =>
        match a.current with
        | .stringLit => inner .attributeValue (bump >> .call .stringList)
        | .intLit | .floatLit | .trueKw | .falseKw => inner .attributeValue bump
        | .minus =>
          if a.nth 1 == .intLit || a.nth 1 == .floatLit then inner .attributeValue (.take 2)
          else .skip
        | .lParen => inner .attributeValue balanced
        | _ => .skip)

def stringList : Rule :=
  when (fun a => a.isAt .comma && a.nth 1 == .stringLit) (.take 2 >> .call .stringList)

/-- `when [:] condition*` -/
def whenClause : Rule :=
  inner .whenClause (bump >> eat .colon >> .call .conditions)

/-- `then [action]` -/
def thenClause : Rule :=
  inner .thenClause (bump >> inner .actionBlock (eat .actionText))

def blockEnd (block : Block) : Rule :=
  eat .endKw .skip
    (whenAt .eof (.complain (.unclosedBlock block)) (fail (.expectedEnd block)))

/-- `( [Type name, ...] )` -/
def parameterList : Rule :=
  inner .parameterList
    (bump >> whenAt .rParen .skip (.call .parameters) >> expect .rParen)

def parameters : Rule :=
  .call .parameter >> eat .comma (.call .parameters)

/-- `Type [name]` -/
def parameter : Rule :=
  inner .parameter (.call .typeRef >> when (·.atName) bump)

/-- `a.b.c` -/
def qualifiedName : Rule :=
  when (·.atName) (inner .qualifiedName (bump >> .call .nameParts))
    (fail (.expectedRole .name))

def nameParts : Rule :=
  when (fun a => a.isAt .dot && (a.nth 1).isName) (.take 2 >> .call .nameParts)

/-- `a.b.C [< raw tokens >] ([])*` -/
def typeRef : Rule :=
  when (·.atName)
    (inner .typeRef
      (.call .qualifiedName >>
        whenAt .lt (.look fun a => .take (a.typeArguments 0)) >>
        .call .dimensions))
    (fail (.expectedRole .type))

def dimensions : Rule :=
  when (fun a => a.isAt .lBracket && a.nth 1 == .rBracket) (.take 2 >> .call .dimensions)

end Declarations

end RuleLang.Grammar
