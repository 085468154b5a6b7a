/-!
# Kinds of syntax

Tokens and nodes of a rule file share one enumeration and one numbering: blanks and comments
below 10, keywords below 100, punctuation below 160, names and literals below 200, nodes from 200.

## Main definitions

* `Kind` — what a token or a node is.
* `Kind.raw`, `Kind.ofRaw?` — the number of a kind, and back.
* `Kind.spelling?` — the one text of a keyword or punctuation token.
* `Kind.ofKeyword?` — the keyword that a word spells.
* `Kind.describe` — how messages name a kind.
-/

namespace RuleLang

inductive Kind where
  -- Blanks and comments
  | whitespace | newline | commentLine | commentBlock
  -- Declaration keywords
  | packageKw | importKw | globalKw | functionKw | ruleKw | queryKw | declareKw | endKw | whenKw
  | thenKw | extendsKw | staticKw | traitKw
  -- Keywords of conditions
  | andKw | orKw | notKw | existsKw | evalKw | forallKw | fromKw | accumulateKw | collectKw
  | overKw | windowKw | entryPointKw | inKw | instanceofKw | newKw
  -- Operators spelled as words
  | matchesKw | containsKw | memberOfKw | soundslikeKw | excludesKw | strKw
  -- Literal keywords
  | trueKw | falseKw | nullKw
  -- Rule attribute keywords
  | salienceKw | noLoopKw | agendaGroupKw | ruleflowGroupKw | activationGroupKw | autoFocusKw
  | lockOnActiveKw | dateEffectiveKw | dateExpiresKw | dialectKw | enabledKw | durationKw
  | timerKw | calendarsKw | refractKw | directKw | attributesKw
  -- Punctuation and operators
  | lParen | rParen | lBrace | rBrace | lBracket | rBracket | semicolon | comma | dot | dotDot
  | colon | colonColon | colonEq | question | at | hash | hashHash | arrow | eq | eqEq | neq | lt
  | gt | ltEq | gtEq | ampAmp | pipePipe | amp | pipe | caret | tilde | bang | bangDot | plus
  | minus | star | slash | percent | plusPlus | minusMinus | plusEq | minusEq | starEq | slashEq
  -- Names, literals and opaque text
  | ident | stringLit | intLit | floatLit | actionText | verbatim | error | eof
  -- Declarations
  | compilationUnit | packageDecl | importDecl | globalDecl | functionDecl | functionBody
  | parameterList | parameter | queryDecl | declareDecl | fieldDecl | annotationTag | ruleDecl
  | ruleName | ruleExtends | attributeList | attribute | attributeValue | whenClause | thenClause
  | actionBlock | qualifiedName | typeRef
  -- Conditional elements
  | lhsOr | lhsAnd | lhsNot | lhsExists | lhsEval | lhsForall | lhsParen | pattern | binding
  | constraint | fromClause | accumulateClause | collectClause | entryPoint | windowClause
  -- Expressions
  | binaryExpr | relationalExpr | halfConstraint | unaryExpr | parenExpr | literal | nameRef
  | fieldAccess | methodCall | argList | indexExpr | ternaryExpr | castExpr | inlineCast
  | arrayInit | newExpr | operator | operatorParams
  deriving DecidableEq, Repr, Inhabited

namespace Kind

/-- Every kind, in the order of the numbering. -/
def all : List Kind := [
  .whitespace, .newline, .commentLine, .commentBlock, .packageKw, .importKw, .globalKw,
  .functionKw, .ruleKw, .queryKw, .declareKw, .endKw, .whenKw, .thenKw, .extendsKw, .staticKw,
  .traitKw, .andKw, .orKw, .notKw, .existsKw, .evalKw, .forallKw, .fromKw, .accumulateKw,
  .collectKw, .overKw, .windowKw, .entryPointKw, .inKw, .instanceofKw, .newKw, .matchesKw,
  .containsKw, .memberOfKw, .soundslikeKw, .excludesKw, .strKw, .trueKw, .falseKw, .nullKw,
  .salienceKw, .noLoopKw, .agendaGroupKw, .ruleflowGroupKw, .activationGroupKw, .autoFocusKw,
  .lockOnActiveKw, .dateEffectiveKw, .dateExpiresKw, .dialectKw, .enabledKw, .durationKw,
  .timerKw, .calendarsKw, .refractKw, .directKw, .attributesKw, .lParen, .rParen, .lBrace,
  .rBrace, .lBracket, .rBracket, .semicolon, .comma, .dot, .dotDot, .colon, .colonColon,
  .colonEq, .question, .at, .hash, .hashHash, .arrow, .eq, .eqEq, .neq, .lt, .gt, .ltEq, .gtEq,
  .ampAmp, .pipePipe, .amp, .pipe, .caret, .tilde, .bang, .bangDot, .plus, .minus, .star, .slash,
  .percent, .plusPlus, .minusMinus, .plusEq, .minusEq, .starEq, .slashEq, .ident, .stringLit,
  .intLit, .floatLit, .actionText, .verbatim, .error, .eof, .compilationUnit, .packageDecl,
  .importDecl, .globalDecl, .functionDecl, .functionBody, .parameterList, .parameter, .queryDecl,
  .declareDecl, .fieldDecl, .annotationTag, .ruleDecl, .ruleName, .ruleExtends, .attributeList,
  .attribute, .attributeValue, .whenClause, .thenClause, .actionBlock, .qualifiedName, .typeRef,
  .lhsOr, .lhsAnd, .lhsNot, .lhsExists, .lhsEval, .lhsForall, .lhsParen, .pattern, .binding,
  .constraint, .fromClause, .accumulateClause, .collectClause, .entryPoint, .windowClause,
  .binaryExpr, .relationalExpr, .halfConstraint, .unaryExpr, .parenExpr, .literal, .nameRef,
  .fieldAccess, .methodCall, .argList, .indexExpr, .ternaryExpr, .castExpr, .inlineCast,
  .arrayInit, .newExpr, .operator, .operatorParams]

def raw : Kind → Nat
  | .whitespace => 0
  | .newline => 1
  | .commentLine => 2
  | .commentBlock => 3
  | .packageKw => 10
  | .importKw => 11
  | .globalKw => 12
  | .functionKw => 13
  | .ruleKw => 14
  | .queryKw => 15
  | .declareKw => 16
  | .endKw => 17
  | .whenKw => 18
  | .thenKw => 19
  | .extendsKw => 20
  | .staticKw => 21
  | .traitKw => 22
  | .andKw => 30
  | .orKw => 31
  | .notKw => 32
  | .existsKw => 33
  | .evalKw => 34
  | .forallKw => 35
  | .fromKw => 36
  | .accumulateKw => 37
  | .collectKw => 38
  | .overKw => 39
  | .windowKw => 40
  | .entryPointKw => 41
  | .inKw => 42
  | .instanceofKw => 43
  | .newKw => 44
  | .matchesKw => 50
  | .containsKw => 51
  | .memberOfKw => 52
  | .soundslikeKw => 53
  | .excludesKw => 54
  | .strKw => 55
  | .trueKw => 60
  | .falseKw => 61
  | .nullKw => 62
  | .salienceKw => 70
  | .noLoopKw => 71
  | .agendaGroupKw => 72
  | .ruleflowGroupKw => 73
  | .activationGroupKw => 74
  | .autoFocusKw => 75
  | .lockOnActiveKw => 76
  | .dateEffectiveKw => 77
  | .dateExpiresKw => 78
  | .dialectKw => 79
  | .enabledKw => 80
  | .durationKw => 81
  | .timerKw => 82
  | .calendarsKw => 83
  | .refractKw => 84
  | .directKw => 85
  | .attributesKw => 86
  | .lParen => 100
  | .rParen => 101
  | .lBrace => 102
  | .rBrace => 103
  | .lBracket => 104
  | .rBracket => 105
  | .semicolon => 106
  | .comma => 107
  | .dot => 108
  | .dotDot => 109
  | .colon => 110
  | .colonColon => 111
  | .colonEq => 112
  | .question => 113
  | .at => 114
  | .hash => 115
  | .hashHash => 116
  | .arrow => 117
  | .eq => 118
  | .eqEq => 119
  | .neq => 120
  | .lt => 121
  | .gt => 122
  | .ltEq => 123
  | .gtEq => 124
  | .ampAmp => 125
  | .pipePipe => 126
  | .amp => 127
  | .pipe => 128
  | .caret => 129
  | .tilde => 130
  | .bang => 131
  | .bangDot => 132
  | .plus => 133
  | .minus => 134
  | .star => 135
  | .slash => 136
  | .percent => 137
  | .plusPlus => 138
  | .minusMinus => 139
  | .plusEq => 140
  | .minusEq => 141
  | .starEq => 142
  | .slashEq => 143
  | .ident => 160
  | .stringLit => 161
  | .intLit => 162
  | .floatLit => 163
  | .actionText => 164
  | .verbatim => 165
  | .error => 180
  | .eof => 181
  | .compilationUnit => 200
  | .packageDecl => 201
  | .importDecl => 202
  | .globalDecl => 203
  | .functionDecl => 204
  | .functionBody => 205
  | .parameterList => 206
  | .parameter => 207
  | .queryDecl => 208
  | .declareDecl => 209
  | .fieldDecl => 210
  | .annotationTag => 211
  | .ruleDecl => 212
  | .ruleName => 213
  | .ruleExtends => 214
  | .attributeList => 215
  | .attribute => 216
  | .attributeValue => 217
  | .whenClause => 218
  | .thenClause => 219
  | .actionBlock => 220
  | .qualifiedName => 221
  | .typeRef => 222
  | .lhsOr => 240
  | .lhsAnd => 241
  | .lhsNot => 242
  | .lhsExists => 243
  | .lhsEval => 244
  | .lhsForall => 245
  | .lhsParen => 246
  | .pattern => 247
  | .binding => 248
  | .constraint => 249
  | .fromClause => 250
  | .accumulateClause => 251
  | .collectClause => 252
  | .entryPoint => 253
  | .windowClause => 254
  | .binaryExpr => 280
  | .relationalExpr => 281
  | .halfConstraint => 282
  | .unaryExpr => 283
  | .parenExpr => 284
  | .literal => 285
  | .nameRef => 286
  | .fieldAccess => 287
  | .methodCall => 288
  | .argList => 289
  | .indexExpr => 290
  | .ternaryExpr => 291
  | .castExpr => 292
  | .inlineCast => 293
  | .arrayInit => 294
  | .newExpr => 295
  | .operator => 296
  | .operatorParams => 297

def ofRaw? (n : Nat) : Option Kind :=
  all.find? fun k => k.raw == n

/-- The name that tree dumps and messages show. -/
def name : Kind → String
  | .whitespace => "Whitespace"
  | .newline => "Newline"
  | .commentLine => "CommentLine"
  | .commentBlock => "CommentBlock"
  | .packageKw => "PackageKw"
  | .importKw => "ImportKw"
  | .globalKw => "GlobalKw"
  | .functionKw => "FunctionKw"
  | .ruleKw => "RuleKw"
  | .queryKw => "QueryKw"
  | .declareKw => "DeclareKw"
  | .endKw => "EndKw"
  | .whenKw => "WhenKw"
  | .thenKw => "ThenKw"
  | .extendsKw => "ExtendsKw"
  | .staticKw => "StaticKw"
  | .traitKw => "TraitKw"
  | .andKw => "AndKw"
  | .orKw => "OrKw"
  | .notKw => "NotKw"
  | .existsKw => "ExistsKw"
  | .evalKw => "EvalKw"
  | .forallKw => "ForallKw"
  | .fromKw => "FromKw"
  | .accumulateKw => "AccumulateKw"
  | .collectKw => "CollectKw"
  | .overKw => "OverKw"
  | .windowKw => "WindowKw"
  | .entryPointKw => "EntryPointKw"
  | .inKw => "InKw"
  | .instanceofKw => "InstanceofKw"
  | .newKw => "NewKw"
  | .matchesKw => "MatchesKw"
  | .containsKw => "ContainsKw"
  | .memberOfKw => "MemberOfKw"
  | .soundslikeKw => "SoundslikeKw"
  | .excludesKw => "ExcludesKw"
  | .strKw => "StrKw"
  | .trueKw => "TrueKw"
  | .falseKw => "FalseKw"
  | .nullKw => "NullKw"
  | .salienceKw => "SalienceKw"
  | .noLoopKw => "NoLoopKw"
  | .agendaGroupKw => "AgendaGroupKw"
  | .ruleflowGroupKw => "RuleflowGroupKw"
  | .activationGroupKw => "ActivationGroupKw"
  | .autoFocusKw => "AutoFocusKw"
  | .lockOnActiveKw => "LockOnActiveKw"
  | .dateEffectiveKw => "DateEffectiveKw"
  | .dateExpiresKw => "DateExpiresKw"
  | .dialectKw => "DialectKw"
  | .enabledKw => "EnabledKw"
  | .durationKw => "DurationKw"
  | .timerKw => "TimerKw"
  | .calendarsKw => "CalendarsKw"
  | .refractKw => "RefractKw"
  | .directKw => "DirectKw"
  | .attributesKw => "AttributesKw"
  | .lParen => "LParen"
  | .rParen => "RParen"
  | .lBrace => "LBrace"
  | .rBrace => "RBrace"
  | .lBracket => "LBracket"
  | .rBracket => "RBracket"
  | .semicolon => "Semicolon"
  | .comma => "Comma"
  | .dot => "Dot"
  | .dotDot => "DotDot"
  | .colon => "Colon"
  | .colonColon => "ColonColon"
  | .colonEq => "ColonEq"
  | .question => "Question"
  | .at => "At"
  | .hash => "Hash"
  | .hashHash => "HashHash"
  | .arrow => "Arrow"
  | .eq => "Eq"
  | .eqEq => "EqEq"
  | .neq => "Neq"
  | .lt => "Lt"
  | .gt => "Gt"
  | .ltEq => "LtEq"
  | .gtEq => "GtEq"
  | .ampAmp => "AmpAmp"
  | .pipePipe => "PipePipe"
  | .amp => "Amp"
  | .pipe => "Pipe"
  | .caret => "Caret"
  | .tilde => "Tilde"
  | .bang => "Bang"
  | .bangDot => "BangDot"
  | .plus => "Plus"
  | .minus => "Minus"
  | .star => "Star"
  | .slash => "Slash"
  | .percent => "Percent"
  | .plusPlus => "PlusPlus"
  | .minusMinus => "MinusMinus"
  | .plusEq => "PlusEq"
  | .minusEq => "MinusEq"
  | .starEq => "StarEq"
  | .slashEq => "SlashEq"
  | .ident => "Ident"
  | .stringLit => "StringLit"
  | .intLit => "IntLit"
  | .floatLit => "FloatLit"
  | .actionText => "ActionText"
  | .verbatim => "Verbatim"
  | .error => "Error"
  | .eof => "Eof"
  | .compilationUnit => "CompilationUnit"
  | .packageDecl => "PackageDecl"
  | .importDecl => "ImportDecl"
  | .globalDecl => "GlobalDecl"
  | .functionDecl => "FunctionDecl"
  | .functionBody => "FunctionBody"
  | .parameterList => "ParameterList"
  | .parameter => "Parameter"
  | .queryDecl => "QueryDecl"
  | .declareDecl => "DeclareDecl"
  | .fieldDecl => "FieldDecl"
  | .annotationTag => "Annotation"
  | .ruleDecl => "RuleDecl"
  | .ruleName => "RuleName"
  | .ruleExtends => "RuleExtends"
  | .attributeList => "AttributeList"
  | .attribute => "Attribute"
  | .attributeValue => "AttributeValue"
  | .whenClause => "WhenClause"
  | .thenClause => "ThenClause"
  | .actionBlock => "ActionBlock"
  | .qualifiedName => "QualifiedName"
  | .typeRef => "TypeRef"
  | .lhsOr => "LhsOr"
  | .lhsAnd => "LhsAnd"
  | .lhsNot => "LhsNot"
  | .lhsExists => "LhsExists"
  | .lhsEval => "LhsEval"
  | .lhsForall => "LhsForall"
  | .lhsParen => "LhsParen"
  | .pattern => "Pattern"
  | .binding => "Binding"
  | .constraint => "Constraint"
  | .fromClause => "FromClause"
  | .accumulateClause => "AccumulateClause"
  | .collectClause => "CollectClause"
  | .entryPoint => "EntryPoint"
  | .windowClause => "WindowClause"
  | .binaryExpr => "BinaryExpr"
  | .relationalExpr => "RelationalExpr"
  | .halfConstraint => "HalfConstraint"
  | .unaryExpr => "UnaryExpr"
  | .parenExpr => "ParenExpr"
  | .literal => "Literal"
  | .nameRef => "NameRef"
  | .fieldAccess => "FieldAccess"
  | .methodCall => "MethodCall"
  | .argList => "ArgList"
  | .indexExpr => "IndexExpr"
  | .ternaryExpr => "TernaryExpr"
  | .castExpr => "CastExpr"
  | .inlineCast => "InlineCast"
  | .arrayInit => "ArrayInit"
  | .newExpr => "NewExpr"
  | .operator => "Operator"
  | .operatorParams => "OperatorParams"

def ofName? (s : String) : Option Kind :=
  all.find? fun k => k.name == s

/-- The text of a kind whose tokens all have the same one. -/
def spelling? : Kind → Option String
  | .packageKw => some "package"
  | .importKw => some "import"
  | .globalKw => some "global"
  | .functionKw => some "function"
  | .ruleKw => some "rule"
  | .queryKw => some "query"
  | .declareKw => some "declare"
  | .endKw => some "end"
  | .whenKw => some "when"
  | .thenKw => some "then"
  | .extendsKw => some "extends"
  | .staticKw => some "static"
  | .traitKw => some "trait"
  | .andKw => some "and"
  | .orKw => some "or"
  | .notKw => some "not"
  | .existsKw => some "exists"
  | .evalKw => some "eval"
  | .forallKw => some "forall"
  | .fromKw => some "from"
  | .accumulateKw => some "accumulate"
  | .collectKw => some "collect"
  | .overKw => some "over"
  | .windowKw => some "window"
  | .entryPointKw => some "entry-point"
  | .inKw => some "in"
  | .instanceofKw => some "instanceof"
  | .newKw => some "new"
  | .matchesKw => some "matches"
  | .containsKw => some "contains"
  | .memberOfKw => some "memberOf"
  | .soundslikeKw => some "soundslike"
  | .excludesKw => some "excludes"
  | .strKw => some "str"
  | .trueKw => some "true"
  | .falseKw => some "false"
  | .nullKw => some "null"
  | .salienceKw => some "salience"
  | .noLoopKw => some "no-loop"
  | .agendaGroupKw => some "agenda-group"
  | .ruleflowGroupKw => some "ruleflow-group"
  | .activationGroupKw => some "activation-group"
  | .autoFocusKw => some "auto-focus"
  | .lockOnActiveKw => some "lock-on-active"
  | .dateEffectiveKw => some "date-effective"
  | .dateExpiresKw => some "date-expires"
  | .dialectKw => some "dialect"
  | .enabledKw => some "enabled"
  | .durationKw => some "duration"
  | .timerKw => some "timer"
  | .calendarsKw => some "calendars"
  | .refractKw => some "refract"
  | .directKw => some "direct"
  | .attributesKw => some "attributes"
  | .lParen => some "("
  | .rParen => some ")"
  | .lBrace => some "\x7b"
  | .rBrace => some "\x7d"
  | .lBracket => some "["
  | .rBracket => some "]"
  | .semicolon => some ";"
  | .comma => some ","
  | .dot => some "."
  | .dotDot => some ".."
  | .colon => some ":"
  | .colonColon => some "::"
  | .colonEq => some ":="
  | .question => some "?"
  | .at => some "@"
  | .hash => some "#"
  | .hashHash => some "##"
  | .arrow => some "->"
  | .eq => some "="
  | .eqEq => some "=="
  | .neq => some "!="
  | .lt => some "<"
  | .gt => some ">"
  | .ltEq => some "<="
  | .gtEq => some ">="
  | .ampAmp => some "&&"
  | .pipePipe => some "||"
  | .amp => some "&"
  | .pipe => some "|"
  | .caret => some "^"
  | .tilde => some "~"
  | .bang => some "!"
  | .bangDot => some "!."
  | .plus => some "+"
  | .minus => some "-"
  | .star => some "*"
  | .slash => some "/"
  | .percent => some "%"
  | .plusPlus => some "++"
  | .minusMinus => some "--"
  | .plusEq => some "+="
  | .minusEq => some "-="
  | .starEq => some "*="
  | .slashEq => some "/="
  | _ => none

/-! ## Classes -/

/-- Blanks, line breaks and comments: text without grammatical meaning. -/
def isTrivia : Kind → Bool
  | .whitespace | .newline | .commentLine | .commentBlock => true
  | _ => false

def isKeyword (k : Kind) : Bool :=
  10 ≤ k.raw && k.raw < 100

def isPunct (k : Kind) : Bool :=
  100 ≤ k.raw && k.raw < 160

/-- Literal tokens, the keywords among them included. -/
def isLiteral : Kind → Bool
  | .stringLit | .intLit | .floatLit | .trueKw | .falseKw | .nullKw => true
  | _ => false

def isNode (k : Kind) : Bool :=
  200 ≤ k.raw

/-- Kinds that tokens have. `error` is a kind of tokens and of nodes. -/
def isToken (k : Kind) : Bool :=
  !k.isNode || k == .error

/-- Declarations at the top level, which own the trivia around them. -/
def isTopLevelDecl : Kind → Bool
  | .packageDecl | .importDecl | .globalDecl | .functionDecl | .queryDecl | .declareDecl
  | .ruleDecl => true
  | _ => false

def isAttributeKeyword (k : Kind) : Bool :=
  70 ≤ k.raw && k.raw < 87

/-- Operators between two operands that are spelled as words. -/
def isWordOperator (k : Kind) : Bool :=
  50 ≤ k.raw && k.raw < 56

def isComparison : Kind → Bool
  | .eqEq | .neq | .lt | .gt | .ltEq | .gtEq => true
  | _ => false

/-- Keywords that may also serve as names. -/
def isSoftKeyword (k : Kind) : Bool :=
  k.isAttributeKeyword || k.isWordOperator ||
  match k with
  | .overKw | .windowKw | .accumulateKw | .collectKw | .forallKw | .existsKw | .evalKw
  | .extendsKw | .staticKw | .traitKw | .fromKw => true
  | _ => false

/-- Identifiers and the keywords that may serve as names. -/
def isName (k : Kind) : Bool :=
  k == .ident || k.isSoftKeyword

/-- Keywords that open a declaration, and `end`, which closes one. -/
def isBoundaryKeyword : Kind → Bool
  | .ruleKw | .endKw | .functionKw | .globalKw | .queryKw | .declareKw | .importKw
  | .packageKw => true
  | _ => false

/-- Keywords that open a declaration. -/
def isDeclarationStart (k : Kind) : Bool :=
  k.isBoundaryKeyword && k != .endKw

/-- Nodes of the expression grammar. -/
def isExpr : Kind → Bool
  | .binaryExpr | .relationalExpr | .halfConstraint | .unaryExpr | .parenExpr | .literal
  | .nameRef | .fieldAccess | .methodCall | .indexExpr | .ternaryExpr | .castExpr | .inlineCast
  | .arrayInit | .newExpr => true
  | _ => false

/-! ## Keywords -/

/-- The keywords by their spelling. -/
def keywordTable : List (List Char × Kind) :=
  (all.filter isKeyword).map fun k => ((k.spelling?.getD "").toList, k)

/-- The keyword with exactly this spelling. -/
def ofKeyword? (word : List Char) : Option Kind :=
  keywordTable.lookup word

/-! ## Messages -/

/-- How messages name a kind: its text in quotes if it has only one, else what it is. -/
def describe (k : Kind) : String :=
  match k.spelling? with
  | some text => "'" ++ text ++ "'"
  | none =>
    match k with
    | .ident => "identifier"
    | .stringLit => "string literal"
    | .intLit | .floatLit => "number"
    | .eof => "end of file"
    | other => other.name

end Kind

end RuleLang
