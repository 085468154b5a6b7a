import RuleLang.Lexer
import RuleLang.Element
import RuleLang.Proofs.Lexer.Relex

/-!
# Conditions as words and as elements

The conditional elements of a rule, apart from the tokens that spell them: patterns with comparisons
of names and literals, chains with `and` and `or`, negations and quantifiers, and groups with the
connective in front. A conditional element is written as a list of words, with parentheses around an
operand that would fall apart otherwise, and it is read as a node with a blank between its parts.

## Main definitions

* `Test`, `Clause` — comparisons and conditional elements.
* `Clause.words`, `Clause.source` — how they are written, alone and in a rule.
* `Clause.shape`, `Clause.tree` — the nodes that they are read as.

## Main statements

* `Clause.leaves_tree` — the tree of a rule has the words of the rule, with blanks between them.
-/

namespace RuleLang

open Element

/-- Every element but the first has the separator before it. -/
theorem intersperse_eq_cons_flatMap {α : Type} {sep : α} (a : α) (as : List α) :
    (a :: as).intersperse sep = a :: as.flatMap fun b => [sep, b] := by
  induction as generalizing a with
  | nil => rfl
  | cons b as ih => rw [List.intersperse_cons_cons, ih, List.flatMap_cons]; rfl

/-! ## Words -/

namespace Leaf

/-- The blank between two words. -/
def blank : Leaf :=
  ⟨.whitespace, [' ']⟩

def element (l : Leaf) : Element :=
  .token l.kind l.text

@[simp] theorem leaves_element (l : Leaf) : l.element.leaves = [l] :=
  leaves_token l.kind l.text

/-- A word that may be left out. -/
def optional (l : Leaf) (given : Bool) : List Leaf :=
  if given then [l] else []

theorem forall_mem_optional {P : Leaf → Prop} {l : Leaf} (h : P l) (given : Bool) :
    ∀ m ∈ l.optional given, P m := by
  cases given
  · exact nofun
  · exact List.forall_mem_singleton.2 h

end Leaf

/-- The token of a kind whose tokens all have one text. -/
def Kind.leaf (k : Kind) : Leaf :=
  ⟨k, (k.spelling?.getD "").toList⟩

/-- A word that is no keyword. -/
structure Identifier where
  text : List Char
  isStart : text.head?.any Lexeme.isWordStart = true
  isPart : text.all Lexeme.isWordPart = true
  isPlain : Kind.ofKeyword? text = none

def Identifier.leaf (n : Identifier) : Leaf :=
  ⟨.ident, n.text⟩

/-- A text that is one token, a literal. -/
structure Literal where
  leaf : Leaf
  isLiteral : leaf.kind.isLiteral = true
  tokens : (lex leaf.text).tokens.map Token.leaf = [leaf, ⟨.eof, []⟩]
  errors : (lex leaf.text).errors = []

/-! ## Comparisons -/

/-- An operand of a comparison. -/
inductive Term where
  | name (n : Identifier)
  | literal (l : Literal)

/-- An operator between two operands. -/
inductive Relation where
  | symbol (k : Kind) (h : k.isComparison = true)
  | word (negated : Bool) (k : Kind) (h : k.isWordOperator = true)
  /-- An identifier, with the mark of a custom operator or without it. -/
  | custom (negated marked : Bool) (name : Identifier)

/-- A comparison. -/
structure Test where
  left : Term
  relation : Relation
  right : Term

namespace Element

/-- Elements with a blank before each of them. -/
def spaced (es : List Element) : List Element :=
  es.flatMap fun e => [Leaf.blank.element, e]

theorem intersperse_cons (e : Element) (es : List Element) :
    (e :: es).intersperse Leaf.blank.element = e :: spaced es :=
  intersperse_eq_cons_flatMap e es

theorem spaced_eq {es : List Element} (h : es ≠ []) :
    spaced es = Leaf.blank.element :: es.intersperse Leaf.blank.element := by
  obtain ⟨e, es, rfl⟩ := List.exists_cons_of_ne_nil h
  rw [intersperse_cons]
  rfl

theorem spaced_append (es ds : List Element) : spaced (es ++ ds) = spaced es ++ spaced ds :=
  List.flatMap_append

/-- A node with a blank between its parts. -/
def spread (k : Kind) (es : List Element) : Element :=
  .node k (es.intersperse Leaf.blank.element)

end Element

namespace Term

def leaf : Term → Leaf
  | .name n => n.leaf
  | .literal l => l.leaf

def shape : Term → Element
  | .name n => .node .nameRef [n.leaf.element]
  | .literal l => .node .literal [l.leaf.element]

end Term

namespace Relation

def words : Relation → List Leaf
  | .symbol k _ => [k.leaf]
  | .word negated k _ => Kind.notKw.leaf.optional negated ++ [k.leaf]
  | .custom negated marked name =>
    Kind.notKw.leaf.optional negated ++ (Kind.hashHash.leaf.optional marked ++ [name.leaf])

def shape (r : Relation) : Element :=
  spread .operator (r.words.map Leaf.element)

end Relation

namespace Test

def words (t : Test) : List Leaf :=
  t.left.leaf :: t.relation.words ++ [t.right.leaf]

def shape (t : Test) : Element :=
  spread .relationalExpr [t.left.shape, t.relation.shape, t.right.shape]

end Test

/-! ## Conditional elements -/

/-- What joins conditions. -/
inductive Junction where
  | either
  | both
  deriving DecidableEq, Repr

namespace Junction

/-- A chain joins operands of higher ranks. -/
def rank : Junction → Nat
  | .either => 0
  | .both => 1

def kind : Junction → Kind
  | .either => .lhsOr
  | .both => .lhsAnd

/-- The connective as a word. -/
def word : Junction → Leaf
  | .either => Kind.orKw.leaf
  | .both => Kind.andKw.leaf

/-- The connective, as a symbol or as a word. -/
def link (j : Junction) (symbol : Bool) : Leaf :=
  if symbol then
    match j with
    | .either => Kind.pipePipe.leaf
    | .both => Kind.ampAmp.leaf
  else j.word

end Junction

/-- A conditional element. -/
inductive Clause where
  /-- `[binding :] [?] type ( constraints )` -/
  | pattern (binding : Option Identifier) (query : Bool) (type : Identifier)
    (constraints : List Test)
  /-- Two or more operands with connectives between them, each a symbol or a word. -/
  | chain (j : Junction) (first : Clause) (symbol : Bool) (second : Clause)
    (more : List (Bool × Clause))
  | absent (operand : Clause)
  | present (operand : Clause)
  | eval (test : Test)
  | all (items : List Clause)
  | paren (operand : Clause)
  /-- One or more operands after a connective, in parentheses. -/
  | group (j : Junction) (first : Clause) (more : List Clause)

namespace Clause

/-- Chains have the ranks of their connectives, and anything else stands by itself. -/
def rank : Clause → Nat
  | .chain j _ _ _ _ => j.rank
  | _ => 2

/-! ### How they are written -/

/-- Words in parentheses, if they have a lower rank than they need. -/
def wordsFrom (needed rank : Nat) (ws : List Leaf) : List Leaf :=
  if rank < needed then Kind.lParen.leaf :: ws ++ [Kind.rParen.leaf] else ws

mutual

def words : Clause → List Leaf
  | .pattern binding query type constraints =>
    (binding.map fun v => [v.leaf, Kind.colon.leaf]).getD [] ++
      (Kind.question.leaf.optional query ++ type.leaf :: Kind.lParen.leaf ::
        ([Kind.comma.leaf].intercalate (constraints.map Test.words) ++ [Kind.rParen.leaf]))
  | .chain j first symbol second more =>
    wordsFrom (j.rank + 1) first.rank first.words ++ j.link symbol ::
      wordsFrom (j.rank + 1) second.rank second.words ++ wordsOfLinks j more
  | .absent c => Kind.notKw.leaf :: wordsFrom 2 c.rank c.words
  | .present c => Kind.existsKw.leaf :: wordsFrom 2 c.rank c.words
  | .eval t => [Kind.evalKw.leaf, Kind.lParen.leaf] ++ t.words ++ [Kind.rParen.leaf]
  | .all items => [Kind.forallKw.leaf, Kind.lParen.leaf] ++ wordsOf 0 items ++ [Kind.rParen.leaf]
  | .paren c => Kind.lParen.leaf :: c.words ++ [Kind.rParen.leaf]
  | .group j first more =>
    [Kind.lParen.leaf, j.word] ++ wordsFrom 2 first.rank first.words ++ wordsOf 2 more ++
      [Kind.rParen.leaf]

/-- The further operands of a chain with their connectives. -/
def wordsOfLinks (j : Junction) : List (Bool × Clause) → List Leaf
  | [] => []
  | (symbol, c) :: more =>
    j.link symbol :: wordsFrom (j.rank + 1) c.rank c.words ++ wordsOfLinks j more

/-- Conditional elements one after the other, of a rank at least. -/
def wordsOf (needed : Nat) : List Clause → List Leaf
  | [] => []
  | c :: cs => wordsFrom needed c.rank c.words ++ wordsOf needed cs

end

def ruleName : Leaf :=
  ⟨.ident, ['R']⟩

/-- The words of a rule with these conditions and an empty consequence. -/
def ruleWords (cs : List Clause) : List Leaf :=
  [Kind.ruleKw.leaf, ruleName, Kind.whenKw.leaf] ++ wordsOf 0 cs ++
    [Kind.thenKw.leaf, Kind.endKw.leaf]

/-- The text of a rule with these conditions. -/
def source (cs : List Clause) : List Char :=
  [' '].intercalate ((ruleWords cs).map Leaf.text)

/-! ### What they are read as -/

/-- A condition in parentheses, if it has a lower rank than it needs. -/
def shapeFrom (needed rank : Nat) (e : Element) : Element :=
  if rank < needed then spread .lhsParen [Kind.lParen.leaf.element, e, Kind.rParen.leaf.element]
  else e

/-- Comparisons with commas between them. -/
def constraintShapes (ts : List Test) : List Element :=
  (ts.map fun t => .node .constraint [t.shape]).intersperse Kind.comma.leaf.element

/-- The parts of a pattern without a binding. -/
def unboundParts (query : Bool) (type : Identifier) (constraints : List Test) : List Element :=
  (Kind.question.leaf.optional query).map Leaf.element ++
    .node .qualifiedName [type.leaf.element] :: Kind.lParen.leaf.element ::
      (constraintShapes constraints ++ [Kind.rParen.leaf.element])

/-- The parts of a pattern. -/
def patternParts (binding : Option Identifier) (query : Bool) (type : Identifier)
    (constraints : List Test) : List Element :=
  (binding.map fun v => spread .binding [v.leaf.element, Kind.colon.leaf.element]).toList ++
    unboundParts query type constraints

mutual

def shape : Clause → Element
  | .pattern binding query type constraints =>
    spread .pattern (patternParts binding query type constraints)
  | .chain j first symbol second more =>
    spread j.kind (shapeFrom (j.rank + 1) first.rank first.shape :: (j.link symbol).element ::
      shapeFrom (j.rank + 1) second.rank second.shape :: shapesOfLinks j more)
  | .absent c => spread .lhsNot [Kind.notKw.leaf.element, shapeFrom 2 c.rank c.shape]
  | .present c => spread .lhsExists [Kind.existsKw.leaf.element, shapeFrom 2 c.rank c.shape]
  | .eval t =>
    spread .lhsEval
      [Kind.evalKw.leaf.element, Kind.lParen.leaf.element, t.shape, Kind.rParen.leaf.element]
  | .all items =>
    spread .lhsForall ([Kind.forallKw.leaf.element, Kind.lParen.leaf.element] ++
      shapesOf 0 items ++ [Kind.rParen.leaf.element])
  | .paren c =>
    spread .lhsParen [Kind.lParen.leaf.element, c.shape, Kind.rParen.leaf.element]
  | .group j first more =>
    spread .lhsParen
      [Kind.lParen.leaf.element,
        spread j.kind (j.word.element :: shapeFrom 2 first.rank first.shape :: shapesOf 2 more),
        Kind.rParen.leaf.element]

def shapesOfLinks (j : Junction) : List (Bool × Clause) → List Element
  | [] => []
  | (symbol, c) :: more =>
    (j.link symbol).element :: shapeFrom (j.rank + 1) c.rank c.shape :: shapesOfLinks j more

def shapesOf (needed : Nat) : List Clause → List Element
  | [] => []
  | c :: cs => shapeFrom needed c.rank c.shape :: shapesOf needed cs

end

/-- The node for the conditions of a rule: one node for each of them. -/
def whenClause (cs : List Clause) : Element :=
  spread .whenClause (Kind.whenKw.leaf.element :: cs.map shape)

/-- The node for an empty consequence. -/
def thenClause : Element :=
  spread .thenClause [Kind.thenKw.leaf.element, .node .actionBlock []]

/-- The node for a rule with these conditions. -/
def ruleDecl (cs : List Clause) : Element :=
  .node .ruleDecl
    ([Kind.ruleKw.leaf.element, .node .ruleName [ruleName.element], whenClause cs,
      thenClause].intersperse Leaf.blank.element ++ [Kind.endKw.leaf.element])

/-- The tree of a text with such a rule and nothing else. -/
def tree (cs : List Clause) : Element :=
  .node .compilationUnit [ruleDecl cs]

end Clause

/-! ## The words of a tree -/

/-- Words with a blank before each of them. -/
def Leaf.spaced (ws : List Leaf) : List Leaf :=
  ws.flatMap fun l => [blank, l]

/-- The leaves of some elements are these words, with blanks before all of them. -/
def Spells (es : List Element) (ws : List Leaf) : Prop :=
  leavesOf (spaced es) = Leaf.spaced ws

namespace Spells

variable {es ds : List Element} {ws vs : List Leaf}

theorem nil : Spells [] [] :=
  rfl

theorem append (h : Spells es ws) (h' : Spells ds vs) : Spells (es ++ ds) (ws ++ vs) := by
  rw [Spells, spaced_append, leavesOf_append, h, h', Leaf.spaced, Leaf.spaced, Leaf.spaced,
    List.flatMap_append]

theorem cons {e : Element} (h : Spells [e] ws) (h' : Spells es vs) : Spells (e :: es) (ws ++ vs) :=
  h.append h'

theorem leaf (l : Leaf) : Spells [l.element] [l] :=
  rfl

theorem leaves (ls : List Leaf) : Spells (ls.map Leaf.element) ls := by
  induction ls with
  | nil => rfl
  | cons l ls ih => exact cons (leaf l) ih

theorem node {e : Element} (h : Spells [e] ws) (k : Kind) : Spells [.node k [e]] ws := by
  simpa [Spells, spaced] using h

theorem spread (h : Spells es ws) (hes : es ≠ []) (k : Kind) : Spells [Element.spread k es] ws := by
  rw [Spells, spaced_eq hes] at h
  simpa [Spells, spaced, Element.spread] using h

end Spells

theorem Term.spells (t : Term) : Spells [t.shape] [t.leaf] := by
  cases t <;> exact (Spells.leaf _).node _

theorem Relation.words_ne_nil (r : Relation) : r.words ≠ [] := by
  cases r <;> simp [Relation.words]

theorem Relation.spells (r : Relation) : Spells [r.shape] r.words :=
  (Spells.leaves r.words).spread (by simpa using r.words_ne_nil) .operator

theorem Test.spells (t : Test) : Spells [t.shape] t.words :=
  (t.left.spells.cons (t.relation.spells.cons t.right.spells)).spread (by simp) .relationalExpr

namespace Clause

theorem spells_constraints (ts : List Test) :
    Spells (constraintShapes ts) ([Kind.comma.leaf].intercalate (ts.map Test.words)) := by
  induction ts with
  | nil => exact .nil
  | cons t ts ih =>
    have htest := t.spells.node .constraint
    cases ts with
    | nil => simpa [constraintShapes] using htest
    | cons d ts =>
      have hall := htest.cons ((Spells.leaf Kind.comma.leaf).cons ih)
      simpa [constraintShapes, List.intercalate] using hall

theorem spells_unbound (query : Bool) (type : Identifier) (constraints : List Test) :
    Spells (unboundParts query type constraints)
      (Kind.question.leaf.optional query ++ (type.leaf :: Kind.lParen.leaf ::
        ([Kind.comma.leaf].intercalate (constraints.map Test.words) ++ [Kind.rParen.leaf]))) :=
  (Spells.leaves _).append (((Spells.leaf type.leaf).node .qualifiedName).cons
    ((Spells.leaf Kind.lParen.leaf).cons ((spells_constraints constraints).append (.leaf _))))

theorem spells_pattern (binding : Option Identifier) (query : Bool) (type : Identifier)
    (constraints : List Test) :
    Spells [(pattern binding query type constraints).shape]
      (pattern binding query type constraints).words := by
  have hunbound := spells_unbound query type constraints
  have hne : unboundParts query type constraints ≠ [] := by simp [unboundParts]
  rw [shape, words]
  cases binding with
  | none => exact hunbound.spread hne .pattern
  | some v =>
    have hbinding := ((Spells.leaf v.leaf).cons (.leaf Kind.colon.leaf)).spread (by simp) .binding
    exact (hbinding.append hunbound).spread (by simp) .pattern

theorem spells_parens {e : Element} {ws : List Leaf} (h : Spells [e] ws) :
    Spells [spread .lhsParen [Kind.lParen.leaf.element, e, Kind.rParen.leaf.element]]
      (Kind.lParen.leaf :: ws ++ [Kind.rParen.leaf]) :=
  ((Spells.leaf Kind.lParen.leaf).cons (h.cons (.leaf Kind.rParen.leaf))).spread (by simp) .lhsParen

theorem spells_shapeFrom {e : Element} {ws : List Leaf} (h : Spells [e] ws) (needed rank : Nat) :
    Spells [shapeFrom needed rank e] (wordsFrom needed rank ws) := by
  rw [shapeFrom, wordsFrom]
  split
  · exact spells_parens h
  · exact h

mutual

/-- The words of a condition are the leaves of its node. -/
theorem spells_shape : ∀ c : Clause, Spells [c.shape] c.words
  | .pattern binding query type constraints => spells_pattern binding query type constraints
  | .chain j first symbol second more => by
    rw [shape, words, List.append_assoc]
    exact ((spells_shapeFrom (spells_shape first) _ _).cons ((Spells.leaf (j.link symbol)).cons
      ((spells_shapeFrom (spells_shape second) _ _).cons (spells_links j more)))).spread
        (by simp) j.kind
  | .absent c => by
    rw [shape, words]
    exact ((Spells.leaf _).cons (spells_shapeFrom (spells_shape c) 2 c.rank)).spread (by simp) _
  | .present c => by
    rw [shape, words]
    exact ((Spells.leaf _).cons (spells_shapeFrom (spells_shape c) 2 c.rank)).spread (by simp) _
  | .eval t => by
    rw [shape, words, List.append_assoc]
    exact ((Spells.leaf _).cons ((Spells.leaf _).cons (t.spells.cons (.leaf _)))).spread (by simp) _
  | .all items => by
    rw [shape, words, List.append_assoc, List.append_assoc]
    exact ((Spells.leaves [Kind.forallKw.leaf, Kind.lParen.leaf]).append
      ((spells_operands 0 items).append (.leaf _))).spread (by simp) _
  | .paren c => by
    rw [shape, words]
    exact spells_parens (spells_shape c)
  | .group j first more => by
    have hinside := ((Spells.leaf j.word).cons ((spells_shapeFrom (spells_shape first) 2
      first.rank).cons (spells_operands 2 more))).spread (by simp) j.kind
    have hall := spells_parens hinside
    rw [shape, words]
    simpa using hall

theorem spells_links (j : Junction) :
    ∀ more : List (Bool × Clause), Spells (shapesOfLinks j more) (wordsOfLinks j more)
  | [] => .nil
  | (symbol, c) :: more =>
    (Spells.leaf (j.link symbol)).cons ((spells_shapeFrom (spells_shape c) _ _).cons
      (spells_links j more))

theorem spells_operands (needed : Nat) :
    ∀ cs : List Clause, Spells (shapesOf needed cs) (wordsOf needed cs)
  | [] => .nil
  | c :: cs => (spells_shapeFrom (spells_shape c) needed c.rank).cons (spells_operands needed cs)

end

theorem shapesOf_zero (cs : List Clause) : shapesOf 0 cs = cs.map shape := by
  induction cs with
  | nil => rfl
  | cons c cs ih => simp [shapesOf, shapeFrom, ih]

/-- The leaves of the tree of a rule are the words of the rule, with blanks between them. -/
theorem leaves_tree (cs : List Clause) :
    (tree cs).leaves = (ruleWords cs).intersperse Leaf.blank := by
  have hconditions : Spells [whenClause cs] (Kind.whenKw.leaf :: wordsOf 0 cs) :=
    ((Spells.leaf Kind.whenKw.leaf).cons (shapesOf_zero cs ▸ spells_operands 0 cs)).spread
      (by simp) .whenClause
  have hall : Spells _ (ruleWords cs) :=
    (Spells.leaf Kind.ruleKw.leaf).cons (((Spells.leaf ruleName).node .ruleName).cons
      (hconditions.cons (Spells.leaves [Kind.thenKw.leaf, Kind.endKw.leaf])))
  have hblank : Leaf.blank :: (tree cs).leaves = Leaf.spaced (ruleWords cs) := by
    rw [← hall]
    simp [tree, ruleDecl, thenClause, spread, spaced]
  rw [ruleWords, List.cons_append, List.cons_append, intersperse_eq_cons_flatMap]
  exact (List.cons.inj hblank).2

theorem textOf_intersperse (ws : List Leaf) :
    (ws.intersperse Leaf.blank).flatMap Leaf.text = [' '].intercalate (ws.map Leaf.text) := by
  induction ws with
  | nil => rfl
  | cons w ws ih =>
    cases ws with
    | nil => simp
    | cons v ws =>
      rw [List.map_cons] at ih
      rw [List.intersperse_cons_cons, List.flatMap_cons, List.flatMap_cons, ih, List.map_cons,
        List.map_cons, List.intercalate_cons_cons, List.append_assoc]
      rfl

/-- The text of the tree of a rule is that of the rule. -/
theorem text_tree (cs : List Clause) : (tree cs).text = source cs := by
  rw [Element.text, leaves_tree, textOf_intersperse, source]

-- a chain needs parentheses after `not`
example : source [.absent (.chain .either
      (.pattern none true ⟨['A'], by decide, by decide, by decide +kernel⟩ []) false
      (.pattern none false ⟨['B'], by decide, by decide, by decide +kernel⟩ []) [])] =
    "rule R when not ( ? A ( ) or B ( ) ) then end".toList := by
  decide +kernel

end Clause

end RuleLang
