import RuleLang.Ast.Conditions
import RuleLang.Proofs.Grammar.YieldsClauses
import RuleLang.Proofs.Parser.Marked

/-!
# Conditions are read back

A rule with conditional elements is written with single blanks between its words, and with
parentheses only where the grammar asks for them. The text is read back as the rule: each word is
one token, and the conditional elements are the nodes that they are meant to be.

## Main definitions

* `Leaf.IsWord` — a word that is a lexeme of its own, also before a blank.

## Main statements

* `Clause.lexes_tree` — the text of a rule falls into its words.
* `Clause.parse_source` — the text of a rule is read as its tree, without errors.
-/

namespace RuleLang

open Element Lexeme Grammar

/-! ## Words before blanks -/

/-- A word that is a lexeme of its own, and the same one before a blank. -/
structure Leaf.IsWord (l : Leaf) : Prop where
  lexes : Lexes .normal [l]
  isTrivia : l.kind.isTrivia = false
  ne_hash : l.kind ≠ .hash
  ne_thenKw : l.kind ≠ .thenKw

namespace Lexeme

/-- A word that is no keyword is read as an identifier. -/
theorem wordLength_of_plain {w : List Char} (hw : ∀ c ∈ w, isWordPart c = true)
    (hplain : Kind.ofKeyword? w = none) : wordLength w = (w.length, .ident) := by
  have hends : joinedLengths 0 w = [w.length] := by
    have := joinedLengths_append 0 [] hw
    rwa [List.append_nil, Nat.zero_add] at this
  have hall : w.takeWhile isWordPart = w := List.takeWhile_eq_self_iff.2 hw
  simp [wordLength, hends, hplain, plainWordLength, hall]

end Lexeme

namespace Leaf.IsWord

variable {l : Leaf} {ls : List Leaf}

/-- The first character of a word is no blank. -/
theorem exists_normal (h : l.IsWord) :
    ∃ c w, l.text = c :: w ∧ normal c w = ⟨l.kind, w.length + 1, none⟩ ∧
      Text.isBlank c = false := by
  obtain ⟨c, w, mode', htext, hnext, -⟩ := h.lexes
  have hnormal : normal c w = ⟨l.kind, w.length + 1, none⟩ := by
    rw [textOf_nil, List.append_nil, htext] at hnext
    exact congrArg Prod.fst hnext
  refine ⟨c, w, htext, hnormal, ?_⟩
  cases hc : Text.isBlank c with
  | false => rfl
  | true =>
    have htrivia : (normal c w).kind.isTrivia = true := isTrivia_of_isBlank hc
    rw [hnormal] at htrivia
    exact absurd htrivia (by simp [h.isTrivia])

/-- A word comes before a character that ends it. -/
theorem lexes_closing (h : l.IsWord) {d : Char} {z : List Char} (hd : Closing d)
    (htextOf : textOf ls = d :: z) (hls : Lexes .normal ls) : Lexes .normal (l :: ls) := by
  obtain ⟨c, w, htext, hnormal, -⟩ := h.exists_normal
  refine ⟨c, w, .normal, htext, ?_, hls⟩
  have hne {k : Kind} (hk : k.isTrivia = true) : l.kind ≠ k := fun he => by
    have htrivia := h.isTrivia
    rw [he, hk] at htrivia
    cases htrivia
  have hsame := normal_append_closing (u := []) (z := z) hd
    (fun hk => absurd hk (hne rfl)) (fun hk => absurd hk h.ne_hash)
    (fun hk => absurd hk (hne rfl)) (fun hk => absurd hk (hne rfl)) (by rwa [List.append_nil])
  rw [next_normal, htextOf, ← List.nil_append (d :: z), hsame, if_neg (by simpa using h.ne_thenKw),
    htext, List.length_cons]

/-- A word comes before a blank. -/
theorem lexes_cons (h : l.IsWord) (hls : Lexes .normal (Leaf.blank :: ls)) :
    Lexes .normal (l :: Leaf.blank :: ls) :=
  h.lexes_closing closing_blank rfl hls

/-- A blank comes before a word. -/
theorem lexes_blank (h : l.IsWord) (hls : Lexes .normal (l :: ls)) :
    Lexes .normal (Leaf.blank :: l :: ls) := by
  obtain ⟨c, w, htext, -, hc⟩ := h.exists_normal
  refine ⟨' ', [], .normal, rfl, ?_, hls⟩
  have hinline : isInlineBlank c = false := by simp [isInlineBlank, hc]
  have hblanks : normal ' ' (textOf (l :: ls)) = ⟨.whitespace, 1, none⟩ := by
    have hfirst : Text.isLineBreak ' ' = false ∧ Text.isBlank ' ' = true ∧
        isInlineBlank ' ' = true := by
      decide
    simp [normal, blankLength, textOf_cons, htext, hinline, hfirst]
  rw [List.nil_append, next_normal, hblanks]
  rfl

/-- Words with blanks before them come before other leaves with a blank. -/
theorem lexes_spaced {ws : List Leaf} (hws : ∀ l ∈ ws, l.IsWord)
    (hls : Lexes .normal (Leaf.blank :: ls)) :
    Lexes .normal (Leaf.spaced ws ++ Leaf.blank :: ls) := by
  induction ws with
  | nil => exact hls
  | cons l ws ih =>
    obtain ⟨hl, hws⟩ := List.forall_mem_cons.1 hws
    refine hl.lexes_blank ?_
    have hrest := ih hws
    cases ws with
    | nil => exact hl.lexes_cons hls
    | cons => exact hl.lexes_cons hrest

end Leaf.IsWord

/-! ## The words of conditions -/

theorem Identifier.isWord (n : Identifier) : n.leaf.IsWord := by
  refine ⟨?_, rfl, nofun, nofun⟩
  obtain ⟨text, hstart, hpart, hplain⟩ := n
  obtain ⟨c, w, rfl⟩ : ∃ c w, text = c :: w := by
    cases text with
    | nil => cases hstart
    | cons c w => exact ⟨c, w, rfl⟩
  refine ⟨c, w, .normal, rfl, ?_, trivial⟩
  have hnormal := normal_of_startsWord (startsWord_of_isWordStart (by simpa using hstart)) w
  rw [wordLength_of_plain (List.all_eq_true.1 hpart) hplain] at hnormal
  rw [textOf_nil, List.append_nil, next_normal, hnormal]
  rfl

/-- A text that is one token, which takes part in the grammar. -/
theorem Leaf.IsWord.of_lex {l : Leaf} (htokens : (lex l.text).tokens.map Token.leaf = [l, ⟨.eof, []⟩])
    (herrors : (lex l.text).errors = [])
    (hkind : l.kind.isTrivia = false ∧ l.kind ≠ .hash ∧ l.kind ≠ .thenKw) : l.IsWord := by
  refine ⟨lexes_iff_lex.2 ?_, hkind.1, hkind.2.1, hkind.2.2⟩
  simpa [textOf] using And.intro htokens herrors

theorem Literal.isWord (l : Literal) : l.leaf.IsWord := by
  have hkinds : ∀ k : Kind, k.isLiteral = true → k.isTrivia = false ∧ k ≠ .hash ∧ k ≠ .thenKw := by
    intro k hk
    cases k <;> first | decide | cases hk
  exact .of_lex l.tokens l.errors (hkinds _ l.isLiteral)

/-- The words with one text that conditions have. -/
def fixedWords : List Kind :=
  [.eqEq, .neq, .lt, .gt, .ltEq, .gtEq, .matchesKw, .containsKw, .memberOfKw, .soundslikeKw,
    .excludesKw, .strKw, .hashHash, .notKw, .existsKw, .evalKw, .forallKw, .orKw, .pipePipe,
    .andKw, .ampAmp, .lParen, .rParen, .comma, .colon, .question, .ruleKw, .whenKw]

theorem Kind.isWord_leaf {k : Kind} (h : k ∈ fixedWords) : k.leaf.IsWord := by
  have hlex : ∀ k ∈ fixedWords,
      (lex k.leaf.text).tokens.map Token.leaf = [k.leaf, ⟨.eof, []⟩] ∧
        (lex k.leaf.text).errors = [] := by
    decide +kernel
  have hkind : ∀ k ∈ fixedWords, k.isTrivia = false ∧ k ≠ .hash ∧ k ≠ .thenKw := by decide
  exact .of_lex (hlex k h).1 (hlex k h).2 (hkind k h)

/-- Words that are all lexemes of their own. -/
def AllWords (ws : List Leaf) : Prop :=
  ∀ l ∈ ws, l.IsWord

namespace AllWords

variable {ws vs : List Leaf} {l : Leaf} {k : Kind}

theorem nil : AllWords [] :=
  nofun

theorem cons (hl : l.IsWord) (hws : AllWords ws) : AllWords (l :: ws) :=
  List.forall_mem_cons.2 ⟨hl, hws⟩

theorem append (hws : AllWords ws) (hvs : AllWords vs) : AllWords (ws ++ vs) :=
  List.forall_mem_append.2 ⟨hws, hvs⟩

theorem one (hl : l.IsWord) : AllWords [l] :=
  cons hl nil

theorem optional (hl : l.IsWord) (given : Bool) : AllWords (l.optional given) :=
  Leaf.forall_mem_optional hl given

theorem leaf (hk : k ∈ fixedWords) : AllWords [k.leaf] :=
  one (Kind.isWord_leaf hk)

theorem parens (hws : AllWords ws) : AllWords (Kind.lParen.leaf :: ws ++ [Kind.rParen.leaf]) :=
  append (cons (Kind.isWord_leaf (by decide)) hws) (leaf (by decide))

end AllWords

theorem Term.isWord (t : Term) : t.leaf.IsWord := by
  cases t with
  | name n => exact n.isWord
  | literal l => exact l.isWord

theorem Relation.mem_fixedWords {k : Kind} (h : k.isComparison = true ∨ k.isWordOperator = true) :
    k ∈ fixedWords := by
  cases k <;> first | decide | (rcases h with h | h <;> cases h)

theorem Relation.allWords (r : Relation) : AllWords r.words := by
  cases r with
  | symbol k h => exact .leaf (mem_fixedWords (.inl h))
  | word negated k h =>
    exact (AllWords.optional (Kind.isWord_leaf (by decide)) negated).append
      (.leaf (mem_fixedWords (.inr h)))
  | custom negated marked name =>
    exact (AllWords.optional (Kind.isWord_leaf (by decide)) negated).append
      ((AllWords.optional (Kind.isWord_leaf (by decide)) marked).append (.one name.isWord))

theorem Test.allWords (t : Test) : AllWords t.words :=
  (AllWords.cons t.left.isWord t.relation.allWords).append (.one t.right.isWord)

theorem Junction.isWord_link (j : Junction) (symbol : Bool) : (j.link symbol).IsWord := by
  cases j <;> cases symbol <;> exact Kind.isWord_leaf (by decide)

theorem Junction.isWord_word (j : Junction) : j.word.IsWord :=
  j.isWord_link false

namespace Clause

theorem allWords_constraints (ts : List Test) :
    AllWords ([Kind.comma.leaf].intercalate (ts.map Test.words)) := by
  induction ts with
  | nil => exact .nil
  | cons t ts ih =>
    cases ts with
    | nil => simpa using t.allWords
    | cons d ts =>
      rw [List.map_cons, List.map_cons, List.intercalate_cons_cons]
      exact (t.allWords.append (.leaf (by decide))).append ih

theorem allWords_wordsFrom {ws : List Leaf} (hws : AllWords ws) (needed rank : Nat) :
    AllWords (wordsFrom needed rank ws) := by
  rw [wordsFrom]
  split
  · exact hws.parens
  · exact hws

theorem allWords_pattern (binding : Option Identifier) (query : Bool) (type : Identifier)
    (constraints : List Test) : AllWords (pattern binding query type constraints).words := by
  have hbinding : AllWords ((binding.map fun v => [v.leaf, Kind.colon.leaf]).getD []) := by
    cases binding with
    | none => exact .nil
    | some v => exact .cons v.isWord (.leaf (by decide))
  have harguments := (allWords_constraints constraints).append (.leaf (by decide : .rParen ∈ _))
  rw [words]
  exact hbinding.append ((AllWords.optional (Kind.isWord_leaf (by decide)) query).append
    (.cons type.isWord (.cons (Kind.isWord_leaf (by decide)) harguments)))

mutual

theorem allWords : ∀ c : Clause, AllWords c.words
  | .pattern binding query type constraints => allWords_pattern binding query type constraints
  | .chain j first symbol second more => by
    rw [words]
    exact ((allWords_wordsFrom (allWords first) _ _).append (.cons (j.isWord_link symbol)
      (allWords_wordsFrom (allWords second) _ _))).append (allWords_links j more)
  | .absent c => by
    rw [words]
    exact .cons (Kind.isWord_leaf (by decide)) (allWords_wordsFrom (allWords c) _ _)
  | .present c => by
    rw [words]
    exact .cons (Kind.isWord_leaf (by decide)) (allWords_wordsFrom (allWords c) _ _)
  | .eval t => by
    rw [words]
    exact .cons (Kind.isWord_leaf (by decide)) t.allWords.parens
  | .all items => by
    rw [words]
    exact .cons (Kind.isWord_leaf (by decide)) (allWords_operands 0 items).parens
  | .paren c => by
    rw [words]
    exact (allWords c).parens
  | .group j first more => by
    rw [words]
    exact (((AllWords.cons (Kind.isWord_leaf (by decide)) (.one j.isWord_word)).append
      (allWords_wordsFrom (allWords first) _ _)).append (allWords_operands 2 more)).append
        (.leaf (by decide))

theorem allWords_links (j : Junction) :
    ∀ more : List (Bool × Clause), AllWords (wordsOfLinks j more)
  | [] => .nil
  | (symbol, c) :: more => by
    rw [wordsOfLinks]
    exact (AllWords.cons (j.isWord_link symbol) (allWords_wordsFrom (allWords c) _ _)).append
      (allWords_links j more)

theorem allWords_operands (needed : Nat) : ∀ cs : List Clause, AllWords (wordsOf needed cs)
  | [] => .nil
  | c :: cs => by
    rw [wordsOf]
    exact (allWords_wordsFrom (allWords c) _ _).append (allWords_operands needed cs)

end

/-- The words of a rule are the lexemes of its text. -/
theorem lexes_tree (cs : List Clause) : Lexes .normal (tree cs).leaves := by
  have hend : Lexes .normal [Leaf.blank, Kind.thenKw.leaf, Leaf.blank, Kind.endKw.leaf] := by
    refine ⟨' ', [], .normal, rfl, rfl, 't', ['h', 'e', 'n'], .consequence, rfl, ?_,
      ' ', [], .consequence, rfl, ?_, 'e', ['n', 'd'], .normal, rfl, ?_, trivial⟩
    all_goals decide +kernel
  have hname : ruleName.IsWord :=
    Identifier.isWord ⟨['R'], by decide, by decide, by decide +kernel⟩
  have hwords : AllWords (ruleName :: Kind.whenKw.leaf :: wordsOf 0 cs) :=
    .cons hname (.cons (Kind.isWord_leaf (by decide)) (allWords_operands 0 cs))
  have hall := Leaf.IsWord.lexes_spaced hwords hend
  have hrule : Kind.ruleKw.leaf.IsWord := Kind.isWord_leaf (by decide)
  rw [leaves_tree, ruleWords, List.cons_append, List.cons_append, intersperse_eq_cons_flatMap,
    List.flatMap_append]
  exact hrule.lexes_cons hall

theorem isNode_shape (c : Clause) : (c.shape.isNode && c.shape.kind != .error) = true := by
  cases c with
  | chain j => cases j <;> simp [shape, spread, Element.isNode, Element.kind, Junction.kind]
  | _ => simp [shape, spread, Element.isNode, Element.kind]

/-- The conditional elements below the node for the conditions. -/
theorem elements_whenClause (cs : List Clause) :
    WhenClause.elements ⟨(whenClause cs).children⟩ = cs.map shape := by
  have hspaced : (spaced (cs.map shape)).filter (fun e => e.isNode && e.kind != .error) =
      cs.map shape := by
    induction cs with
    | nil => rfl
    | cons c cs ih =>
      rw [spaced] at ih
      rw [List.map_cons, spaced, List.flatMap_cons, List.filter_append, ih]
      have hone : [c.shape].filter (fun e => e.isNode && e.kind != .error) = [c.shape] :=
        List.filter_eq_self.2 (List.forall_mem_singleton.2 (isNode_shape c))
      rw [List.filter_cons_of_neg (by decide), hone, List.singleton_append]
  rw [WhenClause.elements, whenClause, spread, intersperse_cons]
  exact (List.filter_cons_of_neg (by decide)).trans hspaced

/-- A rule with conditions is read back without errors, and its conditional elements are the nodes
of these conditions. -/
theorem parse_source (cs : List Clause) (limit : Option Nat) :
    parse (source cs) limit = ⟨tree cs, [], []⟩ ∧
      WhenClause.elements ⟨(whenClause cs).children⟩ = cs.map shape := by
  refine ⟨?_, elements_whenClause cs⟩
  rw [← text_tree]
  exact (yields_tree cs).parse_eq (lexes_tree cs) limit

end Clause

end RuleLang
