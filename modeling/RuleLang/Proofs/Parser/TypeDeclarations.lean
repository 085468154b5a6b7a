import RuleLang.Proofs.Grammar.YieldsTypes
import RuleLang.Proofs.Parser.Clauses

/-!
# Type declarations are read back

A declaration of a type is written with one field on a line. Its text is read as its tree, whose
typed view has the name, the supertypes and the fields of the declaration.

## Main statements

* `TypeDeclaration.lexes_tree` — the text of a declaration falls into its tokens.
* `TypeDeclaration.declares_parse_source` — a declaration is read back, without errors.
-/

namespace RuleLang

open Element Lexeme Text

namespace Lexeme

/-- A lexeme that may serve as a name starts like a word. -/
theorem isWordStart_of_isName {c : Char} {rest : List Char}
    (h : (normal c rest).kind.isName = true) : isWordStart c = true := by
  refine normal_cases (P := fun l => l.kind.isName = true → isWordStart c = true) c rest
    (fun _ h => by cases h) (fun _ h => by cases h) (fun _ h => ?_) (fun _ h => by cases h)
    (fun _ h => ?_) (fun hword _ => hword) (fun k n hp h => ?_) (fun h => by cases h) h
  · rcases kind_slash (c :: rest) with hk | hk | hk | hk <;> (rw [hk] at h; cases h)
  · rcases kind_number (c :: rest) with hk | hk <;> (dsimp only at h; rw [hk] at h; cases h)
  · have htable : ∀ k ∈ Kind.bangDot :: (doublePunctuation.map Prod.snd ++
        singlePunctuation.map Prod.snd), k.isName = false := by decide
    have hname : k.isName = true := h
    rw [htable k (mem_kinds_of_punctuation hp)] at hname
    cases hname

/-- Punctuation that makes no pair with the character after it stands alone. -/
theorem normal_single {c d : Char} {k : Kind} {rest : List Char}
    (hc : isLineBreak c = false ∧ isBlank c = false ∧ c ≠ '/' ∧ c ≠ '"' ∧ c ≠ '\x27' ∧
      c.isDigit = false ∧ isWordStart c = false ∧ c ≠ '!')
    (hsingle : singlePunctuation.lookup c = some k)
    (hpair : doublePunctuation.lookup (c, d) = none) :
    normal c (d :: rest) = ⟨k, 1, none⟩ := by
  obtain ⟨hbreak, hblank, hslash, hquote, hquote', hdigit, hstart, hbang⟩ := hc
  have hdouble : double? (c :: d :: rest) = none := by
    rw [double?_cons, if_neg (by simp [hbang]), hpair]
  have hpunctuation : punctuation? (c :: d :: rest) = some (k, 1) := by
    simp [punctuation?, hdouble, hsingle]
  simp [normal, hbreak, hblank, hslash, hquote, hquote', hdigit, hstart, hpunctuation]

/-- The second characters of the pairs that a character opens. -/
theorem lookup_double_eq_none {c d : Char}
    (h : ∀ p ∈ doublePunctuation, p.1.1 = c → p.1.2 ≠ d) :
    doublePunctuation.lookup (c, d) = none := by
  cases hk : doublePunctuation.lookup (c, d) with
  | none => rfl
  | some k => exact absurd rfl (h _ (mem_of_lookup hk) rfl)

/-- A single dot comes before what is no dot. -/
theorem normal_dot {c : Char} (hc : c ≠ '.') (rest : List Char) :
    normal '.' (c :: rest) = ⟨.dot, 1, none⟩ := by
  have hdots : ∀ p ∈ doublePunctuation, p.1.1 = '.' → p.1.2 = '.' := by decide
  exact normal_single (by decide) (by decide)
    (lookup_double_eq_none fun p hp hfirst hsecond => hc (hsecond ▸ hdots p hp hfirst))

end Lexeme

variable {ls : List Leaf} {d : Char} {z : List Char}

/-! ## Names -/

namespace Name

theorem isWord (n : Name) : n.leaf.IsWord := by
  have hkinds : ∀ k : Kind, k.isName = true → k.isTrivia = false ∧ k ≠ .hash ∧ k ≠ .thenKw := by
    intro k hk
    cases k <;> first | decide | cases hk
  exact .of_lex n.tokens n.errors (hkinds _ n.isName)

/-- Every identifier is a name. -/
def ofIdentifier (n : Identifier) : Name :=
  have htext : textOf [n.leaf] = n.leaf.text := List.append_nil _
  have hlex := lexes_iff_lex.1 n.isWord.lexes
  ⟨n.leaf, rfl, by simpa [htext] using hlex.1, by simpa [htext] using hlex.2⟩

/-- A name comes before a character that ends words. -/
theorem lexes_closing (n : Name) (hd : ClosesWord d) (htextOf : textOf ls = d :: z)
    (hls : Lexes .normal ls) : Lexes .normal (n.leaf :: ls) := by
  obtain ⟨c, w, htext, hnormal, -⟩ := n.isWord.exists_normal
  refine ⟨c, w, .normal, htext, ?_, hls⟩
  have hname : (normal c w).kind.isName = true := hnormal ▸ n.isName
  have hstarts := startsWord_of_isWordStart (isWordStart_of_isName hname)
  have hsame : normal c (w ++ d :: z) = normal c w := by
    rw [normal_of_startsWord hstarts, normal_of_startsWord hstarts, ← List.cons_append,
      wordLength_append_closing hd]
  rw [next_normal, htextOf, hsame, hnormal, if_neg (by simpa using n.isWord.ne_thenKw), htext,
    List.length_cons]

/-- A dot comes before a name. -/
theorem lexes_dot (n : Name) (hls : Lexes .normal (n.leaf :: ls)) :
    Lexes .normal (Kind.dot.leaf :: n.leaf :: ls) := by
  obtain ⟨c, w, htext, hnormal, -⟩ := n.isWord.exists_normal
  have hname : (normal c w).kind.isName = true := hnormal ▸ n.isName
  have hc : c ≠ '.' := by
    rintro rfl
    exact absurd (isWordStart_of_isName hname) (by decide)
  refine ⟨'.', [], .normal, rfl, ?_, hls⟩
  rw [textOf_cons, htext, List.nil_append, List.cons_append, next_normal, normal_dot hc]
  rfl

end Name

/-- A line break comes before anything. -/
theorem lexes_newline (hls : Lexes .normal ls) : Lexes .normal (Leaf.newline :: ls) :=
  ⟨'\n', [], .normal, rfl, rfl, hls⟩

theorem leavesOf_elements (ws : List Leaf) : leavesOf (ws.map Leaf.element) = ws := by
  induction ws with
  | nil => rfl
  | cons w ws ih => simp [ih]

namespace Path

@[simp] theorem leaves_shape (p : Path) : p.shape.leaves = p.leaves := by
  rw [shape, leaves_node, leavesOf_elements]

/-- Names with dots between them come before a character that ends words. -/
theorem lexes_closing (p : Path) (hd : ClosesWord d) (htextOf : textOf ls = d :: z)
    (hls : Lexes .normal ls) : Lexes .normal (p.leaves ++ ls) := by
  obtain ⟨n, ns⟩ := p
  induction ns generalizing n with
  | nil => exact n.lexes_closing hd htextOf hls
  | cons m ns ih =>
    exact n.lexes_closing (d := '.') ⟨by decide, by decide⟩ rfl (m.lexes_dot (ih m))

/-- A blank comes before names. -/
theorem lexes_blank (p : Path) (hls : Lexes .normal (p.leaves ++ ls)) :
    Lexes .normal (Leaf.blank :: (p.leaves ++ ls)) :=
  p.first.isWord.lexes_blank hls

end Path

/-- Tokens of a declaration that always have the same text. -/
theorem Kind.isWord_declaration :
    ∀ k ∈ [Kind.declareKw, .extendsKw, .comma, .colon, .eq, .endKw], k.leaf.IsWord := by
  have hlex : ∀ k ∈ [Kind.declareKw, .extendsKw, .comma, .colon, .eq, .endKw],
      (lex k.leaf.text).tokens.map Token.leaf = [k.leaf, ⟨.eof, []⟩] ∧
        (lex k.leaf.text).errors = [] := by
    decide +kernel
  have hkind : ∀ k ∈ [Kind.declareKw, .extendsKw, .comma, .colon, .eq, .endKw],
      k.isTrivia = false ∧ k ≠ .hash ∧ k ≠ .thenKw := by decide
  exact fun k hk => .of_lex (hlex k hk).1 (hlex k hk).2 (hkind k hk)

/-! ## Fields -/

namespace TypeField

variable (f : TypeField)

/-- What comes after the type of a field, with a line break after it. -/
theorem lexes_initial (htextOf : textOf ls = '\n' :: z) (hls : Lexes .normal ls) :
    Lexes .normal (leavesOf f.initialParts ++ ls) ∧
      ∃ d z, ClosesWord d ∧ textOf (leavesOf f.initialParts ++ ls) = d :: z := by
  rw [initialParts]
  cases f.initial with
  | none => exact ⟨hls, '\n', z, closing_newline.closesWord, htextOf⟩
  | some l =>
    have hliteral := l.isWord.lexes_closing closing_newline htextOf hls
    have heq : Kind.eq.leaf.IsWord := Kind.isWord_declaration _ (by decide)
    have hall := heq.lexes_blank (heq.lexes_cons (l.isWord.lexes_blank hliteral))
    refine ⟨?_, ' ', _, closing_blank.closesWord, rfl⟩
    simpa [Term.shape] using hall

theorem lexes_shape (htextOf : textOf ls = '\n' :: z) (hls : Lexes .normal ls) :
    Lexes .normal (f.shape.leaves ++ ls) := by
  obtain ⟨hinitial, d, z, hd, hinitialText⟩ := f.lexes_initial htextOf hls
  have htype := f.type.lexes_blank (f.type.lexes_closing hd hinitialText hinitial)
  have hcolon : Kind.colon.leaf.IsWord := Kind.isWord_declaration _ (by decide)
  have hall := f.name.isWord.lexes_cons (hcolon.lexes_blank (hcolon.lexes_cons htype))
  simpa [shape, parts] using hall

end TypeField

/-! ## Declarations -/

namespace TypeDeclaration

/-- Each line of a declaration starts with a line break. -/
theorem textOf_lines (fs : List TypeField) (ls : List Leaf) :
    ∃ z, textOf (leavesOf (lines fs) ++ Leaf.newline :: ls) = '\n' :: z := by
  cases fs <;> exact ⟨_, rfl⟩

theorem lexes_lines (fs : List TypeField) (hls : Lexes .normal (Leaf.newline :: ls)) :
    Lexes .normal (leavesOf (lines fs) ++ Leaf.newline :: ls) := by
  induction fs with
  | nil => exact hls
  | cons f fs ih =>
    obtain ⟨z, htextOf⟩ := textOf_lines fs ls
    have hall := lexes_newline (f.lexes_shape htextOf ih)
    rw [lines, List.flatMap_cons, ← lines]
    simpa using hall

/-- Paths with commas between them. -/
theorem lexes_paths (p : Path) (ps : List Path) (hd : ClosesWord d) (htextOf : textOf ls = d :: z)
    (hls : Lexes .normal ls) : Lexes .normal (p.leaves ++ (leavesOf (listed ps) ++ ls)) := by
  induction ps generalizing p with
  | nil => exact p.lexes_closing hd htextOf hls
  | cons q ps ih =>
    have hcomma : Kind.comma.leaf.IsWord := Kind.isWord_declaration _ (by decide)
    have hall := p.lexes_closing (d := ',') ⟨by decide, by decide⟩ rfl
      (hcomma.lexes_cons (q.lexes_blank (ih q)))
    rw [listed, List.flatMap_cons, ← listed]
    simpa using hall

/-- The names of a declaration, and what comes after them on new lines. -/
theorem lexes_names (p : Path) (ps : List Path) (htextOf : textOf ls = '\n' :: z)
    (hls : Lexes .normal ls) :
    Lexes .normal (p.leaves ++ (leavesOf (supertypeParts ps) ++ ls)) := by
  cases ps with
  | nil => exact p.lexes_closing closing_newline.closesWord htextOf hls
  | cons q ps =>
    have hextends : Kind.extendsKw.leaf.IsWord := Kind.isWord_declaration _ (by decide)
    have hpaths := lexes_paths q ps closing_newline.closesWord htextOf hls
    have hall := p.lexes_closing closing_blank.closesWord rfl
      (hextends.lexes_blank (hextends.lexes_cons (q.lexes_blank hpaths)))
    simpa [supertypeParts] using hall

/-- The text of a declaration falls into the tokens of its tree. -/
theorem lexes_tree (d : TypeDeclaration) : Lexes .normal d.tree.leaves := by
  have hend : Lexes .normal [Leaf.newline, Kind.endKw.leaf] :=
    lexes_newline (Kind.isWord_declaration .endKw (by decide)).lexes
  obtain ⟨z, htextOf⟩ := textOf_lines d.fields [Kind.endKw.leaf]
  have hnames := lexes_names d.name d.supertypes htextOf (lexes_lines d.fields hend)
  have hdeclare : Kind.declareKw.leaf.IsWord := Kind.isWord_declaration _ (by decide)
  have hall := hdeclare.lexes_cons (d.name.lexes_blank hnames)
  simpa [tree, shape, parts] using hall

/-- A declaration of a type is read back: its text is read without errors as a file with one
declaration, which has the name, the supertypes and the fields with their types. -/
theorem declares_parse_source (d : TypeDeclaration) (h : d.Separable) (limit : Option Nat) :
    ∃ (file : CompilationUnit) (declaration : DeclareDecl),
      parse d.source limit = ⟨file.element, [], []⟩ ∧ file.declares = [declaration] ∧
      declaration.name? = some d.name.text ∧
      declaration.supertypes = d.supertypes.map Path.text ∧
      declaration.fields = d.fields.map fun f => (f.name.text, f.type.text) := by
  refine ⟨⟨[d.shape]⟩, d.view, ?_, d.declares_tree, d.name?_view, d.supertypes_view, d.fields_view⟩
  rw [← d.text_tree]
  exact (d.yields_tree h).parse_eq d.lexes_tree limit

/-- A type whose fields are named like keywords. -/
def keywordFields : TypeDeclaration :=
  let t : Path := ⟨.ofIdentifier ⟨['T'], by decide, by decide, by decide +kernel⟩, []⟩
  let c : Path := ⟨.ofIdentifier ⟨['C'], by decide, by decide, by decide +kernel⟩, []⟩
  let d : Path := ⟨.ofIdentifier ⟨['a'], by decide, by decide, by decide +kernel⟩, [c.first]⟩
  { name := t
    supertypes := [c, d]
    fields :=
      [⟨⟨Kind.matchesKw.leaf, by decide, by decide +kernel, by decide +kernel⟩, d,
          some ⟨⟨.intLit, ['5']⟩, by decide, by decide +kernel, by decide +kernel⟩⟩,
        ⟨⟨Kind.fromKw.leaf, by decide, by decide +kernel, by decide +kernel⟩, t, none⟩] }

theorem declares_parse_keywordFields :
    ∃ (file : CompilationUnit) (declaration : DeclareDecl),
      parse "declare T extends C, a.C\nmatches : a.C = 5\nfrom : T\nend".toList none =
        ⟨file.element, [], []⟩ ∧ file.declares = [declaration] ∧
      declaration.name? = some ['T'] ∧ declaration.supertypes = [['C'], ['a', '.', 'C']] ∧
      declaration.fields =
        [(Kind.matchesKw.leaf.text, ['a', '.', 'C']), (Kind.fromKw.leaf.text, ['T'])] := by
  have hsource : keywordFields.source =
      "declare T extends C, a.C\nmatches : a.C = 5\nfrom : T\nend".toList := by decide +kernel
  have hseparable : keywordFields.Separable := by
    refine ⟨by decide, nofun, ?_⟩
    exact .cons_cons (fun _ => by decide) (.singleton _)
  rw [← hsource]
  exact declares_parse_source keywordFields hseparable none

/-- A field that is named like an operator is lost after an initial value. -/
example : (parse "declare T\na : int = 5\nmatches : D\nend".toList none).syntaxErrors ≠ [] := by
  decide +kernel

end TypeDeclaration

end RuleLang
