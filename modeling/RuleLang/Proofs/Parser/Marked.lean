import RuleLang.Proofs.Grammar.Admits
import RuleLang.Proofs.Grammar.AdmitsOperators
import RuleLang.Proofs.Lexeme.Mark
import RuleLang.Proofs.Lexer.Part
import RuleLang.Proofs.Parser.Changed

/-!
# Reading marks

Marks are put where an operator is read: after a token that an operand may end with, or after `not`.
There the text of the mark runs together with nothing, and the text with the marks falls into the
tokens with the marks. So a source without errors, with a mark before each custom operator that lacks
it, is read as the tree of the source with these marks, and again without errors.

## Main statements

* `Ahead.Marked.lexes` — the marked tokens are those of their text.
* `parse_prefixed` — the text of the tree with marks is read as that tree.
-/

namespace RuleLang

open Text Lexeme

/-! ## Leaves before a mark -/

theorem Kind.isOpen_of_endsOperand {k : Kind} (h : k.endsOperand = true) : k.isOpen = false := by
  cases k <;> first | rfl | cases h

/-- A word does not come right after a line comment. -/
theorem Lexes.kind_ne_commentLine {mode : Mode} {l d : Leaf} {more : List Leaf}
    (h : Lexes mode (l :: d :: more)) (hd : d.kind = .ident) : l.kind ≠ .commentLine := by
  intro hl
  obtain ⟨c, rest, mode', htext, hnext, hrest⟩ := h
  obtain ⟨e, text, mode'', hdtext, hdnext, -⟩ := hrest
  have hcomment := normal_of_next (by simp [hl]) hnext
  rw [textOf_cons, hdtext, htext, hl] at hcomment
  have hbreak := isLineBreak_of_commentLine hcomment
  have htrivia := isTrivia_of_next (isBlank_of_isLineBreak hbreak) hdnext
  rw [hd] at htrivia
  cases htrivia

/-- The leaf that opens a text is the lexeme that it is if the text ends after some more leaves and a
mark comes there. -/
theorem Lexes.next_append_mark {mode mode' : Mode} {c : Char} {rest : List Char} {l : Leaf}
    {ls : List Leaf} (hl : l.text = c :: rest)
    (hnext : next mode c (rest ++ textOf ls) = (⟨l.kind, l.text.length, none⟩, mode'))
    (hrest : Lexes mode' ls) (hls : Whole (l :: ls))
    (hlast : ls = [] → l.kind ≠ .commentLine ∧ l.kind ≠ .hash) (z : List Char) :
    next mode c (rest ++ (textOf ls ++ '#' :: z)) = (⟨l.kind, l.text.length, none⟩, mode') := by
  rw [hl] at hnext ⊢
  have hne (hne : ls ≠ []) : textOf ls ≠ [] := fun hnil => by
    obtain ⟨m, ls, rfl⟩ := List.exists_cons_of_ne_nil hne
    exact hrest.text_ne_nil m List.mem_cons_self
      (List.flatMap_eq_nil_iff.1 hnil m List.mem_cons_self)
  refine Lexeme.next_append_mark (fun hk => hne ?_) (fun hk => hne ?_) (fun hk => ?_) hnext z
  · rintro rfl
    exact (hlast rfl).1 hk
  · rintro rfl
    exact (hlast rfl).2 hk
  · -- a significant leaf does not begin with a blank
    obtain ⟨m, hm, hsignificant⟩ := hls.exists_significant (by simp [Kind.isOpen, hk])
    obtain ⟨pre, post, rfl⟩ := List.append_of_mem hm
    obtain ⟨mode'', d, text, mode''', hmtext, hmnext, -⟩ := hrest.append
    refine ⟨d, ?_, ?_⟩
    · rw [textOf_append, textOf_cons, hmtext]
      simp
    · by_contra hblank
      have := isTrivia_of_next (by simpa using hblank) hmnext
      rw [hsignificant] at this
      cases this

namespace Ahead

variable {p : Before} {a b : Ahead}

/-- Where a mark may come next, the last significant token is `not`, or an operand may end with it. -/
theorem Before.kind_of_past {ts pre post : List Token} {t : Token} (h : p.past ts ≠ .other)
    (hts : ts = pre ++ t :: post) (hpost : ∀ u ∈ post, u.isTrivia = true) :
    t.isTrivia = true ∨ t.kind = .notKw ∨ t.kind.endsOperand = true := by
  rw [hts, past_append, past_cons, past_of_trivia _ hpost] at h
  by_contra hnone
  simp only [not_or, Bool.not_eq_true] at hnone
  exact h (Before.after_of_not_endsOperand _ hnone.2.2 hnone.1 hnone.2.1)

/-- Marked tokens are the same up to the first mark. -/
theorem Marked.first (h : Marked p a b) :
    a.map Token.leaf = b.map Token.leaf ∨
      ∃ ts us t m c d, a = ts ++ t :: c ∧ b = us ++ m :: d ∧
        ts.map Token.leaf = us.map Token.leaf ∧ t.kind = .ident ∧ m.leaf = .mark ∧
        p.past ts ≠ .other := by
  induction h with
  | nil => exact .inl rfl
  | @cons p t t' a b hl h ih =>
    rcases ih with ih | ⟨ts, us, d, m, a, b, rfl, rfl, hts, hd, hm, hp⟩
    · exact .inl (by rw [List.map_cons, List.map_cons, hl, ih])
    · exact .inr ⟨t :: ts, t' :: us, d, m, a, b, rfl, rfl,
        by rw [List.map_cons, List.map_cons, hl, hts], hd, hm, hp⟩
  | @mark p t m t' a b ht hp hm hl h =>
    refine .inr ⟨[], [], t, m, a, t' :: b, rfl, rfl, rfl, ht, hm, ?_⟩
    rcases hp with rfl | ⟨rfl, -⟩ <;> exact Before.noConfusion

theorem current_concat_eof {init : List Token} {e : Token} (he : e.kind = .eof) :
    current (init ++ [e]) = current init := by
  induction init with
  | nil =>
    have hsignificant : e.isTrivia = false := by
      rw [Token.isTrivia, he]
      rfl
    rw [List.nil_append, current_cons, hsignificant, he]
    rfl
  | cons t init ih => rw [List.cons_append, current_cons, current_cons, ih]

/-- The end of the input is not marked. -/
theorem Marked.exists_concat {init : List Token} {e : Token} (h : Marked p (init ++ [e]) b)
    (he : e.kind = .eof) : ∃ init' e', b = init' ++ [e'] ∧ Marked p init init' := by
  induction init generalizing p b with
  | nil =>
    cases h with
    | @cons _ _ t' _ _ hl h =>
      cases h
      exact ⟨[], t', rfl, .nil⟩
    | mark ht => cases ht.symm.trans he
  | cons t init ih =>
    cases h with
    | @cons _ _ t' _ _ hl h =>
      obtain ⟨init', e', rfl, hinit⟩ := ih h
      exact ⟨t' :: init', e', rfl, .cons hl hinit⟩
    | @mark _ _ m t' _ _ ht hp hm hl h =>
      obtain ⟨init', e', rfl, hinit⟩ := ih h
      exact ⟨m :: t' :: init', e', rfl, .mark ht (current_concat_eof he ▸ hp) hm hl hinit⟩

/-! ## Marks in a text -/

/-- Leaves before which a mark may come next need nothing after them to be read. -/
theorem Before.whole_of_past {ts : List Token} (h : p.past ts ≠ .other) :
    Whole (ts.map Token.leaf) := by
  rintro l post ⟨pre, hts⟩ hpost
  obtain ⟨ts₁, ts₂, rfl, -, hts₂⟩ := List.map_eq_append_iff.1 hts.symm
  obtain ⟨t, ts₃, rfl, rfl, rfl⟩ := List.map_eq_cons_iff.1 hts₂
  have hpost : ∀ u ∈ ts₃, u.isTrivia = true := fun u hu => hpost u.leaf (List.mem_map_of_mem hu)
  rcases kind_of_past h rfl hpost with ht | ht | ht
  · exact Kind.isOpen_of_isTrivia ht
  · change t.kind.isOpen = false
    rw [ht]
    rfl
  · exact Kind.isOpen_of_endsOperand ht

/-- A token is read before marked tokens like before the tokens without marks. -/
theorem Marked.next_lexeme {t : Token} (h : Marked (p.after t.kind) a b) {mode mode' : Mode} {c : Char}
    {rest : List Char} (hl : t.leaf.text = c :: rest)
    (hnext : Lexeme.next mode c (rest ++ textOf (a.map Token.leaf)) =
      (⟨t.leaf.kind, t.leaf.text.length, none⟩, mode'))
    (hrest : Lexes mode' (a.map Token.leaf)) :
    Lexeme.next mode c (rest ++ textOf (b.map Token.leaf)) =
      (⟨t.leaf.kind, t.leaf.text.length, none⟩, mode') := by
  rcases h.first with hab | ⟨ts, us, d, m, a, b, rfl, rfl, hts, hd, hm, hp⟩
  · rwa [← hab]
  have hp : p.past (t :: ts) ≠ .other := hp
  have hwhole : Whole (t.leaf :: ts.map Token.leaf) := Before.whole_of_past hp
  have htext : textOf ((us ++ m :: b).map Token.leaf) =
      textOf (ts.map Token.leaf) ++ '#' :: '#' :: textOf (b.map Token.leaf) := by
    rw [List.map_append, List.map_cons, textOf_append, textOf_cons, hm, hts]
    rfl
  rw [List.map_append, List.map_cons] at hnext hrest
  have hbefore : Lexes mode (t.leaf :: (ts.map Token.leaf ++ d.leaf :: a.map Token.leaf)) :=
    ⟨c, rest, mode', hl, hnext, hrest⟩
  rw [htext]
  refine Lexes.next_append_mark hl (Lexes.next_of_append hl hnext hrest hwhole)
    (hrest.of_append hwhole.tail) hwhole (fun hnil => ⟨?_, ?_⟩) _
  · rw [hnil, List.nil_append] at hbefore
    exact hbefore.kind_ne_commentLine hd
  · obtain rfl := List.map_eq_nil_iff.1 hnil
    rcases Before.kind_of_past hp (List.nil_append [t]).symm (by simp) with ht | ht | ht
    all_goals
      intro hk
      have hk : t.kind = .hash := hk
      first | rw [Token.isTrivia, hk] at ht | rw [hk] at ht
      cases ht

/-- The marked tokens are those of their text. -/
theorem Marked.lexes (h : Marked p a b) {mode : Mode} (ha : Lexes mode (a.map Token.leaf)) :
    Lexes mode (b.map Token.leaf) := by
  induction h generalizing mode with
  | nil => trivial
  | @cons p t t' a b hl h ih =>
    obtain ⟨c, rest, mode', htext, hnext, hrest⟩ := ha
    rw [List.map_cons, ← hl]
    exact ⟨c, rest, mode', htext, h.next_lexeme htext hnext hrest, ih hrest⟩
  | @mark p t m t' a b ht hp hm hl h ih =>
    obtain ⟨c, rest, mode', htext, hnext, hrest⟩ := ha
    have hident := hnext
    rw [show t.leaf.kind = .ident from ht] at hident
    obtain ⟨rfl, rfl⟩ := next_ident hident
    have hafter : Before.other.after t.kind = .operand := by
      rw [ht]
      rfl
    rw [List.map_cons, List.map_cons, ← hl, hm]
    exact ⟨'#', ['#'], .normal, rfl, next_mark _, c, rest, .normal, htext,
      (hafter ▸ h).next_lexeme htext hnext hrest, ih hrest⟩

end Ahead

/-! ## Parsing marked operators -/

open Grammar Ahead

variable {custom : List Char → Bool}

/-- Tokens that were read without complaint are read as well with the marks of the tree. -/
theorem Accepted.marked {init init' : List Token} {e e' : Token} {root : Element}
    (h : Accepted Production.body (.call .compilationUnit) ⟨init ++ [e], []⟩ ⟨[e], [root]⟩)
    (he : e'.leaf = e.leaf) (hinit : init'.map Token.leaf = (root.prefixed custom).leaves) :
    Marked .other (init ++ [e]) (init' ++ [e']) ∧
      Accepted Production.body (.call .compilationUnit) ⟨init' ++ [e'], []⟩
        ⟨[e'], [root.prefixed custom]⟩ := by
  obtain ⟨n, hn⟩ := h
  obtain ⟨leaves, -, hmarked⟩ := allAdmitted custom n .compilationUnit (init ++ [e])
    Production.noConfusion ⟨init ++ [e], []⟩ ⟨[e], [root]⟩ rfl hn
  -- the tokens that are read are the leaves of what they are read as
  obtain ⟨made, hmade⟩ := exists_map_leaf leaves
  have hleaves := Accepted.leaves_eq (hmarked made [e'] hmade (.cons he.symm .nil)).2
  rw [hmade] at hleaves
  exact hmarked init' [e'] (hinit.trans hleaves) (.cons he.symm .nil)

/-- A source without errors, with marks, is read as the tree with marks. -/
theorem parse_prefixed (custom : List Char → Bool) {source : List Char}
    (hlex : (parse source).lexErrors = []) (hclean : IsClean (parse source).syntaxErrors) :
    let after := (parse source).root.prefixed custom
    (parse after.text).root = after ∧ (parse after.text).lexErrors = [] ∧
      IsClean (parse after.text).syntaxErrors := by
  intro after
  obtain ⟨e, hended, htext⟩ := (covers_lex source).ended
  have he : e.leaf = ⟨.eof, []⟩ := by rw [Token.leaf, hended.kind, htext]
  have hroot : (parse source).root = (parseTokens (lex source).tokens none).1 := by rw [parse_eq]
  have haccepted := hended.accepted (by rwa [parse_eq source] at hclean)
  rw [← hroot, hended.eq] at haccepted
  refine parse_of_lexes ?_ fun init' e' he' hinit' => ?_
  · have hlexes := lexes_parse hlex
    rw [Accepted.leaves_eq haccepted] at hlexes
    obtain ⟨made, hmade⟩ := exists_map_leaf after.leaves
    obtain ⟨init', e', hinit', hmarked⟩ :=
      (Accepted.marked haccepted rfl hmade).1.exists_concat hended.kind
    obtain ⟨rfl, -⟩ := List.append_inj' hinit' rfl
    rw [← hmade]
    exact hmarked.lexes hlexes
  · exact Accepted.parseTokens_eq (Accepted.marked haccepted (he'.trans he.symm) hinit').2

end RuleLang
