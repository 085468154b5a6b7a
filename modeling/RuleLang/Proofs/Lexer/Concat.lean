import RuleLang.Grammar.Basic
import RuleLang.Lexer
import RuleLang.Proofs.Lexeme.LineEnd
import RuleLang.Proofs.Text.Slice

/-!
# Texts one after the other

A text that ends with a line break falls into the same tokens whatever comes after it, unless its last
tokens leave a consequence open. What comes after it is read as it would be read alone, at another
place: the bytes and the lines before it grow, the columns stay.

## Main definitions

* `Position.moved`, `Span.moved`, `Token.moved` — the place in the longer text.
* `LexError.moved`, `SyntaxError.moved` — an error at its place in the longer text.
* `lastKind` — the kind of the last significant token.
* `Settled` — a consequence neither comes next nor is open.

## Main statements

* `scan_moved` — the lexemes of a text do not depend on where it stands.
* `scan_append` — the tokens of two texts, one after the other.
-/

namespace RuleLang

open Text

/-! ## Moved text -/

section Moved

def Position.moved (bytes lines : Nat) (p : Position) : Position :=
  ⟨p.offset + bytes, p.line + lines, p.column⟩

def Span.moved (bytes : Nat) (s : Span) : Span :=
  ⟨s.start + bytes, s.stop + bytes⟩

def Token.moved (bytes lines : Nat) (t : Token) : Token :=
  { t with position := t.position.moved bytes lines }

def LexError.moved (bytes : Nat) (e : LexError) : LexError :=
  { e with span := e.span.moved bytes }

def SyntaxError.moved (bytes : Nat) (e : SyntaxError) : SyntaxError :=
  { e with span := e.span.moved bytes }

def Scanned.moved (bytes lines : Nat) (s : Scanned) : Scanned :=
  { s with token := s.token.moved bytes lines }

variable {bytes lines : Nat}

namespace Token

@[simp] theorem kind_moved (t : Token) : (t.moved bytes lines).kind = t.kind := rfl

@[simp] theorem text_moved (t : Token) : (t.moved bytes lines).text = t.text := rfl

@[simp] theorem isTrivia_moved (t : Token) : (t.moved bytes lines).isTrivia = t.isTrivia := rfl

@[simp] theorem leaf_moved (t : Token) : (t.moved bytes lines).leaf = t.leaf := rfl

@[simp] theorem ofToken_moved (t : Token) :
    Element.ofToken (t.moved bytes lines) = Element.ofToken t := rfl

@[simp] theorem span_moved (t : Token) : (t.moved bytes lines).span = t.span.moved bytes := by
  simp only [span, moved, Position.moved, Span.moved, Span.mk.injEq, true_and]
  omega

end Token

theorem Position.advance_moved (p : Position) (text : List Char) :
    (p.moved bytes lines).advance text = (p.advance text).moved bytes lines := by
  induction text generalizing p with
  | nil => rfl
  | cons c cs ih =>
    simp only [advance]
    rw [← ih]
    congr 1
    simp only [moved]
    split
    · simp only [Position.mk.injEq, and_true]
      omega
    · split <;>
      · simp only [Position.mk.injEq, and_true]
        omega

theorem Scanned.error?_moved (s : Scanned) :
    (s.moved bytes lines).error? = s.error?.map (LexError.moved bytes) := by
  cases hs : s.fault <;> simp [error?, moved, hs, LexError.moved]

/-- The lexemes of a text do not depend on where it stands. -/
theorem scan_moved (mode : Mode) (p : Position) (skip : Nat) (text : List Char) :
    scan mode (p.moved bytes lines) skip text =
      (scan mode p skip text).map (Scanned.moved bytes lines) := by
  induction text generalizing mode p skip with
  | nil => simp [scan, Scanned.moved, Token.moved]
  | cons c rest ih =>
    cases skip with
    | zero =>
      simp only [scan, List.map_cons, Position.advance_moved, ih]
      rfl
    | succ skip => exact ih mode p skip

end Moved

/-! ## The last significant token -/

/-- The kind of the last significant token, or the kind before the tokens if there is none. -/
def lastKind (before : Option Kind) (tokens : List Token) : Option Kind :=
  tokens.foldl (fun k t => if t.isTrivia then k else some t.kind) before

/-- After a token of this kind a consequence neither comes next nor is open. -/
def Settled (k : Option Kind) : Prop :=
  k ≠ some .thenKw ∧ k ≠ some .actionText

theorem lastKind_append (before : Option Kind) (ts us : List Token) :
    lastKind before (ts ++ us) = lastKind (lastKind before ts) us :=
  List.foldl_append

theorem lastKind_of_trivia (before : Option Kind) {ts : List Token}
    (h : ∀ t ∈ ts, t.isTrivia = true) : lastKind before ts = before := by
  induction ts with
  | nil => rfl
  | cons t ts ih =>
    rw [lastKind, List.foldl_cons, if_pos (h t List.mem_cons_self)]
    exact ih fun u hu => h u (List.mem_cons_of_mem t hu)

namespace Lexeme

variable {c : Char} {rest : List Char}

theorem isTrivia_of_isBlank (hc : isBlank c = true) : (normal c rest).kind.isTrivia = true := by
  simp only [normal, hc, if_true]
  split <;> rfl

theorem isTrivia_of_startsTrivia (h : startsTrivia (c :: rest) = true) :
    (normal c rest).kind.isTrivia = true := by
  by_cases hc : isBlank c = true
  · exact isTrivia_of_isBlank hc
  have hslash : c = '/' := by
    simp only [startsTrivia, startsLineComment_cons, startsBlockComment_cons, List.head?_cons,
      Option.any_some, hc, Bool.false_or, ← Bool.and_or_distrib_left, Bool.and_eq_true,
      beq_iff_eq] at h
    exact h.1
  subst hslash
  rw [startsTrivia, List.head?_cons, Option.any_some, Bool.eq_false_of_not_eq_true hc,
    Bool.false_or] at h
  have hnormal : normal '/' rest = slash ('/' :: rest) := rfl
  rw [hnormal, slash]
  cases hline : startsLineComment ('/' :: rest) with
  | true => rfl
  | false =>
    rw [hline, Bool.false_or] at h
    simp only [h, if_true]
    rfl

/-- A consequence that nothing closes reaches to the end of the text, without the blanks there. -/
theorem next_open (h : startsTrivia (c :: rest) = false)
    (hend : consequenceLength? (c :: rest) = none) :
    next .consequence c rest = (⟨.actionText, actionLength (c :: rest), none⟩, .normal) ∧
      ∀ d ∈ (c :: rest).drop (actionLength (c :: rest)), isBlank d = true := by
  have hblank : isBlank c = false := by
    simp only [startsTrivia, Bool.or_eq_false_iff] at h
    exact h.1.1
  have hpos : actionLength (c :: rest) ≠ 0 := by
    rw [Ne, actionLength_eq_zero_iff hblank]
    intro hcloses
    simp [consequenceLength?, findEnd, hcloses] at hend
  refine ⟨?_, ?_⟩
  · simp [next, h, Nat.pos_of_ne_zero hpos]
  · obtain ⟨blanks, htext, hblanks⟩ := trimEnd_append_blanks (c :: rest)
    have hlength : actionLength (c :: rest) = (trimEnd (c :: rest)).length := by
      rw [actionLength, hend, Option.getD_none, List.take_length]
    have hdrop : (trimEnd (c :: rest) ++ blanks).drop (actionLength (c :: rest)) = blanks := by
      rw [hlength, List.drop_left]
    rw [← htext] at hdrop
    rwa [hdrop]

/-- A consequence comes next only after `then` and trivia. -/
theorem kind_of_next {mode : Mode} {l : Lexeme} (h : next mode c rest = (l, .consequence)) :
    l.kind.isTrivia = true ∧ mode = .consequence ∨ l.kind = .thenKw := by
  rcases next_cases h with ⟨hmode, -, htrivia, rfl⟩ | ⟨-, hmode, -⟩ | ⟨-, hmode, -⟩
  · exact .inl ⟨isTrivia_of_startsTrivia htrivia, hmode⟩
  · cases hmode
  · cases hthen : l.kind == .thenKw with
    | true => exact .inr (beq_iff_eq.1 hthen)
    | false =>
      rw [hthen] at hmode
      cases hmode

end Lexeme

/-! ## Blanks -/

theorem scan_ne_nil (mode : Mode) (p : Position) (text : List Char) : scan mode p 0 text ≠ [] := by
  have := (covers_scan mode p text).ne_nil
  simpa using this

/-- Blanks are well formed, and they are trivia up to the end of the text. -/
theorem scan_of_blanks {p : Position} {text : List Char} (h : ∀ c ∈ text, isBlank c = true) :
    ∀ s ∈ scan .normal p 0 text,
      s.fault = none ∧ (s.token.kind ≠ .eof → s.token.isTrivia = true) := by
  induction hn : text.length using Nat.strongRecOn generalizing p text with
  | ind n ih =>
    subst hn
    cases text with
    | nil => simp [scan]
    | cons c rest =>
      have hc := h c List.mem_cons_self
      have hkind : (Lexeme.normal c rest).kind.isTrivia = true := Lexeme.isTrivia_of_isBlank hc
      have hfault : (Lexeme.normal c rest).fault = none := by
        simp only [Lexeme.normal, hc, if_true]
        split <;> rfl
      have hpos := Lexeme.length_next_pos .normal c rest
      have hnext : Lexeme.next .normal c rest = (Lexeme.normal c rest, .normal) := by
        rw [Lexeme.next_normal, if_neg]
        intro hthen
        rw [beq_iff_eq.1 hthen] at hkind
        cases hkind
      rw [hnext] at hpos
      rw [scan_cons, hnext]
      intro s hs
      rcases List.mem_cons.1 hs with rfl | hs
      · exact ⟨hfault, fun _ => hkind⟩
      · refine ih _ ?_ (fun d hd => h d (List.mem_of_mem_drop hd)) rfl s hs
        rw [List.length_drop]
        simp only [List.length_cons] at hpos ⊢
        omega

/-- Blanks are trivia. -/
theorem isTrivia_of_blanks {p : Position} {text : List Char} (h : ∀ c ∈ text, isBlank c = true) :
    ∀ s ∈ (scan .normal p 0 text).dropLast, s.token.isTrivia = true := by
  intro s hs
  have hne := (covers_scan .normal p text).dropLast_ne s.token
    (by rw [← List.map_dropLast]; exact List.mem_map_of_mem hs)
  exact (scan_of_blanks h s (List.dropLast_subset _ hs)).2 hne.2

/-! ## The seam -/

/-- The tokens of a text that ends with a line break, without its `eof`, come before those of the
text after it. -/
theorem scan_append {text more : List Char} (h : text = [] ∨ text.getLast?.any isLineBreak = true)
    (hmore : Lexeme.Follows more) {before : Option Kind} {mode : Mode} {p : Position}
    (hmode : mode = .consequence → before = some .thenKw)
    (hfault : ∀ s ∈ scan mode p 0 text, s.fault = none)
    (hlast : Settled (lastKind before ((scan mode p 0 text).dropLast.map Scanned.token))) :
    ∃ q, scan mode p 0 (text ++ more) = (scan mode p 0 text).dropLast ++ scan .normal q 0 more ∧
      q.offset = p.offset + byteLength text ∧ p.line ≤ q.line ∧
      (text = [] ∧ q = p ∨ q.column = 1) := by
  induction hn : text.length using Nat.strongRecOn generalizing before mode p text with
  | ind n ih =>
    subst hn
    cases text with
    | nil =>
      refine ⟨p, ?_, by simp, Nat.le_refl _, .inl ⟨rfl, rfl⟩⟩
      cases mode with
      | normal => rfl
      | consequence => exact absurd (hmode rfl) hlast.1
    | cons c rest =>
      have hends : (c :: rest).getLast?.any isLineBreak = true := h.resolve_left (by simp)
      have hpos := Lexeme.length_next_pos mode c rest
      have hle := Lexeme.length_next_le mode c rest
      rw [scan_cons, List.dropLast_cons_of_ne_nil (scan_ne_nil _ _ _)] at hlast
      rw [scan_cons] at hfault
      dsimp only at hfault hlast
      have hclosed (hcons : mode = .consequence) (htrivia : Lexeme.startsTrivia (c :: rest) = false) :
          Lexeme.consequenceLength? (c :: rest) ≠ none := by
        intro hend
        obtain ⟨hnext, hblanks⟩ := Lexeme.next_open htrivia hend
        rw [hcons, hnext] at hlast
        refine hlast.2 (lastKind_of_trivia (some .actionText) fun t ht => ?_)
        obtain ⟨s, hs, rfl⟩ := List.mem_map.1 ht
        exact isTrivia_of_blanks hblanks s hs
      have hnext := Lexeme.next_append hends hmore (hfault _ List.mem_cons_self) hclosed
      generalize hl : Lexeme.next mode c rest = result at *
      obtain ⟨l, mode'⟩ := result
      dsimp only at hpos hle hfault hlast
      have htext : (c :: rest).take l.length ++ (c :: rest).drop l.length = c :: rest :=
        List.take_append_drop _ _
      have hrest : (c :: rest).drop l.length = [] ∨
          ((c :: rest).drop l.length).getLast?.any isLineBreak = true := by
        rw [List.getLast?_drop]
        split
        · exact .inl (List.drop_eq_nil_of_le ‹_›)
        · exact .inr hends
      have hlt : ((c :: rest).drop l.length).length < (c :: rest).length := by
        rw [List.length_drop]
        simp only [List.length_cons] at hpos ⊢
        omega
      have hmode' : mode' = .consequence →
          (if l.kind.isTrivia then before else some l.kind) = some .thenKw := by
        rintro rfl
        rcases Lexeme.kind_of_next hl with ⟨htrivia, hcons⟩ | hthen
        · rw [if_pos htrivia, hmode hcons]
        · rw [hthen]
          rfl
      obtain ⟨q, hscan, hoffset, hline, hcolumn⟩ := ih _ hlt hrest hmode'
        (fun s hs => hfault s (List.mem_cons_of_mem _ hs)) hlast rfl
      refine ⟨q, ?_, ?_, ?_, .inr ?_⟩
      · rw [List.cons_append, scan_cons, hnext, scan_cons, hl,
          List.dropLast_cons_of_ne_nil (scan_ne_nil _ _ _), List.cons_append, ← hscan]
        dsimp only
        rw [← List.cons_append, List.take_append_of_le_length hle, List.drop_append_of_le_length hle]
      · conv_rhs => rw [← htext, byteLength_append, ← Nat.add_assoc, ← Position.offset_advance]
        exact hoffset
      · exact (Position.line_le_advance p _).trans hline
      · rcases hcolumn with ⟨hnil, rfl⟩ | hcolumn
        · rw [hnil, List.append_nil] at htext
          rw [htext]
          exact Position.column_advance p hends
        · exact hcolumn

/-! ## Keywords -/

theorem Kind.of_isDeclarationStart {k : Kind} (h : k.isDeclarationStart = true) :
    k.isKeyword = true ∧ k.isTrivia = false := by
  cases k <;> first | exact ⟨rfl, rfl⟩ | cases h

namespace Lexeme

theorem isKeyword_punctuation {text : List Char} {k : Kind} {n : Nat}
    (h : punctuation? text = some (k, n)) : k.isKeyword = false := by
  simpa using kind_of_punctuation (q := fun k => !k.isKeyword) h (by decide)

/-- A keyword opens with a letter. -/
theorem isWordStart_of_isKeyword {c : Char} {rest : List Char}
    (h : (normal c rest).kind.isKeyword = true) : isWordStart c = true := by
  refine normal_cases (P := fun l => l.kind.isKeyword = true → isWordStart c = true) c rest
    (fun _ h => ?_) (fun _ h => ?_) (fun _ h => ?_) (fun _ h => ?_) (fun _ h => ?_)
    (fun hc _ => hc) (fun k n hp h => ?_) (fun h => ?_) h
  · cases h
  · cases h
  · rcases kind_slash (c :: rest) with hk | hk | hk | hk <;> rw [hk] at h <;> cases h
  · cases h
  · rcases kind_number (c :: rest) with hk | hk <;> rw [hk] at h <;> cases h
  · rw [isKeyword_punctuation hp] at h
    cases h
  · cases h

/-- A text that opens with the keyword of a declaration may come after a line break. -/
theorem follows_of_keyword {c : Char} {rest : List Char}
    (h : (normal c rest).kind.isDeclarationStart = true) : Follows (c :: rest) := by
  obtain ⟨hkeyword, htrivia⟩ := Kind.of_isDeclarationStart h
  have hword := isWordStart_of_isKeyword hkeyword
  have hblank : isBlank c = false := by
    by_contra hblank
    rw [isTrivia_of_isBlank (by simpa using hblank)] at htrivia
    cases htrivia
  have hne {d : Char} (hd : isWordStart d = false) : c ≠ d := by
    rintro rfl
    rw [hd] at hword
    cases hword
  refine ⟨?_, ?_⟩
  · simpa using hne (d := '\n') (by decide)
  · have hparen := hne (d := '(') (by decide)
    have hdot := hne (d := '.') (by decide)
    have hbracket := hne (d := '[') (by decide)
    have heq := hne (d := '=') (by decide)
    simp [usesAsName, trimStart, hblank, hparen, hdot, hbracket, heq]

end Lexeme

/-- The tokens of two texts, one after the other: the first ends with a line break, is free of faults
and leaves no consequence open, and the second opens with the keyword of a declaration. -/
theorem lex_append {text more : List Char} (h : text.getLast?.any isLineBreak = true)
    (hstart : ((lex more).tokens.head?.any fun t => t.kind.isDeclarationStart) = true)
    (hfault : (lex text).errors = []) (hlast : Settled (lastKind none (lex text).tokens.dropLast)) :
    ∃ lines, (lex (text ++ more)).tokens = (lex text).tokens.dropLast ++
        (lex more).tokens.map (Token.moved (byteLength text) lines) ∧
      (lex (text ++ more)).errors = (lex more).errors.map (LexError.moved (byteLength text)) := by
  have hmore : Lexeme.Follows more := by
    cases more with
    | nil => cases hstart
    | cons c rest => exact Lexeme.follows_of_keyword hstart
  have hnone : ∀ s ∈ scan .normal .origin 0 text, s.fault = none := by
    intro s hs
    have := List.filterMap_eq_nil_iff.1 hfault s hs
    simpa [Scanned.error?] using this
  rw [lex, Lexed.ofScanned, ← List.map_dropLast] at hlast
  have hmode : Mode.normal = .consequence → none = some Kind.thenKw := fun hmode => by cases hmode
  obtain ⟨q, hscan, hoffset, hline, hcolumn⟩ := scan_append (.inr h) hmore hmode hnone hlast
  have hcolumn : q.column = 1 := by
    rcases hcolumn with ⟨rfl, -⟩ | hcolumn
    · cases h
    · exact hcolumn
  have hq : q = Position.origin.moved (byteLength text) (q.line - 1) := by
    obtain ⟨offset, line, column⟩ := q
    simp only [Position.origin, Position.moved, Position.mk.injEq] at hoffset hline hcolumn ⊢
    omega
  rw [hq, scan_moved] at hscan
  refine ⟨q.line - 1, ?_, ?_⟩
  · simp only [lex, Lexed.ofScanned, hscan, List.map_append, List.map_dropLast, List.map_map]
    rfl
  · have herrors : (scan .normal .origin 0 text).dropLast.filterMap Scanned.error? = [] :=
      List.filterMap_eq_nil_iff.2 fun s hs => by
        simp [Scanned.error?, hnone s (List.dropLast_subset _ hs)]
    simp only [lex, Lexed.ofScanned, hscan, List.filterMap_append, herrors, List.nil_append,
      List.filterMap_map, List.map_filterMap]
    exact congrArg (List.filterMap · _) (funext Scanned.error?_moved)

end RuleLang
