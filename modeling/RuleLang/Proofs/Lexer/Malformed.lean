import RuleLang.Proofs.Lexer.Faithful

/-!
# Malformed tokens

A scanner finds the end of a string or of a comment, and says aside whether it was closed there.
Whether a token is malformed can as well be seen from its text alone, and both agree: the errors of
a text are those of its malformed tokens.

## Main definitions

* `ClosesQuote`, `IsQuoted`, `IsClosedComment` — the texts of strings and of block comments that are
  closed.
* `Leaf.IsMalformed`, `Leaf.complaint` — tokens that are reported, and how.

## Main statements

* `closesQuote_of_stringRest`, `openQuote_of_stringRest` — what the scanner of strings says of the
  text that it measures.
* `errors_lex` — the errors of a text.
-/

namespace RuleLang

open Text Lexeme

/-! ## Strings and comments -/

/-- What comes after the opening quote of a string that is closed: pairs of a backslash with another
character, characters that need none, and the same quote at the end. -/
inductive ClosesQuote (quote : Char) : List Char → Prop
  | close : ClosesQuote quote [quote]
  | pair (c : Char) {cs : List Char} (h : ClosesQuote quote cs) : ClosesQuote quote ('\\' :: c :: cs)
  | plain {c : Char} {cs : List Char} (ne_quote : c ≠ quote) (ne_escape : c ≠ '\\')
    (inline : isLineBreak c = false) (h : ClosesQuote quote cs) : ClosesQuote quote (c :: cs)

namespace ClosesQuote

variable {quote : Char}

theorem not_nil : ¬ClosesQuote quote [] := by
  intro h
  cases h

theorem singleton_iff {c : Char} : ClosesQuote quote [c] ↔ c = quote := by
  refine ⟨fun h => ?_, fun h => h ▸ .close⟩
  cases h with
  | close => rfl
  | plain _ _ _ h => cases h

theorem cons_cons_iff {c d : Char} {cs : List Char} : ClosesQuote quote (c :: d :: cs) ↔
    c = '\\' ∧ ClosesQuote quote cs ∨
      c ≠ quote ∧ c ≠ '\\' ∧ isLineBreak c = false ∧ ClosesQuote quote (d :: cs) := by
  constructor
  · intro h
    cases h with
    | pair _ h => exact .inl ⟨rfl, h⟩
    | plain hquote hescape hbreak h => exact .inr ⟨hquote, hescape, hbreak, h⟩
  · rintro (⟨rfl, h⟩ | ⟨hquote, hescape, hbreak, h⟩)
    · exact .pair d h
    · exact .plain hquote hescape hbreak h

instance decidable (quote : Char) : (cs : List Char) → Decidable (ClosesQuote quote cs)
  | [] => .isFalse not_nil
  | [_] => decidable_of_iff _ singleton_iff.symm
  | _ :: d :: cs =>
    have := decidable quote cs
    have := decidable quote (d :: cs)
    decidable_of_iff _ cons_cons_iff.symm

end ClosesQuote

/-- The text of a string that is closed. -/
def IsQuoted (text : List Char) : Prop :=
  ∃ quote cs, text = quote :: cs ∧ (quote = '"' ∨ quote = '\x27') ∧ ClosesQuote quote cs

theorem isQuoted_cons {c : Char} {cs : List Char} :
    IsQuoted (c :: cs) ↔ (c = '"' ∨ c = '\x27') ∧ ClosesQuote c cs := by
  constructor
  · rintro ⟨quote, cs', htext, hquote, h⟩
    cases htext
    exact ⟨hquote, h⟩
  · exact fun ⟨hquote, h⟩ => ⟨c, cs, rfl, hquote, h⟩

instance : DecidablePred IsQuoted
  | [] => .isFalse nofun
  | _ :: _ => decidable_of_iff _ isQuoted_cons.symm

/-- The text of a block comment that is closed: after what opens it. -/
def IsClosedComment (text : List Char) : Prop :=
  text.take 2 = ['/', '*'] ∧ ['*', '/'] <:+ text.drop 2

instance : DecidablePred IsClosedComment :=
  fun _ => inferInstanceAs (Decidable (_ ∧ _))

/-! ## What the scanners say -/

namespace Lexeme

variable {quote : Char} {text : List Char} {n : Nat}

/-- A string that is said to be closed is closed where it ends. -/
theorem closesQuote_of_stringRest (h : (stringRest quote text).2 = true) :
    ClosesQuote quote (text.take (stringRest quote text).1) := by
  fun_induction stringRest quote text with
  | case1 | case2 | case3 | case5 => cases h
  | case4 e cs he n closed heq ih =>
    rw [heq] at ih
    exact .pair e (ih h)
  | case6 c cs hlone hesc hc hq =>
    rw [beq_iff_eq.1 hq]
    exact .close
  | case7 c cs hlone hesc hc hq n closed heq ih =>
    rw [heq] at ih
    exact .plain (by simpa using hq) (ne_escape hlone hesc) (by simpa using hc) (ih h)

/-- A string that is said to be open is not closed, and goes on to the end of its line. -/
theorem openQuote_of_stringRest (hescape : quote ≠ '\\') (h : (stringRest quote text).2 = false) :
    ¬ClosesQuote quote (text.take (stringRest quote text).1) ∧
      text.take (stringRest quote text).1 = text.takeWhile fun c => !isLineBreak c := by
  have hlone : ¬ClosesQuote quote ['\\'] := fun h => hescape (ClosesQuote.singleton_iff.1 h).symm
  have hbackslash : isLineBreak '\\' = false := rfl
  fun_induction stringRest quote text with
  | case1 => exact ⟨ClosesQuote.not_nil, rfl⟩
  | case2 => exact ⟨hlone, rfl⟩
  | case3 e cs he => exact ⟨hlone, by simp [he, hbackslash]⟩
  | case4 e cs he n closed heq ih =>
    rw [heq] at ih
    obtain ⟨hopen, hline⟩ := ih h
    refine ⟨fun hcloses => ?_, by simpa [he, hbackslash] using hline⟩
    rcases ClosesQuote.cons_cons_iff.1 hcloses with ⟨-, hcloses⟩ | ⟨-, hne, -⟩
    · exact hopen hcloses
    · exact hne rfl
  | case5 c cs _ _ hc => exact ⟨ClosesQuote.not_nil, by simp [hc]⟩
  | case6 => cases h
  | case7 c cs hlone hesc hc hq n closed heq ih =>
    rw [heq] at ih
    obtain ⟨hopen, hline⟩ := ih h
    refine ⟨fun hcloses => ?_, by simpa [hc] using hline⟩
    rw [List.take_succ_cons] at hcloses
    generalize cs.take n = w at hcloses hopen
    cases hcloses with
    | close => exact hq (beq_self_eq_true _)
    | pair => exact ne_escape hlone hesc rfl
    | plain _ _ _ hcloses => exact hopen hcloses

theorem suffix_of_closeLength? (h : closeLength? text = some n) : ['*', '/'] <:+ text.take n := by
  induction text generalizing n with
  | nil => cases h
  | cons c cs ih =>
    rw [closeLength?] at h
    split at h
    · rename_i hclose
      obtain ⟨hstar, hslash⟩ := (Bool.and_eq_true_iff.1 hclose).imp beq_iff_eq.1 beq_iff_eq.1
      obtain ⟨cs, rfl⟩ := List.head?_eq_some_iff.1 hslash
      cases h
      rw [hstar]
      exact List.suffix_refl _
    · obtain ⟨m, hm, rfl⟩ := Option.map_eq_some_iff.1 h
      exact (ih hm).trans (List.suffix_cons c _)

theorem not_suffix_of_closeLength? (h : closeLength? text = none) : ¬['*', '/'] <:+ text := by
  induction text with
  | nil => exact fun hsuffix => absurd (List.suffix_nil.1 hsuffix) nofun
  | cons c cs ih =>
    rw [closeLength?] at h
    split at h
    · cases h
    · rename_i hclose
      intro hsuffix
      rcases List.suffix_cons_iff.1 hsuffix with hwhole | hsuffix
      · cases hwhole
        exact hclose rfl
      · exact ih (Option.map_eq_none_iff.1 h) hsuffix

/-- A comment that is said to be closed is closed where it ends, and one that is said to be open is
not. -/
theorem isClosedComment_iff (h : startsBlockComment text = true) :
    IsClosedComment (text.take (blockCommentLength text).1) ↔ (blockCommentLength text).2 = true := by
  unfold startsBlockComment at h
  split at h
  · rename_i cs
    have hdrop : ('/' :: '*' :: cs).drop 2 = cs := rfl
    unfold blockCommentLength IsClosedComment
    rw [hdrop]
    cases hclose : closeLength? cs with
    | some n => simpa using suffix_of_closeLength? hclose
    | none => simpa using not_suffix_of_closeLength? hclose
  · cases h

end Lexeme

/-! ## Malformed leaves -/

namespace Leaf

/-- A character that is no token, or a string or comment that is not closed. -/
def IsMalformed (l : Leaf) : Prop :=
  l.kind = .error ∨ l.kind = .stringLit ∧ ¬IsQuoted l.text ∨
    l.kind = .commentBlock ∧ ¬IsClosedComment l.text

instance : DecidablePred IsMalformed :=
  fun _ => inferInstanceAs (Decidable (_ ∨ _ ∨ _))

/-- What is said of a malformed leaf. -/
def complaint (l : Leaf) : String :=
  match l.kind with
  | .stringLit => "unterminated string literal"
  | .commentBlock => "unterminated block comment"
  | _ => "unexpected character '" ++ String.ofList (l.text.flatMap escapeLone) ++ "'"

theorem complaint_error (c : Char) :
    complaint ⟨.error, [c]⟩ = (Fault.unexpectedCharacter c).message := by
  change "unexpected character '" ++ String.ofList ([c].flatMap escapeLone) ++ "'" =
    "unexpected character '" ++ String.ofList (escapeLone c) ++ "'"
  rw [List.flatMap_singleton]

/-- What is said of a leaf, if anything. -/
def complaint? (l : Leaf) : Option String :=
  if l.IsMalformed then some l.complaint else none

/-- Of all other kinds nothing is said. -/
theorem complaint?_eq_none {k : Kind} {text : List Char}
    (hk : (k != .error && k != .stringLit && k != .commentBlock) = true) :
    complaint? ⟨k, text⟩ = none := by
  simp only [Bool.and_eq_true, bne_iff_ne] at hk
  obtain ⟨⟨herror, hstring⟩, hcomment⟩ := hk
  exact if_neg (by simp [IsMalformed, herror, hstring, hcomment])

end Leaf

namespace Lexeme

/-- The leaf that a lexeme takes from a text. -/
def leafOf (l : Lexeme) (text : List Char) : Leaf :=
  ⟨l.kind, text.take l.length⟩

variable {c : Char} {cs : List Char}

theorem complaint?_comment (h : startsBlockComment text = true) :
    (leafOf ⟨.commentBlock, (blockCommentLength text).1, none⟩ text).complaint? =
      if (blockCommentLength text).2 then none else some Fault.unterminatedComment.message := by
  have hclosed := isClosedComment_iff h
  cases hend : (blockCommentLength text).2 with
  | true => exact if_neg (by simp [Leaf.IsMalformed, leafOf, hclosed, hend])
  | false => exact if_pos (by simp [Leaf.IsMalformed, leafOf, hclosed, hend])

theorem complaint?_slash :
    ((slash ('/' :: cs)).leafOf ('/' :: cs)).complaint? =
      (slash ('/' :: cs)).fault.map Fault.message := by
  unfold slash
  split
  · exact Leaf.complaint?_eq_none rfl
  split
  · rename_i hstarts
    refine (complaint?_comment hstarts).trans ?_
    cases hend : (blockCommentLength ('/' :: cs)).2 <;> simp [hend]
  split <;> exact Leaf.complaint?_eq_none rfl

theorem complaint?_string (hquote : c = '"' ∨ c = '\x27') :
    ((string c cs).leafOf (c :: cs)).complaint? = (string c cs).fault.map Fault.message := by
  have hescape : c ≠ '\\' := by rcases hquote with rfl | rfl <;> decide
  cases hend : (stringRest c cs).2 with
  | true =>
    have hclosed := closesQuote_of_stringRest hend
    have hleaf : ¬((string c cs).leafOf (c :: cs)).IsMalformed := by
      simp [Leaf.IsMalformed, leafOf, string, stringLength, isQuoted_cons, hquote, hclosed]
    rw [Leaf.complaint?, if_neg hleaf]
    simp [string, stringLength, hend]
  | false =>
    have hopen := (openQuote_of_stringRest hescape hend).1
    have hleaf : ((string c cs).leafOf (c :: cs)).IsMalformed := by
      simp [Leaf.IsMalformed, leafOf, string, stringLength, isQuoted_cons, hopen]
    rw [Leaf.complaint?, if_pos hleaf]
    simp only [string, stringLength, hend, Bool.false_eq_true, if_false, Option.map_some]
    rfl

/-- What is said of a lexeme is what is wrong with its text. -/
theorem complaint?_normal (c : Char) (cs : List Char) :
    ((normal c cs).leafOf (c :: cs)).complaint? = (normal c cs).fault.map Fault.message := by
  refine normal_cases
    (P := fun l => (l.leafOf (c :: cs)).complaint? = l.fault.map Fault.message) c cs
    (fun _ => Leaf.complaint?_eq_none rfl) (fun _ => Leaf.complaint?_eq_none rfl) ?_
    (fun hc => complaint?_string hc) ?_ ?_ ?_ ?_
  · rintro rfl
    exact complaint?_slash
  · intro _
    refine Leaf.complaint?_eq_none ?_
    rcases kind_number (c :: cs) with h | h <;> rw [h] <;> rfl
  · intro _
    refine Leaf.complaint?_eq_none ?_
    rcases kind_word (c :: cs) with h | h
    · rw [h]
      rfl
    · revert h
      generalize (wordLength (c :: cs)).2 = k
      intro h
      cases k <;> first | rfl | cases h
  · exact fun k n hp => Leaf.complaint?_eq_none (kind_of_punctuation
      (q := fun k => k != .error && k != .stringLit && k != .commentBlock) hp (by decide))
  · rw [Option.map_some, ← Leaf.complaint_error]
    exact if_pos (.inl rfl)

/-- What is said of a lexeme in any mode. -/
theorem complaint?_next {mode mode' : Mode} {l : Lexeme} (h : next mode c cs = (l, mode')) :
    (l.leafOf (c :: cs)).complaint? = l.fault.map Fault.message := by
  rcases next_cases h with ⟨-, -, -, rfl⟩ | ⟨-, -, rfl⟩ | ⟨-, -, rfl⟩
  · exact complaint?_normal c cs
  · exact Leaf.complaint?_eq_none rfl
  · exact complaint?_normal c cs

/-- A string literal is read from its opening quote on. -/
theorem string_of_kind (h : (normal c cs).kind = .stringLit) :
    (c = '"' ∨ c = '\x27') ∧ normal c cs = string c cs := by
  revert h
  refine normal_cases
    (P := fun l => l.kind = .stringLit → (c = '"' ∨ c = '\x27') ∧ l = string c cs) c cs
    (fun _ h => ?_) (fun _ h => ?_) (fun hc h => ?_) (fun hc _ => ⟨hc, rfl⟩) (fun _ h => ?_)
    (fun _ h => ?_) (fun k n hp h => ?_) (fun h => ?_)
  · cases h
  · cases h
  · rcases kind_slash (c :: cs) with hk | hk | hk | hk <;> rw [hk] at h <;> cases h
  · rcases kind_number (c :: cs) with hk | hk <;> cases hk.symm.trans h
  · change (wordLength (c :: cs)).2 = .stringLit at h
    rcases kind_word (c :: cs) with hk | hk <;> rw [h] at hk <;> cases hk
  · have hne := kind_of_punctuation (q := fun k => k != .stringLit) hp (by decide)
    exact absurd h (bne_iff_ne.1 hne)
  · cases h

/-- A string literal that is not closed is all that is left of its line. -/
theorem takeWhile_of_open {mode mode' : Mode} {l : Lexeme} (h : next mode c cs = (l, mode'))
    (hkind : l.kind = .stringLit) (hopen : ¬IsQuoted ((c :: cs).take l.length)) :
    (c :: cs).take l.length = (c :: cs).takeWhile fun c => !isLineBreak c := by
  have hnormal := normal_of_next (by simp [hkind]) h
  rw [← hnormal] at hkind
  obtain ⟨hquote, hstring⟩ := string_of_kind hkind
  have hlength : l.length = (stringRest c cs).1 + 1 := by
    rw [← hnormal, hstring]
    rfl
  rw [hlength, List.take_succ_cons] at hopen ⊢
  have hescape : c ≠ '\\' := by rcases hquote with rfl | rfl <;> decide
  have hline : isLineBreak c = false := by rcases hquote with rfl | rfl <;> rfl
  have hend : (stringRest c cs).2 = false := by
    by_contra hend
    rw [Bool.not_eq_false] at hend
    exact hopen (isQuoted_cons.2 ⟨hquote, closesQuote_of_stringRest hend⟩)
  rw [List.takeWhile_cons_of_pos (by simp [hline]), (openQuote_of_stringRest hescape hend).2]

end Lexeme

/-! ## All errors -/

theorem complaint?_of_opensAt {s : Scanned} {text : List Char} (h : s.OpensAt text) :
    s.token.leaf.complaint? = s.fault.map Fault.message := by
  rw [Token.leaf]
  cases h with
  | eof kind text fault =>
    rw [kind, fault]
    exact Leaf.complaint?_eq_none rfl
  | next h kind text fault =>
    rw [kind, text, fault]
    exact complaint?_next h

theorem filterMap_complaint? (tokens : List Token) :
    (tokens.filterMap fun t => t.leaf.complaint?.map fun message => (message, t.span)) =
      (tokens.filter fun t => t.leaf.IsMalformed).map fun t => (t.leaf.complaint, t.span) := by
  induction tokens with
  | nil => rfl
  | cons t ts ih =>
    by_cases h : t.leaf.IsMalformed <;> simp [Leaf.complaint?, h, ← ih]

/-- The errors of a text are its malformed tokens, in order and at their places. A string that is
not closed goes on to the end of its line, a backslash before it included. -/
theorem errors_lex (source : List Char) :
    (lex source).errors.map (fun e => (e.message, e.span)) =
      ((lex source).tokens.filter fun t => t.leaf.IsMalformed).map
        (fun t => (t.leaf.complaint, t.span)) ∧
    ∀ t ∈ (lex source).tokens, t.kind = .stringLit → ¬IsQuoted t.text →
      ∃ front rest, source = front ++ (t.text ++ rest) ∧ t.span.start = byteLength front ∧
        t.text = (t.text ++ rest).takeWhile fun c => !isLineBreak c := by
  constructor
  · have hitem : ∀ s ∈ scan .normal .origin 0 source,
        s.error?.map (fun e => (e.message, e.span)) =
          s.token.leaf.complaint?.map fun message => (message, s.token.span) := by
      intro s hs
      obtain ⟨front, text, -, -, hopens⟩ := exists_opensAt_of_mem hs
      rw [complaint?_of_opensAt hopens, Scanned.error?, Option.map_map, Option.map_map]
      rfl
    rw [lex, Lexed.ofScanned]
    dsimp only
    rw [List.map_filterMap, List.filterMap_congr hitem, ← filterMap_complaint?, List.filterMap_map]
    rfl
  · intro t ht hkind hopen
    obtain ⟨s, hs, rfl⟩ := List.mem_map.1 ht
    obtain ⟨front, text, rfl, hstart, hopens⟩ := exists_opensAt_of_mem hs
    cases hopens with
    | eof kind => simp [kind] at hkind
    | @next mode mode' c cs l h kind text fault =>
      rw [text] at hopen ⊢
      refine ⟨front, (c :: cs).drop l.length, by rw [List.take_append_drop], hstart, ?_⟩
      rw [List.take_append_drop]
      exact takeWhile_of_open h (kind ▸ hkind) hopen

/-- The backslash before a line break belongs to the open string, and `/*/` is an open comment. -/
theorem errors_lex_open :
    ∃ t ∈ (lex ['"', 'a', '\\', '\n', '/', '*', '/']).tokens,
      t.kind = .stringLit ∧ ¬IsQuoted t.text ∧ t.text = ['"', 'a', '\\'] ∧
      (lex ['"', 'a', '\\', '\n', '/', '*', '/']).errors.map (fun e => (e.message, e.span)) =
        [("unterminated string literal", ⟨0, 3⟩), ("unterminated block comment", ⟨4, 7⟩)] ∧
      ∃ front rest, ['"', 'a', '\\', '\n', '/', '*', '/'] = front ++ (t.text ++ rest) ∧
        t.span.start = byteLength front ∧
        t.text = (t.text ++ rest).takeWhile fun c => !isLineBreak c := by
  obtain ⟨herrors, hopen⟩ := errors_lex ['"', 'a', '\\', '\n', '/', '*', '/']
  have hmem : (⟨.stringLit, ['"', 'a', '\\'], ⟨0, 1, 1⟩⟩ : Token) ∈
      (lex ['"', 'a', '\\', '\n', '/', '*', '/']).tokens := by
    decide +kernel
  have htext : ¬IsQuoted ['"', 'a', '\\'] := by decide
  refine ⟨_, hmem, rfl, htext, rfl, herrors.trans ?_, hopen _ hmem rfl htext⟩
  decide +kernel

end RuleLang
