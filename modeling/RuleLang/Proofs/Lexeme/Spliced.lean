import RuleLang.Proofs.Lexeme.Ending

/-!
# Lexemes before a seam

The lexeme that opens a text is the same in each text that is alike after it. The one exception is
the punctuation `!.`, which is one lexeme only in front of a name.

## Main statements

* `next_of_alike` — the lexeme before texts that are alike.
-/

namespace RuleLang.Lexeme

open Text

/-- A run of characters ends where it is seen to end. -/
theorem head_of_takeWhile {p : Char → Bool} {w x : List Char}
    (h : ((w ++ x).takeWhile p).length = w.length) : x.head?.any p = false := by
  induction w with
  | nil =>
    cases x with
    | nil => rfl
    | cons c x =>
      cases hc : p c with
      | false => exact hc
      | true => simp [hc] at h
  | cons c w ih =>
    cases hc : p c with
    | false => simp [hc] at h
    | true => exact ih (by simpa [hc] using h)

namespace Alike

variable {b : Char} {x y : List Char}

/-- What holds of no symbol that a seam opens with, and of no start of a word for one, is seen alike
of the first character. -/
theorem head_any (h : Alike b x y) (q : Char → Bool)
    (hq : q '&' = false ∧ q '|' = false ∧ q 'a' = false ∧ q 'o' = false) :
    y.head?.any q = x.head?.any q := by
  cases h with
  | refl => rfl
  | cons => rfl
  | seam h =>
    have hx : x.head?.any q = false := by
      rcases h.symbol with hx | hx <;> simp [hx, hq]
    rw [hx]
    obtain ⟨rest, rfl | rfl⟩ := h.spelling <;> simp [hq]

theorem head_eq (h : Alike b x y) {d : Char} (hd : d ≠ '&' ∧ d ≠ '|' ∧ d ≠ 'a' ∧ d ≠ 'o') :
    (y.head? == some d) = (x.head? == some d) := by
  have hany (z : List Char) : (z.head? == some d) = z.head?.any (· == d) := by
    cases z <;> simp
  rw [hany, hany]
  exact h.head_any _ (by simp [hd.1.symm, hd.2.1.symm, hd.2.2.1.symm, hd.2.2.2.symm])

/-- A run of characters that ends before a seam, and of which the symbols of a seam are part or the
words for them are not. -/
theorem takeWhile_append {p : Char → Bool} {w : List Char} (h : Alike b x y)
    (hp : p '&' = true ∧ p '|' = true ∨ p 'a' = false ∧ p 'o' = false)
    (hw : ((w ++ x).takeWhile p).length = w.length) :
    ((w ++ y).takeWhile p).length = w.length := by
  have hx := head_of_takeWhile hw
  have hy : y.head?.any p = false := by
    cases h with
    | refl => exact hx
    | cons => exact hx
    | seam h =>
      rcases hp with hp | hp
      · rcases h.symbol with hs | hs <;> simp [hs, hp] at hx
      · obtain ⟨rest, rfl | rfl⟩ := h.spelling <;> simp [hp]
  rw [takeWhile_append_of_head w hy, ← takeWhile_append_of_head w hx, hw]

theorem newlineLength_eq {c : Char} (h : Alike c x y) :
    newlineLength (c :: y) = newlineLength (c :: x) := by
  rw [newlineLength_cons, newlineLength_cons, h.head_eq (by decide)]

end Alike

theorem double?_cons (c d : Char) (text : List Char) :
    double? (c :: d :: text) =
      if c = '!' ∧ d = '.' then
        if text.head?.any isWordStart then some .bangDot else none
      else doublePunctuation.lookup (c, d) := by
  unfold double?
  split
  · rename_i heq
    cases heq
    rfl
  · rename_i hne heq
    cases heq
    by_cases hc : c = '!' ∧ d = '.'
    · cases text with
      | nil => rw [if_pos hc, hc.1, hc.2]; rfl
      | cons e text => exact (hne e text hc.1 hc.2 rfl).elim
    · rw [if_neg hc]
  · rename_i hne
    exact absurd rfl (hne c d text)

theorem double?_of_spelling (c : Char) {text : List Char}
    (h : ∃ rest, text = 'a' :: 'n' :: rest ∨ text = 'o' :: 'r' :: rest) :
    double? (c :: text) = none := by
  have hsecond : ∀ p ∈ doublePunctuation, p.1.2 ≠ 'a' ∧ p.1.2 ≠ 'o' := by decide
  have hlookup {d : Char} (hd : d = 'a' ∨ d = 'o') : doublePunctuation.lookup (c, d) = none := by
    cases hk : doublePunctuation.lookup (c, d) with
    | none => rfl
    | some k =>
      have := hsecond _ (mem_of_lookup hk)
      rcases hd with rfl | rfl
      · exact absurd rfl this.1
      · exact absurd rfl this.2
  obtain ⟨rest, rfl | rfl⟩ := h
  · rw [double?_cons, if_neg (by simp), hlookup (.inl rfl)]
  · rw [double?_cons, if_neg (by simp), hlookup (.inr rfl)]

theorem punctuation?_cons (c : Char) (text : List Char) :
    punctuation? (c :: text) =
      match double? (c :: text) with
      | some k => some (k, 2)
      | none => (singlePunctuation.lookup c).map fun k => (k, 1) := rfl

/-- The characters `!.` are seen alike if no seam comes right after them. -/
theorem double?_of_alike {c : Char} {x y : List Char} (h : Alike c x y)
    (hbang : ∀ u v, c = '!' → x = '.' :: u → y = '.' :: v → ¬ Seam '.' u v)
    (hx : double? (c :: x) = none) : double? (c :: y) = none := by
  cases h with
  | refl => exact hx
  | seam h => exact double?_of_spelling c h.spelling
  | @cons _ d u v h =>
    rw [double?_cons] at hx ⊢
    by_cases hc : c = '!' ∧ d = '.'
    · rw [if_pos hc] at hx ⊢
      cases h with
      | refl => exact hx
      | cons => exact hx
      | seam h =>
        rw [hc.2] at h
        exact absurd h (hbang u v hc.1 (by rw [hc.2]) (by rw [hc.2]))
    · rwa [if_neg hc] at hx ⊢

theorem double?_pair_of_alike {c d : Char} {x y : List Char} {k : Kind} (h : Alike d x y)
    (hx : double? (c :: d :: x) = some k) : double? (c :: d :: y) = some k := by
  rw [double?_cons] at hx ⊢
  by_cases hc : c = '!' ∧ d = '.'
  · rw [if_pos hc] at hx ⊢
    cases h with
    | refl => exact hx
    | cons => exact hx
    | seam h =>
      have hx' : x.head?.any isWordStart = false := by
        rcases h.symbol with hs | hs <;> rw [hs] <;> decide
      simp [hx'] at hx
  · rwa [if_neg hc] at hx ⊢

/-- Punctuation is the same before texts that are alike, except for `!` before `.`. -/
theorem punctuation?_of_alike {b c : Char} {w x y : List Char} {k : Kind}
    (hb : (c :: w).getLast (List.cons_ne_nil c w) = b) (h : Alike b x y)
    (hbang : ∀ u v, c = '!' → w = [] → x = '.' :: u → y = '.' :: v → ¬ Seam '.' u v)
    (hx : punctuation? (c :: (w ++ x)) = some (k, w.length + 1)) :
    punctuation? (c :: (w ++ y)) = some (k, w.length + 1) := by
  rw [punctuation?_cons] at hx ⊢
  cases hd : double? (c :: (w ++ x)) with
  | none =>
    rw [hd] at hx
    obtain ⟨k', hk', heq⟩ := Option.map_eq_some_iff.1 hx
    obtain rfl : w = [] := List.length_eq_zero_iff.1 (by simpa using (congrArg Prod.snd heq).symm)
    obtain rfl : c = b := hb
    rw [List.nil_append] at hd ⊢
    rwa [double?_of_alike h (fun u v hc => hbang u v hc rfl) hd]
  | some k' =>
    rw [hd] at hx
    obtain ⟨d, rfl⟩ : ∃ d, w = [d] :=
      List.length_eq_one_iff.1 (by simpa using (congrArg Prod.snd (Option.some.inj hx)).symm)
    obtain rfl : d = b := hb
    rw [List.singleton_append] at hd ⊢
    rwa [double?_pair_of_alike h hd]

theorem slash_of_alike {b : Char} {w x y : List Char} {k : Kind}
    (hb : ('/' :: w).getLast (List.cons_ne_nil '/' w) = b) (h : Alike b x y)
    (hx : slash ('/' :: (w ++ x)) = ⟨k, w.length + 1, none⟩) :
    slash ('/' :: (w ++ y)) = ⟨k, w.length + 1, none⟩ := by
  have h' : Alike '/' (w ++ x) (w ++ y) := .append w (hb ▸ h)
  simp only [slash, startsLineComment_cons, startsBlockComment_cons, List.tail_cons,
    h'.head_eq (d := '/') (by decide), h'.head_eq (d := '*') (by decide),
    h'.head_eq (d := '=') (by decide)] at hx ⊢
  by_cases hline : ('/' == '/' && (w ++ x).head? == some '/') = true
  · rw [if_pos hline] at hx ⊢
    have hlen := h.takeWhile_append (p := fun c => !isLineBreak c) (w := '/' :: w) (.inl (by decide))
      (congrArg Lexeme.length hx)
    have hk : Kind.commentLine = k := congrArg Lexeme.kind hx
    rw [← hk]
    exact congrArg (fun n => (⟨.commentLine, n, none⟩ : Lexeme)) hlen
  · rw [if_neg hline] at hx ⊢
    by_cases hblock : ('/' == '/' && (w ++ x).head? == some '*') = true
    · rw [if_pos hblock] at hx ⊢
      have htwo : 2 ≤ (blockCommentLength ('/' :: (w ++ x))).1 :=
        (blockCommentLength_le ((startsBlockComment_cons _ _).trans hblock)).1
      cases hc : blockCommentLength ('/' :: (w ++ x)) with
      | mk n closed =>
        simp only [hc] at hx
        obtain ⟨rfl, rfl, hclosed⟩ : Kind.commentBlock = k ∧ n = w.length + 1 ∧ closed = true := by
          simpa using hx
        subst hclosed
        have hne : w ≠ [] := fun hw => by
          rw [hc, hw] at htwo
          exact absurd htwo (by decide)
        simp only [blockCommentLength_append y hne hc le_rfl, if_true]
    · rw [if_neg hblock] at hx ⊢
      exact hx

theorem stringRest_of_string {quote : Char} {w x : List Char} {k : Kind}
    (h : string quote (w ++ x) = ⟨k, w.length + 1, none⟩) :
    stringRest quote (w ++ x) = (w.length, true) := by
  have hlen : (stringRest quote (w ++ x)).1 + 1 = w.length + 1 := congrArg Lexeme.length h
  have hfault : (if (stringRest quote (w ++ x)).2 then none else some Fault.unterminatedString) =
      none := congrArg Lexeme.fault h
  refine Prod.ext (by omega) ?_
  by_contra hopen
  rw [if_neg hopen] at hfault
  cases hfault

theorem string_of_alike {quote : Char} {w x : List Char} (y : List Char) {k : Kind}
    (hx : string quote (w ++ x) = ⟨k, w.length + 1, none⟩) :
    string quote (w ++ y) = ⟨k, w.length + 1, none⟩ := by
  have hrest := stringRest_of_string hx
  have hsame : stringLength quote (w ++ y) = stringLength quote (w ++ x) := by
    rw [stringLength, stringRest_append y (.inr ⟨by rw [hrest], by rw [hrest]⟩), stringLength]
  simp only [string, hsame]
  exact hx

/-- The lexeme before texts that are alike, outside consequences. -/
theorem normal_of_alike {b c : Char} {w x y : List Char} {k : Kind}
    (hb : (c :: w).getLast (List.cons_ne_nil c w) = b) (h : Alike b x y)
    (hbang : ∀ u v, c = '!' → w = [] → x = '.' :: u → y = '.' :: v → ¬ Seam '.' u v)
    (hx : normal c (w ++ x) = ⟨k, w.length + 1, none⟩) :
    normal c (w ++ y) = ⟨k, w.length + 1, none⟩ := by
  have h' : Alike c (w ++ x) (w ++ y) := .append w (hb ▸ h)
  have hword : Alike '0' (c :: (w ++ x)) (c :: (w ++ y)) := .cons h'
  simp only [normal] at hx ⊢
  by_cases hbreak : isLineBreak c = true
  · simp only [hbreak, if_true] at hx ⊢
    rwa [h'.newlineLength_eq]
  by_cases hblank : isBlank c = true
  · simp only [hbreak, hblank, Bool.false_eq_true, if_true, if_false] at hx ⊢
    have hlen := h.takeWhile_append (p := isInlineBlank) (w := c :: w) (.inr (by decide))
      (congrArg Lexeme.length hx)
    have hk : Kind.whitespace = k := congrArg Lexeme.kind hx
    rw [← hk]
    exact congrArg (fun n => (⟨.whitespace, n, none⟩ : Lexeme)) hlen
  by_cases hslash : (c == '/') = true
  · simp only [hbreak, hblank, hslash, Bool.false_eq_true, if_true, if_false] at hx ⊢
    obtain rfl := beq_iff_eq.1 hslash
    exact slash_of_alike hb h hx
  by_cases hquote : (c == '"' || c == '\x27') = true
  · simp only [hbreak, hblank, hslash, hquote, Bool.false_eq_true, if_true, if_false] at hx ⊢
    exact string_of_alike y hx
  by_cases hdigit : c.isDigit = true
  · simp only [hbreak, hblank, hslash, hquote, hdigit, Bool.false_eq_true, if_true, if_false]
      at hx ⊢
    rwa [hword.numberLength_eq (by decide)]
  by_cases hstart : isWordStart c = true
  · simp only [hbreak, hblank, hslash, hquote, hdigit, hstart, Bool.false_eq_true, if_true,
      if_false] at hx ⊢
    rwa [hword.wordLength_eq (by decide)]
  · simp only [hbreak, hblank, hslash, hquote, hdigit, hstart, Bool.false_eq_true, if_false]
      at hx ⊢
    cases hp : punctuation? (c :: (w ++ x)) with
    | none => simp [hp] at hx
    | some found =>
      obtain ⟨k', n⟩ := found
      rw [hp] at hx
      obtain ⟨rfl, rfl⟩ : k' = k ∧ n = w.length + 1 := by simpa using hx
      rw [punctuation?_of_alike hb h hbang hp]

/-- The lexeme that starts with one of these letters is a word. -/
theorem normal_letter {c : Char} (hc : c = 'e' ∨ c = 'a' ∨ c = 'o') (text : List Char) :
    normal c text = ⟨(wordLength (c :: text)).2, (wordLength (c :: text)).1, none⟩ := by
  rcases hc with rfl | rfl | rfl <;> rfl

/-- The lexeme that starts with the word `end` holds all of it. -/
theorem end_of_normal {w x after : List Char} (hlen : (normal 'e' (w ++ x)).length = w.length + 1)
    (htext : w ++ x = 'n' :: 'd' :: after) (hword : after.head?.any isWordPart = false) :
    ∃ rest, w = 'n' :: 'd' :: rest ∧ after = rest ++ x := by
  rw [normal_letter (.inl rfl)] at hlen
  dsimp only at hlen
  have hthree : 3 ≤ w.length + 1 := by
    have hplain := plainWordLength_le_wordLength ('e' :: (w ++ x))
    have hend : plainWordLength ('e' :: 'n' :: 'd' :: after) = 3 :=
      congrArg List.length (takeWhile_append_of_head ['e', 'n', 'd'] hword)
    rwa [hlen, htext, hend] at hplain
  cases w with
  | nil => simp at hthree
  | cons n w =>
    cases w with
    | nil => simp at hthree
    | cons d w =>
      simp only [List.cons_append, List.cons.injEq] at htext
      obtain ⟨rfl, rfl, rfl⟩ := htext
      exact ⟨w, rfl, rfl⟩

theorem startsTrivia_of_alike {c : Char} {x y : List Char} (h : Alike c x y) :
    startsTrivia (c :: y) = startsTrivia (c :: x) := by
  simp only [startsTrivia, startsLineComment_cons, startsBlockComment_cons, List.head?_cons,
    h.head_eq (d := '/') (by decide), h.head_eq (d := '*') (by decide)]

/-- The `end` that closes a consequence closes it as well in a text that is alike after the word. -/
theorem actionLength_of_alike {b c : Char} {w x y : List Char} (hc : isBlank c = false)
    (hb : (c :: w).getLast (List.cons_ne_nil c w) = b) (h : Alike b x y)
    (hlen : (normal c (w ++ x)).length = w.length + 1) (hx : actionLength (c :: (w ++ x)) = 0) :
    actionLength (c :: (w ++ y)) = 0 := by
  rw [actionLength_eq_zero_iff hc] at hx ⊢
  obtain ⟨after, htext, hword, -⟩ := of_closesHere hx
  obtain ⟨rfl, hafter⟩ := List.cons.inj htext
  obtain ⟨w, rfl, rfl⟩ := end_of_normal hlen hafter hword
  have h' : Alike 'd' (w ++ x) (w ++ y) := .append w (hb ▸ h)
  have hsame := h'.sameAfter (by decide) hword
  exact (closesHere_append .initial (w := ['e', 'n', 'd']) (by simp) hsame).trans hx

/-- The lexeme before texts that are alike, and the mode after it. -/
theorem next_of_alike {mode mode' : Mode} {b c : Char} {w x y : List Char} {k : Kind}
    (hb : (c :: w).getLast (List.cons_ne_nil c w) = b) (h : Alike b x y)
    (hbang : ∀ u v, c = '!' → w = [] → x = '.' :: u → y = '.' :: v → ¬ Seam '.' u v)
    (hx : next mode c (w ++ x) = (⟨k, w.length + 1, none⟩, mode')) :
    next mode c (w ++ y) = (⟨k, w.length + 1, none⟩, mode') := by
  have h' : Alike c (w ++ x) (w ++ y) := .append w (hb ▸ h)
  simp only [next] at hx ⊢
  rw [startsTrivia_of_alike h']
  by_cases htrivia : (mode == .consequence && startsTrivia (c :: (w ++ x))) = true
  · rw [if_pos htrivia, Prod.mk.injEq] at hx ⊢
    exact ⟨normal_of_alike hb h hbang hx.1, hx.2⟩
  · rw [if_neg htrivia] at hx ⊢
    by_cases haction : (mode == .consequence && decide (0 < actionLength (c :: (w ++ x)))) = true
    · rw [if_pos haction] at hx
      have hlen : actionLength (c :: w ++ x) = (c :: w).length :=
        congrArg (fun p => p.1.length) hx
      have hlen' : actionLength (c :: (w ++ y)) = w.length + 1 :=
        (hb ▸ h).actionLength_eq (List.cons_ne_nil c w) hlen
      have haction' : (mode == .consequence && decide (0 < actionLength (c :: (w ++ y)))) = true := by
        rw [hlen', (Bool.and_eq_true_iff.1 haction).1]
        simp
      rw [if_pos haction', ← hx, hlen']
      exact congrArg (fun n => ((⟨.actionText, n, none⟩ : Lexeme), Mode.normal)) hlen.symm
    · have hnormal : normal c (w ++ x) = ⟨k, w.length + 1, none⟩ := by
        rw [if_neg haction] at hx
        exact congrArg Prod.fst hx
      have hsame : normal c (w ++ y) = normal c (w ++ x) := by
        rw [normal_of_alike hb h hbang hnormal, hnormal]
      have hlen : (normal c (w ++ x)).length = w.length + 1 := congrArg Lexeme.length hnormal
      have haction' : ¬ (mode == .consequence &&
          decide (0 < actionLength (c :: (w ++ y)))) = true := by
        rw [Bool.and_eq_true_iff] at htrivia haction ⊢
        rintro ⟨hmode, hpos⟩
        have hc : isBlank c = false := by
          cases hc : isBlank c with
          | false => rfl
          | true => exact absurd ⟨hmode, by simp [startsTrivia, hc]⟩ htrivia
        have hzero : actionLength (c :: (w ++ x)) = 0 := by
          by_contra hne
          exact haction ⟨hmode, decide_eq_true (Nat.pos_of_ne_zero hne)⟩
        have := actionLength_of_alike hc hb h hlen hzero
        simp [this] at hpos
      rw [if_neg haction] at hx
      rw [if_neg haction', hsame, hx]

end RuleLang.Lexeme
