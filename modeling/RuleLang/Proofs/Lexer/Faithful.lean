import RuleLang.Proofs.Lexeme.LongestWord
import RuleLang.Proofs.Lexer.Part
import RuleLang.Proofs.Lexer.Restart

/-!
# What the kind of a token tells

The grammar looks at kinds alone, so a kind has to say what the text is. Kinds with one spelling
have that text, words are the longest keyword or no keyword at all, and blanks and line breaks are
read as far as they go.

## Main definitions

* `Leaf.Faithful` — what the kind of a leaf tells about its text and about the text after it.
* `Scanned.OpensAt` — an item that is read at the start of a text.

## Main statements

* `exists_opensAt_of_mem` — where the items of a text are read.
* `faithful_lex` — the kinds of all tokens are faithful.
-/

namespace RuleLang

open Text Lexeme

/-! ## Items of a reading -/

/-- An item that is read at the start of a text. -/
inductive Scanned.OpensAt (s : Scanned) : List Char → Prop
  | eof (kind : s.token.kind = .eof) (text : s.token.text = []) (fault : s.fault = none) :
    OpensAt s []
  | next {mode mode' : Mode} {c : Char} {cs : List Char} {l : Lexeme}
    (h : Lexeme.next mode c cs = (l, mode')) (kind : s.token.kind = l.kind)
    (text : s.token.text = (c :: cs).take l.length) (fault : s.fault = l.fault) :
    OpensAt s (c :: cs)

/-- Every item is read where its token stands. -/
theorem exists_opensAt_of_mem {source : List Char} {s : Scanned}
    (h : s ∈ scan .normal .origin 0 source) :
    ∃ front rest, source = front ++ rest ∧ s.token.span.start = byteLength front ∧
      s.OpensAt rest := by
  obtain ⟨before, after, hsplit⟩ := List.append_of_mem h
  obtain ⟨front, rest, mode, htext, -, hscan, -⟩ := scan_split (k := none) hsplit nofun
  have hstart : s.token.span.start = byteLength front := by
    rw [Token.span, position_of_scan hscan, Position.offset_advance]
    exact Nat.zero_add _
  refine ⟨front, rest, htext, hstart, ?_⟩
  cases rest with
  | nil =>
    rw [scan, List.cons.injEq] at hscan
    rw [← hscan.1]
    exact .eof rfl rfl rfl
  | cons c cs =>
    rw [scan_cons, List.cons.injEq] at hscan
    rw [← hscan.1]
    have hnext : Lexeme.next mode c cs =
        ((Lexeme.next mode c cs).1, (Lexeme.next mode c cs).2) := rfl
    exact .next hnext rfl rfl rfl

/-! ## Faithful kinds -/

/-- What the kind of a leaf tells about its text and about the text after it. -/
structure Leaf.Faithful (l : Leaf) (rest : List Char) : Prop where
  spelling : ∀ s, l.kind.spelling? = some s → l.text = s.toList
  ident : l.kind = .ident → OpensWord l.text rest ∧ Kind.ofKeyword? l.text = none
  word : l.kind = .ident ∨ l.kind.isKeyword = true → ReadsWord l.kind l.text rest
  /-- Nothing but words and consequences starts like a word. -/
  start : l.text.head?.any isWordStart = true →
    l.kind = .ident ∨ l.kind.isKeyword = true ∨ l.kind = .actionText
  whitespace : l.kind = .whitespace → l.text ≠ [] ∧ (∀ c ∈ l.text, isInlineBlank c = true) ∧
    rest.head?.any isInlineBlank = false
  newline : l.kind = .newline → l.text = ['\n'] ∨ l.text = ['\r', '\n'] ∨
    l.text = ['\r'] ∧ rest.head? ≠ some '\n'

/-- The text of a keyword is its spelling. -/
theorem Kind.toList_of_ofKeyword? {text : List Char} {k : Kind}
    (h : Kind.ofKeyword? text = some k) : ∃ s, k.spelling? = some s ∧ text = s.toList := by
  have hspelling : ∀ k : Kind, k.isKeyword = true → k.spelling?.isSome = true := by
    intro k hk
    cases k <;> first | rfl | cases hk
  obtain ⟨j, hj, he⟩ := List.mem_map.1 (mem_of_lookup h)
  obtain ⟨rfl, rfl⟩ := Prod.mk.inj he
  obtain ⟨s, hs⟩ := Option.isSome_iff_exists.1 (hspelling j (List.mem_filter.1 hj).2)
  exact ⟨s, hs, by rw [hs]; rfl⟩

/-- Kinds that ask for nothing but their spelling. -/
def Kind.isPlain (k : Kind) : Bool :=
  !k.isKeyword && k != .ident && k != .whitespace && k != .newline

namespace Leaf.Faithful

variable {k : Kind} {text rest : List Char}

theorem of_isPlain (hk : k.isPlain = true)
    (hspelling : ∀ s, k.spelling? = some s → text = s.toList)
    (hstart : text.head?.any isWordStart = true → k = .actionText) :
    Faithful ⟨k, text⟩ rest := by
  simp only [Kind.isPlain, Bool.and_eq_true, Bool.not_eq_true', bne_iff_ne] at hk
  obtain ⟨⟨⟨hkeyword, hident⟩, hblank⟩, hnewline⟩ := hk
  refine ⟨hspelling, fun h => absurd h hident, fun h => ?_, fun h => .inr (.inr (hstart h)),
    fun h => absurd h hblank, fun h => absurd h hnewline⟩
  exact h.elim (fun h => absurd h hident) fun h => absurd h (by simp [hkeyword])

theorem of_noSpelling (hk : k.isPlain = true) (hspelling : k.spelling? = none)
    (hstart : text.head?.any isWordStart = true → k = .actionText) :
    Faithful ⟨k, text⟩ rest :=
  of_isPlain hk (by simp [hspelling]) hstart

/-- Words are keywords with their spelling, or identifiers that are no keyword. -/
theorem of_readsWord (h : ReadsWord k text rest) : Faithful ⟨k, text⟩ rest := by
  cases h with
  | keyword hk hjoined hlongest =>
    have hkeyword := Kind.isKeyword_of_ofKeyword? hk
    obtain ⟨s, hs, rfl⟩ := Kind.toList_of_ofKeyword? hk
    refine ⟨fun t ht => ?_, fun h => ?_, fun _ => .keyword hk hjoined hlongest,
      fun _ => .inr (.inl hkeyword), fun h => ?_, fun h => ?_⟩
    · rw [Option.some.inj (hs.symm.trans ht)]
    all_goals
      dsimp only at h
      rw [h] at hkeyword
      cases hkeyword
  | ident hword hnone =>
    refine ⟨nofun, fun _ => ⟨hword, ?_⟩, fun _ => .ident hword hnone, fun _ => .inl rfl, nofun, nofun⟩
    by_contra hk
    exact hnone text ⟨rest, rfl, .word hword, Option.isSome_iff_ne_none.2 hk⟩

theorem of_newline {c : Char} {cs : List Char} (hc : isLineBreak c = true) :
    Faithful ⟨.newline, (c :: cs).take (newlineLength (c :: cs))⟩
      ((c :: cs).drop (newlineLength (c :: cs))) := by
  have hstart : isWordStart c = false := by
    cases h : isWordStart c with
    | false => rfl
    | true =>
      have := isWordPart_of_isBlank (isBlank_of_isLineBreak hc)
      rw [isWordPart_of_isWordStart h] at this
      cases this
  rw [newlineLength_cons]
  refine ⟨nofun, nofun, nofun, fun h => ?_, nofun, fun _ => ?_⟩
  · split at h <;> simp [hstart] at h
  · simp only [isLineBreak, Bool.or_eq_true, beq_iff_eq] at hc
    split
    · rename_i hpair
      obtain ⟨rfl, hhead⟩ := (Bool.and_eq_true_iff.1 hpair).imp beq_iff_eq.1 beq_iff_eq.1
      obtain ⟨cs, rfl⟩ := List.head?_eq_some_iff.1 hhead
      exact .inr (.inl rfl)
    · rename_i hpair
      rcases hc with rfl | rfl
      · exact .inl rfl
      · exact .inr (.inr ⟨rfl, by simpa using hpair⟩)

theorem of_whitespace {c : Char} {cs : List Char} (hblank : isBlank c = true)
    (hc : isLineBreak c = false) :
    Faithful ⟨.whitespace, (c :: cs).take (blankLength (c :: cs))⟩
      ((c :: cs).drop (blankLength (c :: cs))) := by
  have hinline : isInlineBlank c = true := by simp [isInlineBlank, hblank, hc]
  have htake : (c :: cs).take (blankLength (c :: cs)) = (c :: cs).takeWhile isInlineBlank :=
    (List.prefix_iff_eq_take.1 (List.takeWhile_prefix isInlineBlank)).symm
  rw [htake]
  refine ⟨fun _ h => ?_, fun h => ?_, fun h => ?_, fun h => ?_,
    fun _ => ⟨?_, fun d hd => ?_, ?_⟩, fun h => ?_⟩
  · cases h
  · cases h
  · rcases h with h | h <;> cases h
  · rw [List.takeWhile_cons_of_pos hinline] at h
    exact absurd (isWordPart_of_isWordStart h) (by simp [isWordPart_of_isBlank hblank])
  · simp [hinline]
  · exact List.mem_takeWhile_imp hd
  · exact head_drop_takeWhile isInlineBlank (c :: cs)
  · cases h

theorem of_slash {cs : List Char} (hlength : 0 < (slash ('/' :: cs)).length) :
    Faithful ⟨(slash ('/' :: cs)).kind, ('/' :: cs).take (slash ('/' :: cs)).length⟩
      (('/' :: cs).drop (slash ('/' :: cs)).length) := by
  obtain ⟨n, hn⟩ := Nat.exists_eq_succ_of_ne_zero hlength.ne'
  have hplain : (slash ('/' :: cs)).kind.isPlain = true := by
    rcases kind_slash ('/' :: cs) with h | h | h | h <;> rw [h] <;> rfl
  refine of_isPlain hplain ?_ fun h => ?_
  · unfold slash
    split
    · exact nofun
    split
    · exact nofun
    split
    · rename_i heq
      obtain ⟨cs, rfl⟩ := List.head?_eq_some_iff.1 (beq_iff_eq.1 heq)
      rintro _ ⟨⟩
      rfl
    · rintro _ ⟨⟩
      rfl
  · rw [hn, List.take_succ_cons] at h
    exact absurd (show isWordStart '/' = true from h) (by decide)

theorem of_punctuation {c : Char} {cs : List Char} {n : Nat}
    (h : punctuation? (c :: cs) = some (k, n)) :
    Faithful ⟨k, (c :: cs).take n⟩ ((c :: cs).drop n) := by
  have hplain : k.isPlain = true := kind_of_punctuation (q := Kind.isPlain) h (by decide)
  have hdouble : ∀ p ∈ doublePunctuation, p.2.spelling? = some (String.ofList [p.1.1, p.1.2]) ∧
      isWordStart p.1.1 = false := by
    decide +kernel
  have hsingle : ∀ p ∈ singlePunctuation, p.2.spelling? = some (String.ofList [p.1]) ∧
      isWordStart p.1 = false := by
    decide +kernel
  suffices h : k.spelling? = some (String.ofList ((c :: cs).take n)) ∧
      ((c :: cs).take n).head?.any isWordStart = false by
    refine of_isPlain hplain (fun s hs => ?_) fun hstart => ?_
    · rw [← Option.some.inj (h.1.symm.trans hs), String.toList_ofList]
    · rw [h.2] at hstart
      cases hstart
  rw [punctuation?_cons] at h
  cases hd : double? (c :: cs) with
  | none =>
    rw [hd] at h
    obtain ⟨k', hk', heq⟩ := Option.map_eq_some_iff.1 h
    cases heq
    exact hsingle _ (mem_of_lookup hk')
  | some k' =>
    rw [hd] at h
    cases h
    cases cs with
    | nil => simp [double?] at hd
    | cons d cs =>
      rw [double?_cons] at hd
      split at hd
      · rename_i hbang
        obtain ⟨rfl, rfl⟩ := hbang
        split at hd
        · cases hd
          exact ⟨rfl, rfl⟩
        · cases hd
      · exact hdouble _ (mem_of_lookup hd)

theorem of_normal (c : Char) (cs : List Char) :
    Faithful ⟨(normal c cs).kind, (c :: cs).take (normal c cs).length⟩
      ((c :: cs).drop (normal c cs).length) := by
  cases hc : isWordStart c with
  | true =>
    rw [normal_of_startsWord (startsWord_of_isWordStart hc)]
    exact of_readsWord (readsWord_wordLength hc)
  | false =>
    have hstart {n : Nat} {k : Kind} (h : ((c :: cs).take n).head?.any isWordStart = true) :
        k = .actionText := by
      cases n with
      | zero => cases h
      | succ n =>
        rw [List.take_succ_cons, List.head?_cons, Option.any_some, hc] at h
        cases h
    have hpos := (length_normal c cs).1
    revert hpos
    refine normal_cases (P := fun l => 0 < l.length →
      Faithful ⟨l.kind, (c :: cs).take l.length⟩ ((c :: cs).drop l.length)) c cs
      (fun hbreak _ => of_newline hbreak) ?_ ?_ (fun _ _ => of_noSpelling rfl rfl hstart) ?_ ?_
      (fun k n hp _ => of_punctuation hp) fun _ => of_noSpelling rfl rfl hstart
    · intro hblank hpos
      refine of_whitespace hblank ?_
      by_contra hbreak
      rw [Bool.not_eq_false] at hbreak
      simp [blankLength, isInlineBlank, hbreak] at hpos
    · rintro rfl hpos
      exact of_slash hpos
    · intro _ _
      rcases kind_number (c :: cs) with h | h <;> rw [h] <;>
        exact of_noSpelling rfl rfl hstart
    · intro h
      rw [hc] at h
      cases h

end Leaf.Faithful

/-! ## All tokens -/

/-- Every token of a text tells by its kind what it is: where it stands and up to where it goes. -/
theorem faithful_lex (source : List Char) :
    ∀ t ∈ (lex source).tokens, ∃ front rest, source = front ++ (t.text ++ rest) ∧
      t.span.start = byteLength front ∧ t.leaf.Faithful rest := by
  intro t ht
  obtain ⟨s, hs, rfl⟩ := List.mem_map.1 ht
  obtain ⟨front, text, rfl, hstart, hopens⟩ := exists_opensAt_of_mem hs
  rw [Token.leaf]
  cases hopens with
  | eof kind text fault =>
    refine ⟨front, [], by simp [text], hstart, ?_⟩
    rw [kind, text]
    exact .of_noSpelling rfl rfl fun h => absurd h Bool.false_ne_true
  | @next mode mode' c cs l h kind text fault =>
    refine ⟨front, (c :: cs).drop l.length, by rw [text, List.take_append_drop], hstart, ?_⟩
    rw [kind, text]
    rcases next_cases h with ⟨-, -, -, rfl⟩ | ⟨-, -, rfl⟩ | ⟨-, -, rfl⟩
    · exact .of_normal c cs
    · exact .of_noSpelling rfl rfl fun _ => rfl
    · exact .of_normal c cs

/-- Across the hyphens the keyword goes on as long as there is one, and no further. -/
theorem faithful_lex_hyphens : ∃ t ∈ (lex "x lock-on-active-y".toList).tokens,
    t.text = "lock-on-active".toList ∧ t.kind = .lockOnActiveKw ∧
      ∃ front rest, "x lock-on-active-y".toList = front ++ (t.text ++ rest) ∧
        t.span.start = byteLength front ∧ t.leaf.Faithful rest := by
  have hmem : (⟨.lockOnActiveKw, "lock-on-active".toList, ⟨2, 1, 3⟩⟩ : Token) ∈
      (lex "x lock-on-active-y".toList).tokens := by
    decide +kernel
  exact ⟨_, hmem, rfl, rfl, faithful_lex _ _ hmem⟩

end RuleLang
