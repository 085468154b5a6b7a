import RuleLang.Proofs.Lexeme.Spliced
import RuleLang.Proofs.Lexer.Coverage

/-!
# Between two lexemes

A word begins after a lexeme only if that lexeme does not end with a part of a word: otherwise the
word would belong to it.

## Main statements

* `normal_cases` — what the lexeme that opens a text can be.
* `isWordPart_before_letter` — the lexeme before a letter does not end with a part of a word.
* `next_symbol` — the text of a symbol that joins conditions.
-/

namespace RuleLang.Lexeme

open Text

/-- What the lexeme that opens a text can be, outside consequences. -/
theorem normal_cases {P : Lexeme → Prop} (c : Char) (rest : List Char)
    (newline : isLineBreak c = true → P ⟨.newline, newlineLength (c :: rest), none⟩)
    (blank : isBlank c = true → P ⟨.whitespace, blankLength (c :: rest), none⟩)
    (slash : c = '/' → P (slash (c :: rest)))
    (string : c = '"' ∨ c = '\x27' → P (string c rest))
    (number : c.isDigit = true → P ⟨(numberLength (c :: rest)).2, (numberLength (c :: rest)).1, none⟩)
    (word : isWordStart c = true → P ⟨(wordLength (c :: rest)).2, (wordLength (c :: rest)).1, none⟩)
    (punctuation : ∀ k n, punctuation? (c :: rest) = some (k, n) → P ⟨k, n, none⟩)
    (error : P ⟨.error, 1, some (.unexpectedCharacter c)⟩) : P (normal c rest) := by
  unfold normal
  dsimp only
  split
  · rename_i h
    exact newline h
  split
  · rename_i h
    exact blank h
  split
  · rename_i h
    exact slash (beq_iff_eq.1 h)
  split
  · rename_i h
    exact string (by simpa using h)
  split
  · rename_i h
    exact number h
  split
  · rename_i h
    exact word h
  split
  · rename_i k n h
    exact punctuation k n h
  · exact error

/-! ## Characters that are no part of a word -/

theorem exists_of_inRanges {ranges : List CharRange} {c : Char} (h : inRanges ranges c = true) :
    ∃ r ∈ ranges, r.1 ≤ c.toNat ∧ c.toNat ≤ r.2 := by
  induction ranges with
  | nil => cases h
  | cons r ranges ih =>
    rw [inRanges] at h
    split at h
    · cases h
    · split at h
      · exact ⟨r, List.mem_cons_self, by omega, by assumption⟩
      · obtain ⟨r', hr', hle⟩ := ih h
        exact ⟨r', List.mem_cons_of_mem r hr', hle⟩

theorem isWordPart_of_isBlank {c : Char} (h : isBlank c = true) : isWordPart c = false := by
  have hascii : ∀ n < 0x80, isBlank (Char.ofNat n) = true → isWordPart (Char.ofNat n) = false := by
    decide +kernel
  have hother : ∀ r ∈ blankRanges, ∀ i < r.2 - r.1 + 1,
      isWordPart (Char.ofNat (r.1 + i)) = false := by
    decide +kernel
  by_cases hc : c.toNat < 0x80
  · have := hascii c.toNat hc
    rw [Char.ofNat_toNat] at this
    exact this h
  · rw [isBlank, if_neg hc] at h
    obtain ⟨r, hr, hle⟩ := exists_of_inRanges h
    have := hother r hr (c.toNat - r.1) (by omega)
    rwa [show r.1 + (c.toNat - r.1) = c.toNat by omega, Char.ofNat_toNat] at this

theorem getLast?_of_closeLength? {w x : List Char} (h : closeLength? (w ++ x) = some w.length) :
    w.getLast? = some '/' := by
  induction w with
  | nil => exact absurd (closeLength?_le h).1 (by simp)
  | cons c w ih =>
    cases w with
    | nil => exact absurd (closeLength?_le h).1 (by simp)
    | cons d w =>
      rw [List.cons_append, closeLength?] at h
      split at h
      · rename_i hc
        have hd : d = '/' := by simpa using (Bool.and_eq_true_iff.1 hc).2
        have hw : w = [] := List.length_eq_zero_iff.1 (by simpa using (Option.some.inj h).symm)
        rw [hd, hw]
        rfl
      · obtain ⟨m, hm, hlen⟩ := Option.map_eq_some_iff.1 h
        obtain rfl : m = (d :: w).length := by simpa using hlen
        rw [List.getLast?_cons_cons]
        exact ih hm

theorem getLast?_cons_of {c d : Char} {w : List Char} (h : w.getLast? = some d) :
    (c :: w).getLast? = some d := by
  cases w with
  | nil => simp at h
  | cons e w => rwa [List.getLast?_cons_cons]

theorem getLast?_of_stringRest {quote : Char} {w x : List Char}
    (h : stringRest quote (w ++ x) = (w.length, true)) : w.getLast? = some quote := by
  fun_induction stringRest quote w with
  | case1 =>
    rw [List.nil_append] at h
    have := stringRest_pos (congrArg Prod.snd h)
    rw [h] at this
    exact absurd this (lt_irrefl _)
  | case2 =>
    cases x with
    | nil => simp [stringRest] at h
    | cons e x => cases he : isLineBreak e <;> simp [stringRest, he] at h
  | case3 e w he => simp [stringRest, he] at h
  | case4 e w he n closed heq ih =>
    rw [Bool.not_eq_true] at he
    simp only [List.cons_append, stringRest_escaped he, List.length_cons, Prod.mk.injEq,
      Nat.add_right_cancel_iff] at h
    exact getLast?_cons_of (getLast?_cons_of (ih (Prod.ext h.1 h.2)))
  | case5 c w hlone hesc hc =>
    simp [stringRest_cons (ne_escape hlone hesc), hc] at h
  | case6 c w hlone hesc hc hq =>
    simp only [List.cons_append, stringRest_cons (ne_escape hlone hesc), hc, hq, if_true,
      Bool.false_eq_true, if_false, List.length_cons, Prod.mk.injEq, and_true] at h
    obtain rfl : w = [] := List.length_eq_zero_iff.1 (by omega)
    rw [beq_iff_eq.1 hq]
    rfl
  | case7 c w hlone hesc hc hq n closed heq ih =>
    simp only [List.cons_append, stringRest_cons (ne_escape hlone hesc), hc, hq,
      Bool.false_eq_true, if_false, List.length_cons, Prod.mk.injEq,
      Nat.add_right_cancel_iff] at h
    exact getLast?_cons_of (ih (Prod.ext h.1 h.2))

/-- After a joined word comes no part of a word. -/
theorem head_of_mem_joinedLengths {n m : Nat} {text : List Char} (h : m ∈ joinedLengths n text) :
    (text.drop (m - n)).head?.any isWordPart = false := by
  induction text generalizing n with
  | nil => simp
  | cons c rest ih =>
    rw [joinedLengths] at h
    have hnext (h : m ∈ joinedLengths (n + 1) rest) :
        ((c :: rest).drop (m - n)).head?.any isWordPart = false := by
      have hle := (mem_joinedLengths_le h).1
      rw [show m - n = (m - (n + 1)) + 1 by omega, List.drop_succ_cons]
      exact ih h
    by_cases hc : isWordPart c = true
    · rw [if_pos hc] at h
      exact hnext h
    · rw [if_neg hc] at h
      have hend : m = n → ((c :: rest).drop (m - n)).head?.any isWordPart = false := by
        rintro rfl
        simpa using hc
      split at h
      · rcases List.mem_cons.1 h with h | h
        · exact hend h
        · exact hnext h
      · exact hend (List.mem_singleton.1 h)

theorem head_drop_takeWhile (p : Char → Bool) (text : List Char) :
    (text.drop (text.takeWhile p).length).head?.any p = false := by
  induction text with
  | nil => rfl
  | cons c rest ih =>
    cases hc : p c with
    | false => simp [hc]
    | true => simpa [hc] using ih

/-- After a word comes no part of a word. -/
theorem head_of_wordLength (text : List Char) :
    (text.drop (wordLength text).1).head?.any isWordPart = false := by
  rcases wordLength_mem text with h | h
  · exact head_of_mem_joinedLengths h
  · rw [h]
    exact head_drop_takeWhile isWordPart text

/-- After a number comes neither a letter nor a digit. -/
theorem head_of_numberLength (text : List Char) :
    (text.drop (numberLength text).1).head?.any Char.isAlphanum = false := by
  have h := head_drop_takeWhile Char.isAlphanum (text.drop (digitsLength text).1)
  rw [List.drop_drop] at h
  exact h

/-- Punctuation ends with no part of a word. -/
theorem getLast?_of_punctuation {c : Char} {w x : List Char} {k : Kind}
    (h : punctuation? (c :: (w ++ x)) = some (k, w.length + 1)) :
    (c :: w).getLast?.any isWordPart = false := by
  have hdouble : ∀ p ∈ doublePunctuation, isWordPart p.1.2 = false := by decide
  have hsingle : ∀ p ∈ singlePunctuation, isWordPart p.1 = false := by decide
  rw [punctuation?_cons] at h
  cases hd : double? (c :: (w ++ x)) with
  | none =>
    rw [hd] at h
    obtain ⟨k', hk', heq⟩ := Option.map_eq_some_iff.1 h
    obtain rfl : w = [] := List.length_eq_zero_iff.1 (by simpa using (congrArg Prod.snd heq).symm)
    exact hsingle _ (mem_of_lookup hk')
  | some k' =>
    rw [hd] at h
    obtain ⟨d, rfl⟩ : ∃ d, w = [d] :=
      List.length_eq_one_iff.1 (by simpa using (congrArg Prod.snd (Option.some.inj h)).symm)
    rw [List.singleton_append, double?_cons] at hd
    change isWordPart d = false
    by_cases hc : c = '!' ∧ d = '.'
    · rw [hc.2]
      decide
    · rw [if_neg hc] at hd
      exact hdouble _ (mem_of_lookup hd)

theorem getLast?_any_of {p q : Char → Bool} {w : List Char} (hall : ∀ c ∈ w, p c = true)
    (h : ∀ c, p c = true → q c = false) : w.getLast?.any q = false := by
  cases hw : w.getLast? with
  | none => rfl
  | some c => exact h c (hall c (List.mem_of_getLast? hw))

theorem getLast?_of_slash {d : Char} {w x : List Char} {k : Kind} (hd : isLineBreak d = false)
    (h : slash ('/' :: (w ++ d :: x)) = ⟨k, w.length + 1, none⟩) :
    ('/' :: w).getLast?.any isWordPart = false := by
  unfold slash at h
  split at h
  · have hlen : (('/' :: w ++ d :: x).takeWhile fun c => !isLineBreak c).length =
        ('/' :: w).length := congrArg Lexeme.length h
    have := head_of_takeWhile hlen
    simp [hd] at this
  · split at h
    · rename_i hstart
      have htwo := (blockCommentLength_le hstart).1
      have hlen : (blockCommentLength ('/' :: (w ++ d :: x))).1 = w.length + 1 :=
        congrArg Lexeme.length h
      cases w with
      | nil =>
        rw [hlen] at htwo
        exact absurd htwo (by decide)
      | cons e w =>
        have hclose : closeLength? (w ++ d :: x) = some w.length := by
          have hdrop : ('/' :: (e :: w ++ d :: x)).drop 2 = w ++ d :: x := rfl
          rw [blockCommentLength, hdrop] at hlen
          split at hlen
          · rename_i n hn
            rw [hn]
            simpa using hlen
          · simp only [List.length_cons, List.length_append] at hlen
            omega
        rw [getLast?_cons_of (getLast?_cons_of (getLast?_of_closeLength? hclose))]
        rfl
    · split at h
      · rename_i heq
        obtain ⟨e, rfl⟩ : ∃ e, w = [e] :=
          List.length_eq_one_iff.1 (by simpa using (congrArg Lexeme.length h).symm)
        have he : e = '=' := by simpa using heq
        rw [he]
        decide
      · obtain rfl : w = [] :=
          List.length_eq_zero_iff.1 (by simpa using (congrArg Lexeme.length h).symm)
        decide

/-- The lexeme before a letter does not end with a part of a word. -/
theorem getLast?_of_normal {c d : Char} {w x : List Char} {k : Kind} (hd : d = 'a' ∨ d = 'o')
    (h : normal c (w ++ d :: x) = ⟨k, w.length + 1, none⟩) :
    (c :: w).getLast?.any isWordPart = false := by
  have hdrop : (c :: (w ++ d :: x)).drop (w.length + 1) = d :: x := @List.drop_left _ (c :: w) _
  refine normal_cases (P := fun l => l = ⟨k, w.length + 1, none⟩ → _) c (w ++ d :: x)
    (fun hc h => ?_) (fun hc h => ?_) (fun hc h => ?_) (fun hc h => ?_) (fun hc h => ?_)
    (fun hc h => ?_) (fun k n hp h => ?_) (fun h => ?_) h
  · have hlen : newlineLength (c :: (w ++ d :: x)) = w.length + 1 := congrArg Lexeme.length h
    rw [newlineLength_cons] at hlen
    split at hlen
    · rename_i hpair
      obtain ⟨e, rfl⟩ : ∃ e, w = [e] := List.length_eq_one_iff.1 (by omega)
      have he : e = '\n' := by simpa using (Bool.and_eq_true_iff.1 hpair).2
      subst he
      rfl
    · obtain rfl : w = [] := List.length_eq_zero_iff.1 (by omega)
      exact isWordPart_of_isBlank (isBlank_of_isLineBreak hc)
  · have hlen : blankLength (c :: (w ++ d :: x)) = w.length + 1 := congrArg Lexeme.length h
    have hall : (c :: (w ++ d :: x)).takeWhile isInlineBlank = c :: w :=
      eq_of_isPrefix_append (x := d :: x) (List.takeWhile_prefix _) hlen
    refine getLast?_any_of (p := isInlineBlank) (fun e he => ?_) fun e he => ?_
    · exact List.mem_takeWhile_imp (hall ▸ he)
    · exact isWordPart_of_isBlank (Bool.and_eq_true_iff.1 he).1
  · subst hc
    exact getLast?_of_slash (by rcases hd with rfl | rfl <;> decide) h
  · have hlast := getLast?_cons_of (c := c) (getLast?_of_stringRest (stringRest_of_string h))
    rw [hlast]
    rcases hc with rfl | rfl <;> decide
  · have hlen : (numberLength (c :: (w ++ d :: x))).1 = w.length + 1 := congrArg Lexeme.length h
    have := head_of_numberLength (c :: (w ++ d :: x))
    rw [hlen, hdrop, List.head?_cons, Option.any_some] at this
    rcases hd with rfl | rfl <;> exact absurd this (by decide)
  · have hlen : (wordLength (c :: (w ++ d :: x))).1 = w.length + 1 := congrArg Lexeme.length h
    have := head_of_wordLength (c :: (w ++ d :: x))
    rw [hlen, hdrop, List.head?_cons, Option.any_some] at this
    rcases hd with rfl | rfl <;> exact absurd this (by decide)
  · obtain rfl : n = w.length + 1 := congrArg Lexeme.length h
    exact getLast?_of_punctuation hp
  · exact absurd (congrArg Lexeme.fault h) (by simp)

theorem next_normal (c : Char) (rest : List Char) :
    next .normal c rest =
      (normal c rest, if (normal c rest).kind == .thenKw then .consequence else .normal) := rfl

/-- How a lexeme is found: as trivia before a consequence, as the consequence, or as any other
lexeme. -/
theorem next_cases {mode mode' : Mode} {c : Char} {rest : List Char} {l : Lexeme}
    (h : next mode c rest = (l, mode')) :
    mode = .consequence ∧ mode' = .consequence ∧ startsTrivia (c :: rest) = true ∧
        normal c rest = l ∨
      mode = .consequence ∧ mode' = .normal ∧
        l = ⟨.actionText, actionLength (c :: rest), none⟩ ∨
      (mode = .consequence → startsTrivia (c :: rest) = false ∧ actionLength (c :: rest) = 0) ∧
        mode' = (if l.kind == .thenKw then .consequence else .normal) ∧ normal c rest = l := by
  unfold next at h
  dsimp only at h
  split at h
  · rename_i htrivia
    obtain ⟨hmode, htrivia⟩ := Bool.and_eq_true_iff.1 htrivia
    cases h
    exact .inl ⟨beq_iff_eq.1 hmode, rfl, htrivia, rfl⟩
  · rename_i htrivia
    split at h
    · rename_i haction
      cases h
      exact .inr (.inl ⟨beq_iff_eq.1 (Bool.and_eq_true_iff.1 haction).1, rfl, rfl⟩)
    · rename_i haction
      cases h
      refine .inr (.inr ⟨fun hmode => ?_, rfl, rfl⟩)
      simp only [hmode, beq_self_eq_true, Bool.true_and] at htrivia haction
      exact ⟨by simpa using htrivia, by simpa using haction⟩

/-- A consequence is followed by a blank or by the closing `end`. -/
theorem head_of_action {w x : List Char} {d : Char} (h : actionLength (w ++ d :: x) = w.length) :
    isBlank d = true ∨ d = 'e' := by
  obtain ⟨blanks, hblanks, -, hx⟩ := follows_action h
  cases blanks with
  | nil =>
    rcases hx with hx | ⟨after, hx, -⟩
    · cases hx
    · exact .inr (List.cons.inj hx).1
  | cons e blanks =>
    rcases hx with hx | ⟨after, hx, -⟩
    · exact .inl ((List.cons.inj hx).1 ▸ hblanks e List.mem_cons_self)
    · exact .inl ((List.cons.inj hx).1 ▸ hblanks e List.mem_cons_self)

/-- The lexeme before a letter does not end with a part of a word. -/
theorem getLast?_of_next {mode mode' : Mode} {c d : Char} {w x : List Char} {k : Kind}
    (hd : d = 'a' ∨ d = 'o')
    (h : next mode c (w ++ d :: x) = (⟨k, w.length + 1, none⟩, mode')) :
    (c :: w).getLast?.any isWordPart = false := by
  rcases next_cases h with ⟨-, -, -, hnormal⟩ | ⟨-, -, haction⟩ | ⟨-, -, hnormal⟩
  · exact getLast?_of_normal hd hnormal
  · have hlen : actionLength (c :: w ++ d :: x) = (c :: w).length :=
      (congrArg Lexeme.length haction).symm
    rcases hd with rfl | rfl <;> exact absurd (head_of_action hlen) (by decide)
  · exact getLast?_of_normal hd hnormal

/-- `!` is no lexeme of its own before `.` and a letter. -/
theorem next_bang {mode mode' : Mode} {d : Char} {x : List Char} {k : Kind}
    (hd : d = 'a' ∨ d = 'o') : next mode '!' ('.' :: d :: x) ≠ (⟨k, 1, none⟩, mode') := by
  intro h
  have hnormal : normal '!' ('.' :: d :: x) = ⟨.bangDot, 2, none⟩ := by
    rcases hd with rfl | rfl <;> rfl
  rcases next_cases h with ⟨-, -, -, hlex⟩ | ⟨-, -, haction⟩ | ⟨-, -, hlex⟩
  · exact absurd (congrArg Lexeme.length (hnormal.symm.trans hlex)) (by simp)
  · have hlen : actionLength (['!'] ++ '.' :: d :: x) = 1 := (congrArg Lexeme.length haction).symm
    exact absurd (head_of_action hlen) (by decide)
  · exact absurd (congrArg Lexeme.length (hnormal.symm.trans hlex)) (by simp)

/-! ## Symbols and the words for them -/

/-- Text that starts neither with a blank, a comment nor the letter `e` is outside consequences, or
the text of one. -/
theorem next_cases_of {mode mode' : Mode} {c : Char} {rest : List Char} {l : Lexeme}
    (hc : isBlank c = false ∧ c ≠ '/' ∧ c ≠ 'e') (hl : l.kind ≠ .actionText)
    (h : next mode c rest = (l, mode')) :
    mode = .normal ∧ mode' = (if l.kind == .thenKw then .consequence else .normal) ∧
      normal c rest = l := by
  rcases next_cases h with ⟨-, -, htrivia, -⟩ | ⟨-, -, haction⟩ | ⟨hmode, hmode', hnormal⟩
  · simp [startsTrivia, startsLineComment_cons, startsBlockComment_cons, hc.1, hc.2.1] at htrivia
  · exact absurd (congrArg Lexeme.kind haction) hl
  · refine ⟨?_, hmode', hnormal⟩
    cases mode with
    | normal => rfl
    | consequence =>
      have hzero := (hmode rfl).2
      rw [actionLength_eq_zero_iff hc.1] at hzero
      obtain ⟨after, htext, -⟩ := of_closesHere hzero
      exact absurd (List.cons.inj htext).1 hc.2.2

theorem kind_slash (text : List Char) : (slash text).kind = .commentLine ∨
    (slash text).kind = .commentBlock ∨ (slash text).kind = .slashEq ∨
      (slash text).kind = .slash := by
  unfold slash
  split
  · simp
  · split
    · simp
    · split <;> simp

theorem symbol_of_normal {c : Char} {rest : List Char} {k : Kind} {n : Nat}
    (hk : k = .ampAmp ∨ k = .pipePipe) (h : normal c rest = ⟨k, n, none⟩) :
    n = 2 ∧ ∃ d after, rest = d :: after ∧ ((c, d), k) ∈ doublePunctuation := by
  have hne : (∀ k' ∈ [Kind.newline, .whitespace, .stringLit, .error, .intLit, .floatLit,
      .commentLine, .commentBlock, .slashEq, .slash, .ident], k' ≠ k) ∧ k.isKeyword = false := by
    rcases hk with rfl | rfl <;> decide
  have hsingle : ∀ p ∈ singlePunctuation, p.2 ≠ .ampAmp ∧ p.2 ≠ .pipePipe := by decide
  refine normal_cases (P := fun l => l = ⟨k, n, none⟩ → _) c rest
    (fun hc h => ?_) (fun hc h => ?_) (fun hc h => ?_) (fun hc h => ?_) (fun hc h => ?_)
    (fun hc h => ?_) (fun k' n' hp h => ?_) (fun h => ?_) h
  all_goals have hkind := congrArg Lexeme.kind h
  · exact absurd hkind (hne.1 _ (by simp))
  · exact absurd hkind (hne.1 _ (by simp))
  · rcases kind_slash (c :: rest) with h' | h' | h' | h' <;>
      exact absurd (h'.symm.trans hkind) (hne.1 _ (by simp))
  · change Kind.stringLit = k at hkind
    exact absurd hkind (hne.1 _ (by simp))
  · rcases kind_number (c :: rest) with h' | h' <;>
      exact absurd (h'.symm.trans hkind) (hne.1 _ (by simp))
  · change (wordLength (c :: rest)).2 = k at hkind
    rcases kind_word (c :: rest) with h' | h'
    · exact absurd (h'.symm.trans hkind) (hne.1 _ (by simp))
    · rw [hkind, hne.2] at h'
      cases h'
  · cases h
    rw [punctuation?_cons] at hp
    cases hd : double? (c :: rest) with
    | none =>
      rw [hd] at hp
      obtain ⟨k', hk', heq⟩ := Option.map_eq_some_iff.1 hp
      cases heq
      have := hsingle _ (mem_of_lookup hk')
      exact absurd hk (by simp [this.1, this.2])
    | some k' =>
      rw [hd] at hp
      cases hp
      cases rest with
      | nil => simp [double?] at hd
      | cons d after =>
        rw [double?_cons] at hd
        split at hd
        · split at hd
          · cases hd
            simp at hk
          · cases hd
        · exact ⟨rfl, d, after, rfl, mem_of_lookup hd⟩
  · exact absurd hkind (hne.1 _ (by simp))

/-- A symbol that joins conditions is two characters, outside consequences. -/
theorem next_symbol {mode mode' : Mode} {c : Char} {rest : List Char} {k : Kind} {n : Nat}
    (hk : k = .ampAmp ∨ k = .pipePipe) (h : next mode c rest = (⟨k, n, none⟩, mode')) :
    mode = .normal ∧ mode' = .normal ∧ n = 2 ∧
      ∃ after, c :: rest = (k.spelling?.getD "").toList ++ after := by
  have hnormal : normal c rest = ⟨k, n, none⟩ := by
    rcases next_cases h with ⟨-, -, -, hnormal⟩ | ⟨-, -, haction⟩ | ⟨-, -, hnormal⟩
    · exact hnormal
    · have := congrArg Lexeme.kind haction
      rcases hk with rfl | rfl <;> cases this
    · exact hnormal
  obtain ⟨rfl, d, after, rfl, hmem⟩ := symbol_of_normal hk hnormal
  have htable : ∀ p ∈ doublePunctuation, (p.2 = .ampAmp → p.1 = ('&', '&')) ∧
      (p.2 = .pipePipe → p.1 = ('|', '|')) := by
    decide
  have hchars := htable _ hmem
  rcases hk with rfl | rfl
  · rw [(Prod.mk.inj (hchars.1 rfl)).1, (Prod.mk.inj (hchars.1 rfl)).2]
    obtain ⟨hmode, hmode', -⟩ := next_cases_of (l := ⟨.ampAmp, 2, none⟩)
      (by rw [(Prod.mk.inj (hchars.1 rfl)).1]; decide) (by simp) h
    exact ⟨hmode, hmode', rfl, after, rfl⟩
  · rw [(Prod.mk.inj (hchars.2 rfl)).1, (Prod.mk.inj (hchars.2 rfl)).2]
    obtain ⟨hmode, hmode', -⟩ := next_cases_of (l := ⟨.pipePipe, 2, none⟩)
      (by rw [(Prod.mk.inj (hchars.2 rfl)).1]; decide) (by simp) h
    exact ⟨hmode, hmode', rfl, after, rfl⟩

theorem joinedLengths_append (n : Nat) {w : List Char} (x : List Char)
    (hw : ∀ c ∈ w, isWordPart c = true) :
    joinedLengths n (w ++ x) = joinedLengths (n + w.length) x := by
  induction w generalizing n with
  | nil => rfl
  | cons c w ih =>
    rw [List.cons_append, joinedLengths, if_pos (hw c List.mem_cons_self),
      ih (n + 1) fun d hd => hw d (List.mem_cons_of_mem c hd), List.length_cons]
    congr 1
    omega

/-- A keyword of joined parts that no other keyword goes on from is a lexeme if no part of a word
comes after it. -/
theorem wordLength_of_joined {w x : List Char} {k : Kind} {before : List Nat}
    (hw : joinedLengths 0 (w ++ x) = before ++ joinedLengths w.length x)
    (hk : Kind.ofKeyword? w = some k)
    (hlongest : ∀ p ∈ Kind.keywordTable, ¬ w ++ ['-'] <+: p.1)
    (hx : x.head?.any isWordPart = false) : wordLength (w ++ x) = (w.length, k) := by
  obtain ⟨more, hends, hmore⟩ : ∃ more, joinedLengths w.length x = w.length :: more ∧
      ∀ m ∈ more, Kind.ofKeyword? ((w ++ x).take m) = none := by
    cases x with
    | nil => exact ⟨[], rfl, by simp⟩
    | cons c x =>
      have hc : isWordPart c = false := hx
      rw [joinedLengths, hc, if_neg Bool.false_ne_true]
      split
      · rename_i hdash
        have hc : c = '-' := beq_iff_eq.1 (Bool.and_eq_true_iff.1 hdash).1
        refine ⟨_, rfl, fun m hm => ?_⟩
        have hle := (mem_joinedLengths_le hm).1
        cases hkey : Kind.ofKeyword? ((w ++ c :: x).take m) with
        | none => rfl
        | some k' =>
          refine absurd ?_ (hlongest _ (mem_of_lookup hkey))
          have hpre : w ++ ['-'] <+: w ++ c :: x := ⟨x, by simp [hc]⟩
          exact List.prefix_take_iff.2 ⟨hpre, by simpa using hle⟩
      · exact ⟨[], rfl, by simp⟩
  have hnone : more.reverse.findSome? (fun n =>
      (Kind.ofKeyword? ((w ++ x).take n)).map fun k => (n, k)) = none := by
    refine List.findSome?_eq_none_iff.2 fun m hm => ?_
    rw [hmore m (List.mem_reverse.1 hm)]
    rfl
  simp only [wordLength, hw, hends, List.reverse_append, List.reverse_cons, List.findSome?_append,
    hnone, Option.none_or, List.findSome?_cons, List.take_left, hk, Option.map_some, Option.some_or,
    Option.getD_some]

/-- A keyword that no other keyword goes on from is a lexeme if no part of a word comes after it. -/
theorem wordLength_of_keyword {w x : List Char} {k : Kind} (hw : ∀ c ∈ w, isWordPart c = true)
    (hk : Kind.ofKeyword? w = some k)
    (hlongest : ∀ p ∈ Kind.keywordTable, ¬ w ++ ['-'] <+: p.1)
    (hx : x.head?.any isWordPart = false) : wordLength (w ++ x) = (w.length, k) :=
  @wordLength_of_joined w x k [] (by simp [joinedLengths_append 0 x hw]) hk hlongest hx

/-- The word for a symbol is a lexeme if no part of a word comes after it. -/
theorem next_word {c : Char} {w : List Char} {k : Kind}
    (hw : c = 'a' ∧ w = ['n', 'd'] ∧ k = .andKw ∨ c = 'o' ∧ w = ['r'] ∧ k = .orKw)
    {x : List Char} (hx : x.head?.any isWordPart = false) :
    next .normal c (w ++ x) = (⟨k, w.length + 1, none⟩, .normal) := by
  have hand : wordLength (['a', 'n', 'd'] ++ x) = (3, .andKw) :=
    wordLength_of_keyword (List.all_eq_true.1 (by decide)) (by decide +kernel) (by decide +kernel) hx
  have hor : wordLength (['o', 'r'] ++ x) = (2, .orKw) :=
    wordLength_of_keyword (List.all_eq_true.1 (by decide)) (by decide +kernel) (by decide +kernel) hx
  rcases hw with ⟨rfl, rfl, rfl⟩ | ⟨rfl, rfl, rfl⟩
  · have hnormal := normal_letter (c := 'a') (.inr (.inl rfl)) (['n', 'd'] ++ x)
    rw [← List.cons_append, hand] at hnormal
    rw [next_normal, hnormal]
    rfl
  · have hnormal := normal_letter (c := 'o') (.inr (.inr rfl)) (['r'] ++ x)
    rw [← List.cons_append, hor] at hnormal
    rw [next_normal, hnormal]
    rfl

theorem of_next_word {mode mode' : Mode} {c : Char} {w : List Char} {k : Kind}
    (hw : c = 'a' ∧ w = ['n', 'd'] ∧ k = .andKw ∨ c = 'o' ∧ w = ['r'] ∧ k = .orKw)
    {x : List Char} (h : next mode c (w ++ x) = (⟨k, w.length + 1, none⟩, mode')) :
    mode = .normal ∧ mode' = .normal ∧ x.head?.any isWordPart = false := by
  obtain ⟨hmode, hmode', hnormal⟩ := next_cases_of
    (by rcases hw with ⟨rfl, -⟩ | ⟨rfl, -⟩ <;> decide)
    (by rcases hw with ⟨-, -, rfl⟩ | ⟨-, -, rfl⟩ <;> simp) h
  refine ⟨hmode, ?_, ?_⟩
  · rcases hw with ⟨-, -, rfl⟩ | ⟨-, -, rfl⟩ <;> exact hmode'
  · rw [normal_letter (by rcases hw with ⟨rfl, -⟩ | ⟨rfl, -⟩ <;> simp)] at hnormal
    have hlen : (wordLength (c :: (w ++ x))).1 = w.length + 1 := congrArg Lexeme.length hnormal
    have hdrop : (c :: (w ++ x)).drop (w.length + 1) = x := @List.drop_left _ (c :: w) _
    rw [← hdrop, ← hlen]
    exact head_of_wordLength _

end RuleLang.Lexeme
