import RuleLang.Proofs.Lexeme.Stable

/-!
# Where a consequence ends, seen from before

The search for the closing `end` of a consequence reads up to the first character after it that is
no blank. What comes later may be changed.

## Main statements

* `findEnd_append` — the search in two texts that are the same through the `end` that it finds.
* `Alike.actionLength_eq` — a consequence ends before a seam.
-/

namespace RuleLang.Lexeme

open Text

/-- The characters from `text` on cannot be told from those from `text'` on by what comes right
after a word. -/
structure SameAfter (text text' : List Char) : Prop where
  word : text.head?.any isWordPart = false
  word' : text'.head?.any isWordPart = false
  name : usesAsName text' = usesAsName text

theorem takeWhile_append_of_head {p : Char → Bool} (w : List Char) {x : List Char}
    (h : x.head?.any p = false) : (w ++ x).takeWhile p = w.takeWhile p := by
  induction w with
  | nil =>
    cases x with
    | nil => rfl
    | cons c x => exact List.takeWhile_cons_of_neg (by simpa using h)
  | cons c w ih => simp only [List.cons_append, List.takeWhile_cons, ih]

theorem takeWhile_append_of_lt {p : Char → Bool} {w x : List Char} (y : List Char)
    (h : ((w ++ x).takeWhile p).length < w.length) :
    (w ++ y).takeWhile p = (w ++ x).takeWhile p := by
  induction w with
  | nil => simp at h
  | cons c w ih =>
    cases hc : p c with
    | false => simp [hc]
    | true =>
      simp only [List.cons_append, List.takeWhile_cons, hc, if_true, List.length_cons,
        Nat.add_lt_add_iff_right] at h ⊢
      rw [ih h]

theorem closeLength?_append {w x : List Char} (y : List Char) {n : Nat}
    (h : closeLength? (w ++ x) = some n) (hn : n ≤ w.length) : closeLength? (w ++ y) = some n := by
  have hpos := (closeLength?_le h).1
  induction w generalizing n with
  | nil => exact absurd hn (by simp only [List.length_nil]; omega)
  | cons c w ih =>
    cases w with
    | nil => exact absurd hn (by simp only [List.length_cons, List.length_nil]; omega)
    | cons d w =>
      rw [List.cons_append, closeLength?] at h ⊢
      have hhead (z : List Char) : (d :: w ++ z).head? = some d := rfl
      rw [hhead] at h ⊢
      by_cases hc : (c == '*' && some d == some '/') = true
      · rwa [if_pos hc] at h ⊢
      · rw [if_neg hc] at h ⊢
        obtain ⟨m, hm, rfl⟩ := Option.map_eq_some_iff.1 h
        have hle : m ≤ (d :: w).length := by
          simp only [List.length_cons] at hn ⊢
          omega
        rw [ih hm hle (closeLength?_le hm).1]
        rfl

/-- An open comment reaches to the end of the text. -/
theorem length_of_open {text : List Char} {n : Nat} (h : blockCommentLength text = (n, false)) :
    n = text.length := by
  unfold blockCommentLength at h
  split at h
  · cases h
  · exact (congrArg Prod.fst h).symm

theorem blockCommentLength_append {c : Char} {w x : List Char} (y : List Char) {n : Nat}
    (hw : w ≠ []) (h : blockCommentLength (c :: (w ++ x)) = (n, true)) (hn : n ≤ w.length + 1) :
    blockCommentLength (c :: (w ++ y)) = (n, true) := by
  obtain ⟨d, w, rfl⟩ := List.exists_cons_of_ne_nil hw
  have hdrop (z : List Char) : (c :: (d :: w ++ z)).drop 2 = w ++ z := rfl
  simp only [blockCommentLength, hdrop] at h ⊢
  cases hx : closeLength? (w ++ x) with
  | none => simp [hx] at h
  | some m =>
    simp only [hx, Prod.mk.injEq, and_true] at h
    rw [closeLength?_append y hx (by simp only [List.length_cons] at hn; omega)]
    simp only [h]

theorem stringRest_pos {quote : Char} {text : List Char} (h : (stringRest quote text).2 = true) :
    0 < (stringRest quote text).1 := by
  fun_cases stringRest quote text <;> simp_all [stringRest]

theorem stringRest_cons {quote c : Char} (hc : c ≠ '\\') (text : List Char) :
    stringRest quote (c :: text) =
      if isLineBreak c then (0, false)
      else if c == quote then (1, true)
      else ((stringRest quote text).1 + 1, (stringRest quote text).2) := by
  rw [stringRest]
  · exact fun h => absurd h hc
  · exact fun _ _ h => absurd h hc

theorem stringRest_escaped {quote e : Char} (he : isLineBreak e = false) (text : List Char) :
    stringRest quote ('\\' :: e :: text) =
      ((stringRest quote text).1 + 2, (stringRest quote text).2) := by
  simp [stringRest, he]

theorem ne_escape {c : Char} {text : List Char} (hlone : c = '\\' → text = [] → False)
    (hesc : ∀ e rest, c = '\\' → text = e :: rest → False) : c ≠ '\\' := fun h => by
  cases text with
  | nil => exact hlone h rfl
  | cons e rest => exact hesc e rest h rfl

/-- The end of a literal is seen with its closing quote, or with one more character. -/
theorem stringRest_append {quote : Char} {w x : List Char} (y : List Char)
    (h : (stringRest quote (w ++ x)).1 < w.length ∨
      (stringRest quote (w ++ x)).1 ≤ w.length ∧ (stringRest quote (w ++ x)).2 = true) :
    stringRest quote (w ++ y) = stringRest quote (w ++ x) := by
  fun_induction stringRest quote w with
  | case1 =>
    rw [List.nil_append, List.length_nil] at h
    have := stringRest_pos (h.resolve_left (by omega)).2
    omega
  | case2 =>
    cases x with
    | nil => simp [stringRest] at h
    | cons e x =>
      cases he : isLineBreak e <;> simp [stringRest, he] at h
  | case3 e w he => simp [stringRest, he]
  | case4 e w he n closed heq ih =>
    rw [Bool.not_eq_true] at he
    simp only [List.cons_append, stringRest_escaped he, List.length_cons] at h ⊢
    rw [ih (h.imp (by omega) (And.imp_left (by omega)))]
  | case5 c w hlone hesc hc =>
    simp only [List.cons_append, stringRest_cons (ne_escape hlone hesc), hc, if_true]
  | case6 c w hlone hesc hc hq =>
    simp only [List.cons_append, stringRest_cons (ne_escape hlone hesc), hc, hq, if_true]
  | case7 c w hlone hesc hc hq n closed heq ih =>
    simp only [List.cons_append, stringRest_cons (ne_escape hlone hesc), hc, hq,
      Bool.false_eq_true, if_false, List.length_cons] at h ⊢
    rw [ih (h.imp (by omega) (And.imp_left (by omega)))]

theorem usesAsName_append (w : List Char) {x y : List Char} (h : usesAsName y = usesAsName x) :
    usesAsName (w ++ y) = usesAsName (w ++ x) := by
  induction w with
  | nil => exact h
  | cons c w ih =>
    cases hc : isBlank c with
    | true => simpa [usesAsName, trimStart, hc] using ih
    | false => simp [usesAsName, trimStart, hc]

theorem head?_append_of_ne_nil {w : List Char} (hw : w ≠ []) (x : List Char) :
    (w ++ x).head? = w.head? := by
  obtain ⟨c, w, rfl⟩ := List.exists_cons_of_ne_nil hw
  rfl

theorem closesHere_append (s : Scan) {w x y : List Char} (hw : w ≠ []) (h : SameAfter x y) :
    closesHere s (w ++ y) = closesHere s (w ++ x) := by
  have hword {z : List Char} (hz : z.head?.any isWordPart = false) :
      wordAt (w ++ z) = wordAt w := takeWhile_append_of_head w hz
  have hdrop (z : List Char) :
      (w ++ z).drop (wordAt w).length = w.drop (wordAt w).length ++ z :=
    List.drop_append_of_le_length (length_takeWhile_le _ _)
  have hhead (z : List Char) : (w ++ z).head? = w.head? := head?_append_of_ne_nil hw z
  simp only [closesHere, hword h.word, hword h.word', hdrop, hhead, usesAsName_append _ h.name]

theorem newlineLength_cons (c : Char) (text : List Char) :
    newlineLength (c :: text) = if c == '\r' && text.head? == some '\n' then 2 else 1 := by
  unfold newlineLength
  split
  · rename_i heq
    cases heq
    rfl
  · rename_i hne
    cases text with
    | nil => simp
    | cons d text =>
      by_cases hc : c = '\r'
      · by_cases hd : d = '\n'
        · exact absurd (by rw [hc, hd]) (hne text)
        · simp [hd]
      · simp [hc]

theorem startsLineComment_cons (c : Char) (text : List Char) :
    startsLineComment (c :: text) = (c == '/' && text.head? == some '/') := by
  unfold startsLineComment
  split
  · rename_i heq
    cases heq
    rfl
  · rename_i hne
    cases text with
    | nil => simp
    | cons d text =>
      by_cases hc : c = '/'
      · by_cases hd : d = '/'
        · exact absurd (by rw [hc, hd]) (hne text)
        · simp [hd]
      · simp [hc]

theorem startsBlockComment_cons (c : Char) (text : List Char) :
    startsBlockComment (c :: text) = (c == '/' && text.head? == some '*') := by
  unfold startsBlockComment
  split
  · rename_i heq
    cases heq
    rfl
  · rename_i hne
    cases text with
    | nil => simp
    | cons d text =>
      by_cases hc : c = '/'
      · by_cases hd : d = '*'
        · exact absurd (by rw [hc, hd]) (hne text)
        · simp [hd]
      · simp [hc]

/-- A piece is the same if two more characters after it are. -/
theorem stepConsequence_append (s : Scan) (c : Char) {w x y : List Char} (h : SameAfter x y)
    (hw : w ≠ []) (hle : (stepConsequence s c (w ++ x)).1 < w.length) :
    stepConsequence s c (w ++ y) = stepConsequence s c (w ++ x) := by
  have hword {z : List Char} (hz : z.head?.any isWordPart = false) :
      (w ++ z).takeWhile isWordPart = w.takeWhile isWordPart := takeWhile_append_of_head w hz
  have hwordAt {z : List Char} (hz : z.head?.any isWordPart = false) :
      wordAt (c :: (w ++ z)) = wordAt (c :: w) := takeWhile_append_of_head (c :: w) hz
  have hhead (z : List Char) : (w ++ z).head? = w.head? := head?_append_of_ne_nil hw z
  simp only [stepConsequence, startsLineComment_cons, startsBlockComment_cons, hhead,
    hword h.word, hword h.word', hwordAt h.word, hwordAt h.word'] at hle ⊢
  by_cases hbreak : isLineBreak c = true
  · simp only [hbreak, if_true]
  by_cases hblank : isBlank c = true
  · simp only [hbreak, hblank, Bool.false_eq_true, if_true, if_false]
  by_cases hline : (c == '/' && w.head? == some '/') = true
  · simp only [hbreak, hblank, hline, Bool.false_eq_true, if_true, if_false] at hle ⊢
    rw [lineCommentLength, takeWhile_append_of_lt y hle, lineCommentLength]
  by_cases hblock : (c == '/' && w.head? == some '*') = true
  · simp only [hbreak, hblank, hline, hblock, Bool.false_eq_true, if_true, if_false] at hle ⊢
    cases hx : blockCommentLength (c :: (w ++ x)) with
    | mk n closed =>
      rw [hx] at hle
      dsimp only at hle
      cases closed with
      | true => rw [blockCommentLength_append y hw hx (by omega)]
      | false =>
        have := length_of_open hx
        simp only [List.length_cons, List.length_append] at this hle
        omega
  by_cases hquote : (c == '"' || c == '\x27') = true
  · simp only [hbreak, hblank, hline, hblock, hquote, Bool.false_eq_true, if_true, if_false] at hle ⊢
    rw [stringRest_append y (.inl hle)]
  · simp only [hbreak, hblank, hline, hblock, hquote, Bool.false_eq_true, if_false]

/-- The closing `end` is found in each text that is the same through it. -/
theorem findEnd_append {s : Scan} {before skip n : Nat} {w x y : List Char} (h : SameAfter x y)
    (hx : findEnd s before skip (w ++ x) = some (before + n)) (hw : w.length = n + 3) :
    findEnd s before skip (w ++ y) = some (before + n) := by
  induction w generalizing s before skip n with
  | nil => simp at hw
  | cons c w ih =>
    have hlt := findEnd_lt hx
    rw [List.length_cons] at hw
    cases skip with
    | succ skip =>
      obtain ⟨n, rfl⟩ : ∃ m, n = m + 1 := ⟨n - 1, by omega⟩
      rw [show before + (n + 1) = before + 1 + n by omega] at hx ⊢
      exact ih hx (by omega)
    | zero =>
      have hcloses : closesHere s (c :: (w ++ y)) = closesHere s (c :: (w ++ x)) :=
        closesHere_append s (w := c :: w) (List.cons_ne_nil c w) h
      rw [List.cons_append, findEnd] at hx ⊢
      rw [hcloses]
      by_cases hc : closesHere s (c :: (w ++ x)) = true
      · rwa [if_pos hc] at hx ⊢
      · rw [if_neg hc] at hx ⊢
        change findEnd (stepConsequence s c (w ++ x)).2 (before + 1)
          (stepConsequence s c (w ++ x)).1 (w ++ x) = _ at hx
        have hnext := findEnd_lt hx
        obtain ⟨n, rfl⟩ : ∃ m, n = m + 1 := ⟨n - 1, by omega⟩
        have hne : w ≠ [] := fun h => by simp [h] at hw
        rw [stepConsequence_append s c h hne (by omega)]
        rw [show before + (n + 1) = before + 1 + n by omega] at hx ⊢
        exact ih hx (by omega)

theorem closesHere_of_findEnd {s : Scan} {before skip n : Nat} {text : List Char}
    (h : findEnd s before skip text = some (before + n)) :
    ∃ s', closesHere s' (text.drop n) = true := by
  induction text generalizing s before skip n with
  | nil => simp [findEnd] at h
  | cons c rest ih =>
    have hlt := findEnd_lt h
    cases skip with
    | succ skip =>
      obtain ⟨n, rfl⟩ : ∃ m, n = m + 1 := ⟨n - 1, by omega⟩
      rw [show before + (n + 1) = before + 1 + n by omega] at h
      exact ih h
    | zero =>
      rw [findEnd] at h
      by_cases hc : closesHere s (c :: rest) = true
      · rw [if_pos hc, Option.some.injEq] at h
        obtain rfl : n = 0 := by omega
        exact ⟨s, hc⟩
      · rw [if_neg hc] at h
        change findEnd (stepConsequence s c rest).2 (before + 1)
          (stepConsequence s c rest).1 rest = _ at h
        have hnext := findEnd_lt h
        obtain ⟨n, rfl⟩ : ∃ m, n = m + 1 := ⟨n - 1, by omega⟩
        rw [show before + (n + 1) = before + 1 + n by omega] at h
        exact ih h

/-- A closing `end` is a whole word, and is not used as a name. -/
theorem of_closesHere {s : Scan} {text : List Char} (h : closesHere s text = true) :
    ∃ after, text = 'e' :: 'n' :: 'd' :: after ∧ after.head?.any isWordPart = false ∧
      usesAsName after = false := by
  simp only [closesHere, Bool.and_eq_true, beq_iff_eq, Bool.not_eq_true'] at h
  obtain ⟨⟨⟨-, hword⟩, -⟩, hname⟩ := h
  have htext : text = ['e', 'n', 'd'] ++ text.dropWhile isWordPart := by
    rw [← hword, wordAt, List.takeWhile_append_dropWhile]
  have hdrop : text.drop (wordAt text).length = text.dropWhile isWordPart := by
    rw [hword]
    exact congrArg (List.drop 3) htext
  refine ⟨text.dropWhile isWordPart, htext, ?_, hdrop ▸ hname⟩
  have := List.head?_dropWhile_not isWordPart text
  cases hhead : (text.dropWhile isWordPart).head? with
  | none => rfl
  | some c => simpa [hhead] using this

theorem trimEnd_append_blanks (text : List Char) :
    ∃ blanks, text = trimEnd text ++ blanks ∧ ∀ c ∈ blanks, isBlank c = true := by
  refine ⟨(text.reverse.takeWhile isBlank).reverse, ?_, fun c hc => ?_⟩
  · rw [trimEnd, ← List.reverse_append, List.takeWhile_append_dropWhile, List.reverse_reverse]
  · exact List.mem_takeWhile_imp (List.mem_reverse.1 hc)

theorem eq_of_isPrefix_append {α : Type} {t w x : List α} (h : t <+: w ++ x)
    (hlen : t.length = w.length) : t = w := by
  obtain ⟨u, hu⟩ := h
  exact (List.append_inj hu hlen).1

/-- After a consequence come blanks, and the closing `end` if there is one. -/
theorem follows_action {w x : List Char} (hlen : actionLength (w ++ x) = w.length) :
    ∃ blanks, (∀ c ∈ blanks, isBlank c = true) ∧ trimEnd (w ++ blanks) = w ∧
      (x = blanks ∨ ∃ after, x = blanks ++ ['e', 'n', 'd'] ++ after ∧
        after.head?.any isWordPart = false ∧
        consequenceLength? (w ++ x) = some (w ++ blanks).length) := by
  obtain ⟨blanks, htext, hblanks⟩ := trimEnd_append_blanks
    ((w ++ x).take ((consequenceLength? (w ++ x)).getD (w ++ x).length))
  have htrim : trimEnd ((w ++ x).take ((consequenceLength? (w ++ x)).getD (w ++ x).length)) = w :=
    eq_of_isPrefix_append ((prefix_trimEnd _).trans (List.take_prefix _ _)) hlen
  rw [htrim] at htext
  refine ⟨blanks, hblanks, htext ▸ htrim, ?_⟩
  cases hend : consequenceLength? (w ++ x) with
  | none =>
    rw [hend, Option.getD_none, List.take_length] at htext
    exact .inl (List.append_cancel_left htext)
  | some q =>
    rw [hend, Option.getD_some] at htext
    have hq := consequenceLength?_lt hend
    have hfind : findEnd .initial 0 0 (w ++ x) = some (0 + q) := by rwa [Nat.zero_add]
    obtain ⟨s, hcloses⟩ := closesHere_of_findEnd hfind
    obtain ⟨after, hdrop, hword, -⟩ := of_closesHere hcloses
    have hwhole : w ++ x = w ++ (blanks ++ ['e', 'n', 'd'] ++ after) := by
      rw [← List.take_append_drop q (w ++ x), htext, hdrop]
      simp
    have hqlen : q = (w ++ blanks).length := by
      rw [← htext, List.length_take, Nat.min_eq_left hq.le]
    exact .inr ⟨after, List.append_cancel_left hwhole, hword, by rw [hqlen]⟩

/-- A text without a blank at its start holds no consequence exactly if it opens with the closing
`end`. -/
theorem actionLength_eq_zero_iff {c : Char} (hc : isBlank c = false) (text : List Char) :
    actionLength (c :: text) = 0 ↔ closesHere .initial (c :: text) = true := by
  have hpos (n : Nat) : trimEnd ((c :: text).take (n + 1)) ≠ [] := fun h => by
    obtain ⟨blanks, htext, hblanks⟩ := trimEnd_append_blanks ((c :: text).take (n + 1))
    rw [h, List.nil_append, List.take_succ_cons] at htext
    have := hblanks c (htext ▸ List.mem_cons_self)
    simp [hc] at this
  by_cases hcloses : closesHere .initial (c :: text) = true
  · simp [actionLength, consequenceLength?, findEnd, hcloses, trimEnd]
  · have hend : ∃ n, (consequenceLength? (c :: text)).getD (c :: text).length = n + 1 := by
      cases h : consequenceLength? (c :: text) with
      | none => exact ⟨text.length, rfl⟩
      | some n =>
        rw [consequenceLength?, findEnd, if_neg hcloses] at h
        change findEnd _ 1 _ text = some n at h
        have := findEnd_lt h
        exact ⟨n - 1, by simp only [Option.getD_some]; omega⟩
    obtain ⟨n, hn⟩ := hend
    rw [actionLength, hn, List.length_eq_zero_iff]
    exact iff_of_false (hpos n) hcloses

namespace Alike

variable {b : Char} {x y : List Char}

/-- Texts that are alike are the same through a piece without the symbols that a seam opens with. -/
theorem of_append {w : List Char} (h : Alike b (w ++ x) y) (hw : ∀ c ∈ w, c ≠ '&' ∧ c ≠ '|') :
    ∃ z, y = w ++ z ∧ Alike ((b :: w).getLast (List.cons_ne_nil b w)) x z := by
  induction w generalizing b y with
  | nil => exact ⟨y, rfl, h⟩
  | cons c w ih =>
    rw [List.getLast_cons (List.cons_ne_nil c w)]
    cases h with
    | refl => exact ⟨x, rfl, .refl _ x⟩
    | cons h =>
      obtain ⟨z, rfl, hz⟩ := ih h fun c hc => hw c (List.mem_cons_of_mem _ hc)
      exact ⟨z, rfl, hz⟩
    | seam h =>
      have hc := hw c List.mem_cons_self
      rcases h.symbol with hs | hs
      · exact absurd (Option.some.inj hs) hc.1
      · exact absurd (Option.some.inj hs) hc.2

theorem eq_nil (h : Alike b [] y) : y = [] := by
  cases h with
  | refl => rfl
  | seam h => rcases h.symbol with h | h <;> simp at h

theorem usesAsName_eq (h : Alike b x y) : usesAsName y = usesAsName x := by
  induction h with
  | refl => rfl
  | @cons b c x y h ih =>
    cases hc : isBlank c with
    | true => simpa [usesAsName, trimStart, hc] using ih
    | false => simp [usesAsName, trimStart, hc]
  | @seam b x y h =>
    have hx : usesAsName x = false := by
      rcases h.symbol with hx | hx <;> obtain ⟨rest, rfl⟩ := List.head?_eq_some_iff.1 hx <;> rfl
    rw [hx]
    obtain ⟨rest, rfl | rfl⟩ := h.spelling <;> rfl

theorem sameAfter (h : Alike b x y) (hb : isWordPart b = true)
    (hword : x.head?.any isWordPart = false) : SameAfter x y := by
  refine ⟨hword, ?_, h.usesAsName_eq⟩
  rcases h.word_cases hb with ⟨-, rfl⟩ | ⟨c, u, v, rfl, rfl, -⟩
  · rfl
  · exact hword

/-- A consequence ends before a seam. -/
theorem actionLength_eq {w : List Char} (hw : w ≠ []) (h : Alike (w.getLast hw) x y)
    (hlen : actionLength (w ++ x) = w.length) : actionLength (w ++ y) = w.length := by
  have hsymbol {c : Char} (hc : isBlank c = true) : c ≠ '&' ∧ c ≠ '|' := by
    refine ⟨?_, ?_⟩ <;> rintro rfl <;> exact absurd hc (by decide)
  obtain ⟨blanks, hblanks, htrim, rfl | ⟨after, rfl, hword, hend⟩⟩ := follows_action hlen
  · have hx : Alike (w.getLast hw) (x ++ []) y := by rwa [List.append_nil]
    obtain ⟨z, rfl, hz⟩ := hx.of_append fun c hc => hsymbol (hblanks c hc)
    rwa [hz.eq_nil, List.append_nil]
  · -- the texts are the same through the closing `end`
    have hthrough : ∀ c ∈ blanks ++ ['e', 'n', 'd'], c ≠ '&' ∧ c ≠ '|' := fun c hc => by
      rcases List.mem_append.1 hc with hc | hc
      · exact hsymbol (hblanks c hc)
      · have : ∀ c ∈ ['e', 'n', 'd'], c ≠ '&' ∧ c ≠ '|' := by simp
        exact this c hc
    obtain ⟨z, rfl, hz⟩ := h.of_append hthrough
    have hlast : (w.getLast hw :: (blanks ++ ['e', 'n', 'd'])).getLast
        (List.cons_ne_nil _ _) = 'd' := by
      rw [List.getLast_cons (by simp), List.getLast_append_of_ne_nil _ (by simp)]
      rfl
    rw [hlast] at hz
    have hsplit (u : List Char) : w ++ (blanks ++ ['e', 'n', 'd'] ++ u) =
        (w ++ blanks ++ ['e', 'n', 'd']) ++ u := by
      simp only [List.append_assoc]
    have hfind : findEnd .initial 0 0 ((w ++ blanks ++ ['e', 'n', 'd']) ++ after) =
        some (0 + (w ++ blanks).length) := by
      rwa [← hsplit, Nat.zero_add]
    have hfind' := findEnd_append (hz.sameAfter (by decide) hword) hfind List.length_append
    have htake : ((w ++ blanks ++ ['e', 'n', 'd']) ++ z).take (0 + (w ++ blanks).length) =
        w ++ blanks := by
      rw [Nat.zero_add, List.append_assoc, List.take_left]
    rw [hsplit, actionLength, consequenceLength?, hfind', Option.getD_some, htake, htrim]

end Alike

end RuleLang.Lexeme
