import RuleLang.Proofs.Lexeme.Mark
import RuleLang.Proofs.Lexer.Concat
import RuleLang.Proofs.Lexer.Part

/-!
# Reading a text with a renamed keyword

In a text the keyword `agenda-group` gives way to `ruleflow-group`. A lexeme that ends before the
keyword is the same in both texts, whatever is wrong with it: no scanner that stops there tells the
two keywords apart, and none reads on to what comes after them. The new keyword is read where the old
one was.

## Main definitions

* `Renames` — a text that starts with the old keyword, and another with the new one.

## Main statements

* `Renames.next_eq` — the lexeme before a renamed keyword, and the mode after it.
* `lex_renamed` — the tokens of a text with some keywords renamed.
-/

namespace RuleLang

namespace Lexeme

open Text
open SameLine (digitsLength_cons joinedLengths_cons)

/-- `agenda` -/
def agendaPart : List Char :=
  ['a', 'g', 'e', 'n', 'd', 'a']

/-- `ruleflow` -/
def ruleflowPart : List Char :=
  ['r', 'u', 'l', 'e', 'f', 'l', 'o', 'w']

/-- `-group` -/
def groupPart : List Char :=
  ['-', 'g', 'r', 'o', 'u', 'p']

/-- The old keyword starts the first text, the new one the second. -/
def Renames (x y : List Char) : Prop :=
  ∃ a b, x = agendaPart ++ (groupPart ++ a) ∧ y = ruleflowPart ++ (groupPart ++ b)

namespace Renames

variable {w x y : List Char}

theorem heads (h : Renames x y) : ∃ s t, x = 'a' :: s ∧ y = 'r' :: t := by
  obtain ⟨a, b, rfl, rfl⟩ := h
  exact ⟨_, _, rfl, rfl⟩

/-! ## Runs of characters -/

/-- What does not tell the first letters of the keywords apart sees the same next character. -/
theorem head_any (h : Renames x y) (w : List Char) {q : Char → Bool} (hq : q 'r' = q 'a') :
    (w ++ y).head?.any q = (w ++ x).head?.any q := by
  obtain ⟨s, t, rfl, rfl⟩ := h.heads
  cases w with
  | nil => exact hq
  | cons => rfl

theorem head_eq (h : Renames x y) (w : List Char) {d : Char} (hd : d ≠ 'a' ∧ d ≠ 'r') :
    ((w ++ y).head? == some d) = ((w ++ x).head? == some d) := by
  have hany (z : List Char) : (z.head? == some d) = z.head?.any (· == d) := by
    cases z <;> simp
  rw [hany, hany]
  exact h.head_any w (by simp [hd.1.symm, hd.2.symm])

/-- A run of characters that ends before the keyword. -/
theorem takeWhile_eq (h : Renames x y) {p : Char → Bool} (hp : p 'a' = true ∨ p 'r' = false)
    (hle : ((w ++ x).takeWhile p).length ≤ w.length) :
    (w ++ y).takeWhile p = (w ++ x).takeWhile p := by
  obtain ⟨s, t, rfl, rfl⟩ := h.heads
  cases ha : p 'a' with
  | true =>
    refine takeWhile_append_of_lt _ (lt_of_le_of_ne hle fun heq => ?_)
    have := head_of_takeWhile heq
    simp [ha] at this
  | false =>
    have hr : p 'r' = false := hp.resolve_left (by simp [ha])
    rw [takeWhile_append_of_head w (by simpa using hr), takeWhile_append_of_head w (by simpa using ha)]

/-! ## Numbers -/

theorem decimal_eq (h : Renames x y) (w : List Char) :
    digitsLength.decimal (w ++ y) = digitsLength.decimal (w ++ x) := by
  obtain ⟨s, t, rfl, rfl⟩ := h.heads
  rw [decimal_append_closing ⟨by decide, by decide⟩, decimal_append_closing ⟨by decide, by decide⟩]

theorem digitsLength_eq (h : Renames x y) (hle : (digitsLength (w ++ x)).1 ≤ w.length) :
    digitsLength (w ++ y) = digitsLength (w ++ x) := by
  have hdecimal := h.decimal_eq w
  cases w with
  | nil =>
    obtain ⟨s, t, rfl, rfl⟩ := h.heads
    simpa [digitsLength_cons] using hdecimal
  | cons c w =>
    rw [List.cons_append] at hdecimal hle ⊢
    rw [List.cons_append, digitsLength_cons, digitsLength_cons, hdecimal,
      h.head_any w (by decide)]
    rw [digitsLength_cons] at hle
    split
    · rename_i hhex
      rw [if_pos hhex] at hle
      cases w with
      | nil =>
        obtain ⟨s, t, rfl, rfl⟩ := h.heads
        simp at hhex
      | cons e w =>
        simp only [List.cons_append, List.tail_cons, List.length_cons] at hle ⊢
        rw [h.takeWhile_eq (.inl (by decide)) (by omega)]
    · rfl

theorem numberLength_eq (h : Renames x y) (hle : (numberLength (w ++ x)).1 ≤ w.length) :
    numberLength (w ++ y) = numberLength (w ++ x) := by
  simp only [numberLength] at hle ⊢
  have hdigits : (digitsLength (w ++ x)).1 ≤ w.length := by omega
  have hdrop (z : List Char) : (w ++ z).drop (digitsLength (w ++ x)).1 =
      w.drop (digitsLength (w ++ x)).1 ++ z := List.drop_append_of_le_length hdigits
  rw [hdrop] at hle
  have hrun := h.takeWhile_eq (p := Char.isAlphanum) (w := w.drop (digitsLength (w ++ x)).1)
    (.inl (by decide)) (by rw [List.length_drop]; omega)
  rw [h.digitsLength_eq hdigits, hdrop, hdrop, hrun]

/-! ## Words -/

/-- A word that goes on beyond its first character with one of the keywords is no keyword. -/
theorem ofKeyword?_eq_none {c : Char} {v : List Char}
    (h : agendaPart <:+: v ∨ ruleflowPart <:+: v) : Kind.ofKeyword? (c :: v) = none := by
  have hall : ∀ p ∈ Kind.keywordTable,
      ¬ (agendaPart <:+: p.1.tail ∨ ruleflowPart <:+: p.1.tail) := by
    decide +kernel
  cases hk : Kind.ofKeyword? (c :: v) with
  | none => rfl
  | some k => exact absurd h (hall _ (mem_of_lookup hk))

/-- A word ends at the same places before the keyword, and at none inside its first part. -/
theorem joinedLengths_eq (h : Renames x y) (n : Nat) (w : List Char) : ∃ ends more more',
    joinedLengths n (w ++ x) = ends ++ more ∧ joinedLengths n (w ++ y) = ends ++ more' ∧
      (∀ m ∈ ends, m ≤ n + w.length) ∧ (∀ m ∈ more, n + w.length + 6 ≤ m) ∧
        ∀ m ∈ more', n + w.length + 8 ≤ m := by
  induction w generalizing n with
  | nil =>
    obtain ⟨a, b, rfl, rfl⟩ := h
    exact ⟨[], joinedLengths (n + 6) (groupPart ++ a), joinedLengths (n + 8) (groupPart ++ b),
      joinedLengths_append n _ (List.all_eq_true.1 (by decide)),
      joinedLengths_append n _ (List.all_eq_true.1 (by decide)), by simp,
      fun m hm => (mem_joinedLengths_le hm).1, fun m hm => (mem_joinedLengths_le hm).1⟩
  | cons c w ih =>
    obtain ⟨ends, more, more', hx, hy, hends, hmore, hmore'⟩ := ih (n + 1)
    simp only [List.cons_append, joinedLengths, h.head_any w (q := isAlphabetic) (by decide),
      List.length_cons]
    have hsmall : ∀ m ∈ ends, m ≤ n + (w.length + 1) := fun m hm => by
      have := hends m hm
      omega
    have hlarge : (∀ m ∈ more, n + (w.length + 1) + 6 ≤ m) ∧
        ∀ m ∈ more', n + (w.length + 1) + 8 ≤ m :=
      ⟨fun m hm => by have := hmore m hm; omega, fun m hm => by have := hmore' m hm; omega⟩
    split
    · exact ⟨ends, more, more', hx, hy, hsmall, hlarge⟩
    split
    · refine ⟨n :: ends, more, more', by rw [hx]; rfl, by rw [hy]; rfl, ?_, hlarge⟩
      exact List.forall_mem_cons.2 ⟨by omega, hsmall⟩
    · exact ⟨[n], [], [], rfl, rfl, by simp, by simp, by simp⟩

/-- A word that ends before the keyword: no word that reaches into the keyword is one itself. -/
theorem wordLength_eq (h : Renames x y) (hw : w ≠ []) (hle : (wordLength (w ++ x)).1 ≤ w.length) :
    wordLength (w ++ y) = wordLength (w ++ x) := by
  obtain ⟨ends, more, more', hx, hy, hends, hmore, hmore'⟩ := h.joinedLengths_eq 0 w
  rw [Nat.zero_add] at hends hmore hmore'
  have hplain : plainWordLength (w ++ y) = plainWordLength (w ++ x) :=
    congrArg List.length
      (h.takeWhile_eq (.inl (by decide)) ((plainWordLength_le_wordLength _).trans hle))
  obtain ⟨c, v, rfl⟩ := List.exists_cons_of_ne_nil hw
  obtain ⟨a, b, rfl, rfl⟩ := h
  have hnone (part rest : List Char) {m : Nat} (hm : (c :: v).length + part.length ≤ m)
      (hpart : part = agendaPart ∨ part = ruleflowPart) :
      Kind.ofKeyword? ((c :: v ++ (part ++ rest)).take m) = none := by
    obtain ⟨m, rfl⟩ := Nat.exists_eq_add_of_le hm
    rw [← List.append_assoc, ← List.length_append, List.take_length_add_append, List.cons_append,
      List.cons_append]
    exact ofKeyword?_eq_none (hpart.imp (fun h => ⟨v, rest.take m, by rw [h]⟩)
      fun h => ⟨v, rest.take m, by rw [h]⟩)
  have hmore : (more.reverse.findSome? fun n =>
      (Kind.ofKeyword? ((c :: v ++ (agendaPart ++ (groupPart ++ a))).take n)).map (n, ·)) = none :=
    List.findSome?_eq_none_iff.2 fun m hm => by
      rw [hnone _ _ (hmore m (List.mem_reverse.1 hm)) (.inl rfl)]
      rfl
  have hmore' : (more'.reverse.findSome? fun n =>
      (Kind.ofKeyword? ((c :: v ++ (ruleflowPart ++ (groupPart ++ b))).take n)).map (n, ·)) = none :=
    List.findSome?_eq_none_iff.2 fun m hm => by
      rw [hnone _ _ (hmore' m (List.mem_reverse.1 hm)) (.inr rfl)]
      rfl
  have hsame : (ends.reverse.findSome? fun n =>
      (Kind.ofKeyword? ((c :: v ++ (ruleflowPart ++ (groupPart ++ b))).take n)).map (n, ·)) =
      ends.reverse.findSome? fun n =>
        (Kind.ofKeyword? ((c :: v ++ (agendaPart ++ (groupPart ++ a))).take n)).map (n, ·) := by
    refine Alike.findSome?_congr_mem fun m hm => ?_
    have hm := hends m (List.mem_reverse.1 hm)
    rw [List.take_append_of_le_length hm, List.take_append_of_le_length hm]
  simp only [wordLength, hx, hy, List.reverse_append, List.findSome?_append, hmore, hmore', hsame,
    hplain, Option.none_or]

/-! ## Comments, literals and punctuation -/

theorem blockCommentLength_eq (h : Renames x y) {c : Char} (hw : w ≠ [])
    (hle : (blockCommentLength (c :: (w ++ x))).1 ≤ w.length + 1) :
    blockCommentLength (c :: (w ++ y)) = blockCommentLength (c :: (w ++ x)) := by
  cases hx : blockCommentLength (c :: (w ++ x)) with
  | mk n closed =>
    rw [hx] at hle
    cases closed with
    | true => exact blockCommentLength_append y hw hx hle
    | false =>
      obtain ⟨s, t, rfl, rfl⟩ := h.heads
      have := length_of_open hx
      simp only [List.length_cons, List.length_append] at this hle
      omega

theorem slash_eq (h : Renames x y) (hle : (slash ('/' :: (w ++ x))).length ≤ w.length + 1) :
    slash ('/' :: (w ++ y)) = slash ('/' :: (w ++ x)) := by
  simp only [slash, startsLineComment_cons, startsBlockComment_cons, List.tail_cons,
    h.head_eq w (d := '/') (by decide), h.head_eq w (d := '*') (by decide),
    h.head_eq w (d := '=') (by decide)] at hle ⊢
  by_cases hline : ('/' == '/' && (w ++ x).head? == some '/') = true
  · rw [if_pos hline] at hle
    have hrun := h.takeWhile_eq (p := fun c => !isLineBreak c) (w := '/' :: w) (.inl (by decide)) hle
    rw [List.cons_append, List.cons_append] at hrun
    rw [if_pos hline, if_pos hline, lineCommentLength, lineCommentLength, hrun]
  · rw [if_neg hline] at hle
    rw [if_neg hline, if_neg hline]
    by_cases hblock : ('/' == '/' && (w ++ x).head? == some '*') = true
    · have hne : w ≠ [] := by
        rintro rfl
        obtain ⟨s, t, rfl, rfl⟩ := h.heads
        simp at hblock
      rw [if_pos hblock] at hle
      rw [if_pos hblock, if_pos hblock, h.blockCommentLength_eq hne hle]
    · rw [if_neg hblock, if_neg hblock]
      rfl

/-- A literal that stays open reaches to the end of its line. -/
theorem head_of_open {quote : Char} {text : List Char} (h : (stringRest quote text).2 = false) :
    (text.drop (stringRest quote text).1).head?.all isLineBreak = true := by
  fun_induction stringRest quote text with
  | case1 | case2 => rfl
  | case3 e cs he => simpa using he
  | case4 e cs he n closed heq ih =>
    rw [heq] at ih
    exact ih h
  | case5 c cs hlone hesc hc => simpa using hc
  | case6 => cases h
  | case7 c cs hlone hesc hc hq n closed heq ih =>
    rw [heq] at ih
    exact ih h

theorem string_eq (h : Renames x y) {quote : Char}
    (hle : (string quote (w ++ x)).length ≤ w.length + 1) :
    string quote (w ++ y) = string quote (w ++ x) := by
  have hle : (stringRest quote (w ++ x)).1 ≤ w.length := Nat.le_of_succ_le_succ hle
  have hends : (stringRest quote (w ++ x)).1 < w.length ∨
      (stringRest quote (w ++ x)).1 ≤ w.length ∧ (stringRest quote (w ++ x)).2 = true := by
    refine hle.lt_or_eq.imp_right fun heq => ⟨hle, ?_⟩
    by_contra hopen
    have := head_of_open (Bool.eq_false_iff.2 hopen)
    rw [heq, List.drop_left] at this
    obtain ⟨s, t, rfl, rfl⟩ := h.heads
    exact absurd this (by simp; decide)
  rw [string, stringLength, stringRest_append y hends, string, stringLength]

theorem punctuation?_eq (h : Renames x y) {c : Char} (w : List Char) :
    punctuation? (c :: (w ++ y)) = punctuation? (c :: (w ++ x)) := by
  have hdouble : double? (c :: (w ++ y)) = double? (c :: (w ++ x)) := by
    cases w with
    | nil =>
      have hsecond : ∀ p ∈ doublePunctuation, p.1.2 ≠ 'a' ∧ p.1.2 ≠ 'r' := by decide
      have hlookup {d : Char} (hd : d = 'a' ∨ d = 'r') :
          doublePunctuation.lookup (c, d) = none := by
        cases hk : doublePunctuation.lookup (c, d) with
        | none => rfl
        | some k =>
          have := hsecond _ (mem_of_lookup hk)
          exact (hd.elim this.1 this.2).elim
      obtain ⟨s, t, rfl, rfl⟩ := h.heads
      rw [List.nil_append, List.nil_append, double?_cons, double?_cons, hlookup (.inl rfl),
        hlookup (.inr rfl)]
      simp
    | cons d w =>
      rw [List.cons_append, List.cons_append, double?_cons, double?_cons,
        h.head_any w (q := isWordStart) (by decide)]
  rw [punctuation?_cons, punctuation?_cons, hdouble]

/-- The lexeme before the keyword, outside consequences. -/
theorem normal_eq (h : Renames x y) {c : Char} (hle : (normal c (w ++ x)).length ≤ w.length + 1) :
    normal c (w ++ y) = normal c (w ++ x) := by
  simp only [normal] at hle ⊢
  by_cases hbreak : isLineBreak c = true
  · simp only [hbreak, if_true, newlineLength_cons, h.head_eq w (d := '\n') (by decide)]
  by_cases hblank : isBlank c = true
  · simp only [hbreak, hblank, Bool.false_eq_true, if_true, if_false] at hle ⊢
    have hrun := h.takeWhile_eq (p := isInlineBlank) (w := c :: w) (.inr (by decide)) hle
    rw [List.cons_append, List.cons_append] at hrun
    rw [blankLength, blankLength, hrun]
  by_cases hslash : (c == '/') = true
  · simp only [hbreak, hblank, hslash, Bool.false_eq_true, if_true, if_false] at hle ⊢
    obtain rfl := beq_iff_eq.1 hslash
    exact h.slash_eq hle
  by_cases hquote : (c == '"' || c == '\x27') = true
  · simp only [hbreak, hblank, hslash, hquote, Bool.false_eq_true, if_true, if_false] at hle ⊢
    exact h.string_eq hle
  by_cases hdigit : c.isDigit = true
  · simp only [hbreak, hblank, hslash, hquote, hdigit, Bool.false_eq_true, if_true, if_false]
      at hle ⊢
    rw [← List.cons_append, h.numberLength_eq hle, List.cons_append]
  by_cases hstart : isWordStart c = true
  · simp only [hbreak, hblank, hslash, hquote, hdigit, hstart, Bool.false_eq_true, if_true,
      if_false] at hle ⊢
    rw [← List.cons_append, h.wordLength_eq (List.cons_ne_nil c w) hle, List.cons_append]
  · simp only [hbreak, hblank, hslash, hquote, hdigit, hstart, Bool.false_eq_true, if_false]
    rw [h.punctuation?_eq w]

/-! ## Consequences -/

/-- After a word the keywords cannot be told apart. -/
theorem sameAfter (h : Renames x y) (hword : (w ++ x).head?.any isWordPart = false) :
    SameAfter (w ++ x) (w ++ y) := by
  refine ⟨hword, (h.head_any w (by decide)).trans hword, usesAsName_append w ?_⟩
  obtain ⟨s, t, rfl, rfl⟩ := h.heads
  rfl

/-- The keyword does not stand in the blanks before the closing `end`, nor in the word itself. -/
theorem exists_of_blanks (h : Renames x y) {blanks after : List Char}
    (hblanks : ∀ c ∈ blanks, isBlank c = true)
    (hx : w ++ x = blanks ++ ['e', 'n', 'd'] ++ after) :
    ∃ v, w = blanks ++ ['e', 'n', 'd'] ++ v ∧ after = v ++ x := by
  obtain ⟨s, t, rfl, rfl⟩ := h.heads
  rcases List.append_eq_append_iff.1 hx with ⟨v, hw, hv⟩ | ⟨v, hw, hv⟩
  · -- the first letter of the keyword stands before the end of the word
    cases v with
    | nil => exact ⟨[], by simpa using hw.symm, by simpa using hv.symm⟩
    | cons d v =>
      obtain rfl : 'a' = d := (List.cons.inj hv).1
      have hmem : 'a' ∈ blanks ++ ['e', 'n', 'd'] := hw ▸ by simp
      rcases List.mem_append.1 hmem with hmem | hmem
      · exact absurd (hblanks _ hmem) (by decide)
      · exact absurd hmem (by decide)
  · exact ⟨v, hw, hv⟩

/-- A consequence that ends before the keyword. -/
theorem actionLength_eq (h : Renames x y) (hle : actionLength (w ++ x) ≤ w.length) :
    actionLength (w ++ y) = actionLength (w ++ x) := by
  obtain ⟨u, v, rfl, hu⟩ : ∃ u v, w = u ++ v ∧ actionLength (w ++ x) = u.length :=
    ⟨w.take (actionLength (w ++ x)), w.drop (actionLength (w ++ x)),
      (List.take_append_drop _ w).symm, by rw [List.length_take, Nat.min_eq_left hle]⟩
  rw [List.append_assoc] at hu
  rw [List.append_assoc, List.append_assoc, hu]
  obtain ⟨blanks, hblanks, htrim, hx | ⟨after, hx, hword, hend⟩⟩ := follows_action hu
  · obtain ⟨s, t, rfl, rfl⟩ := h.heads
    exact absurd (hblanks 'a' (hx ▸ by simp)) (by decide)
  · obtain ⟨z, rfl, rfl⟩ := h.exists_of_blanks hblanks hx
    have hsplit (r : List Char) : u ++ (blanks ++ ['e', 'n', 'd'] ++ z ++ r) =
        (u ++ blanks ++ ['e', 'n', 'd']) ++ (z ++ r) := by simp
    rw [hsplit, consequenceLength?] at hend
    have hfind := findEnd_append (n := (u ++ blanks).length) (h.sameAfter hword)
      (by rwa [Nat.zero_add]) (List.length_append)
    rw [hsplit, actionLength, consequenceLength?, hfind, Option.getD_some,
      Nat.zero_add, List.append_assoc, List.take_left, htrim]

/-- The `end` that closes a consequence at once, before the keyword. -/
theorem actionLength_eq_zero (h : Renames x y) {c : Char} (hc : isBlank c = false)
    (hx : actionLength (c :: (w ++ x)) = 0) : actionLength (c :: (w ++ y)) = 0 := by
  rw [actionLength_eq_zero_iff hc] at hx ⊢
  obtain ⟨after, htext, hword, -⟩ := of_closesHere hx
  obtain ⟨v, hw, rfl⟩ := @exists_of_blanks (c :: w) x y h [] after (by simp) htext
  rw [List.nil_append] at hw
  have hsplit (z : List Char) : c :: (w ++ z) = ['e', 'n', 'd'] ++ (v ++ z) := by
    rw [← List.cons_append, hw, List.append_assoc]
  rw [hsplit] at hx ⊢
  exact (closesHere_append .initial (by simp) (h.sameAfter hword)).trans hx

/-- The lexeme before the keyword, and the mode after it. -/
theorem next_eq (h : Renames x y) {mode : Mode} {c : Char}
    (hle : (next mode c (w ++ x)).1.length ≤ w.length + 1) :
    next mode c (w ++ y) = next mode c (w ++ x) := by
  have htrivia : startsTrivia (c :: (w ++ y)) = startsTrivia (c :: (w ++ x)) := by
    simp only [startsTrivia, startsLineComment_cons, startsBlockComment_cons, List.head?_cons,
      h.head_eq w (d := '/') (by decide), h.head_eq w (d := '*') (by decide)]
  simp only [next, htrivia] at hle ⊢
  by_cases hstarts : (mode == .consequence && startsTrivia (c :: (w ++ x))) = true
  · rw [if_pos hstarts] at hle
    rw [if_pos hstarts, if_pos hstarts, h.normal_eq hle]
  rw [if_neg hstarts] at hle
  rw [if_neg hstarts, if_neg hstarts]
  by_cases haction : (mode == .consequence && decide (0 < actionLength (c :: (w ++ x)))) = true
  · rw [if_pos haction] at hle
    have heq : actionLength (c :: (w ++ y)) = actionLength (c :: (w ++ x)) :=
      @actionLength_eq (c :: w) x y h hle
    rw [heq, if_pos haction, if_pos haction]
  · rw [if_neg haction] at hle
    rw [if_neg haction, if_neg, h.normal_eq hle]
    rw [Bool.and_eq_true_iff, not_and, decide_eq_true_eq, Nat.not_lt, Nat.le_zero] at haction ⊢
    intro hmode
    refine h.actionLength_eq_zero ?_ (haction hmode)
    rw [hmode, Bool.true_and, Bool.not_eq_true] at hstarts
    simpa [startsTrivia] using (Bool.or_eq_false_iff.1 (Bool.or_eq_false_iff.1 hstarts).1).1

end Renames

/-! ## The keyword itself -/

variable {c : Char} {rest x : List Char}

/-- The lexeme of a keyword is a word. -/
theorem word_of_isKeyword (h : (normal c rest).kind.isKeyword = true) :
    normal c rest = ⟨(wordLength (c :: rest)).2, (wordLength (c :: rest)).1, none⟩ := by
  refine normal_cases (P := fun l => l.kind.isKeyword = true → l = _) c rest
    (fun _ h => ?_) (fun _ h => ?_) (fun _ h => ?_) (fun _ h => ?_) (fun _ h => ?_)
    (fun _ _ => rfl) (fun k n hp h => ?_) (fun h => ?_) h
  · cases h
  · cases h
  · rcases kind_slash (c :: rest) with hk | hk | hk | hk <;> rw [hk] at h <;> cases h
  · cases h
  · rcases kind_number (c :: rest) with hk | hk <;> rw [hk] at h <;> cases h
  · rw [isKeyword_punctuation hp] at h
    cases h
  · cases h

/-- A word of the kind of a keyword is spelled like it. -/
theorem ofKeyword?_of_wordLength {text : List Char} (h : (wordLength text).2.isKeyword = true) :
    Kind.ofKeyword? (text.take (wordLength text).1) = some (wordLength text).2 := by
  unfold wordLength at h ⊢
  dsimp only at h ⊢
  cases hfind : (joinedLengths 0 text).reverse.findSome? fun n =>
      (Kind.ofKeyword? (text.take n)).map fun k => (n, k) with
  | none =>
    rw [hfind] at h
    cases h
  | some found =>
    obtain ⟨n, -, hn⟩ := List.exists_of_findSome?_eq_some hfind
    obtain ⟨k, hk, rfl⟩ := Option.map_eq_some_iff.1 hn
    exact hk

/-- The old keyword is read outside consequences, and no part of a word comes after it. -/
theorem of_next_old {mode mode' : Mode} {l : Lexeme} (h : next mode c rest = (l, mode'))
    (hl : l.kind = .agendaGroupKw) :
    mode = .normal ∧ mode' = .normal ∧ ∃ x, c :: rest = agendaPart ++ (groupPart ++ x) ∧
      l.length = (agendaPart ++ groupPart).length ∧ x.head?.any isWordPart = false := by
  have hnormal := normal_of_next (by simp [hl]) h
  have hword := @word_of_isKeyword c rest (by rw [hnormal, hl]; rfl)
  have hkind : (wordLength (c :: rest)).2 = .agendaGroupKw := by
    rw [← hl, ← hnormal, hword]
  have hlength : l.length = (wordLength (c :: rest)).1 := by rw [← hnormal, hword]
  have hspelled := @ofKeyword?_of_wordLength (c :: rest) (by rw [hkind]; rfl)
  have htable : ∀ p ∈ Kind.keywordTable, p.2 = .agendaGroupKw → p.1 = agendaPart ++ groupPart := by
    decide +kernel
  have htake := htable _ (mem_of_lookup hspelled) hkind
  have hle := wordLength_le (c :: rest)
  have hhead := head_of_wordLength (c :: rest)
  have htext : c :: rest =
      agendaPart ++ (groupPart ++ (c :: rest).drop (wordLength (c :: rest)).1) := by
    rw [← List.append_assoc, ← htake, List.take_append_drop]
  have hc : c = 'a' := (List.cons.inj htext).1
  obtain ⟨hmode, hmode', -⟩ := next_cases_of (by rw [hc]; decide) (by simp [hl]) h
  refine ⟨hmode, by rw [hmode', hl]; rfl, _, htext, ?_, hhead⟩
  rw [hlength, ← htake, List.length_take, Nat.min_eq_left hle]

/-- The new keyword is read where no part of a word comes after it. -/
theorem next_new (hx : x.head?.any isWordPart = false)
    (htext : c :: rest = ruleflowPart ++ (groupPart ++ x)) :
    next .normal c rest =
      (⟨.ruleflowGroupKw, (ruleflowPart ++ groupPart).length, none⟩, .normal) := by
  have hword : wordLength (ruleflowPart ++ groupPart ++ x) =
      ((ruleflowPart ++ groupPart).length, .ruleflowGroupKw) :=
    @wordLength_of_joined _ x _ [8] rfl (by decide +kernel) (by decide +kernel) hx
  have hc : c = 'r' := (List.cons.inj htext).1
  rw [← List.append_assoc] at htext
  rw [next_normal, normal_of_startsWord (by rw [hc]; decide), htext, hword]
  rfl

end Lexeme

open Lexeme

/-! ## Tokens -/

/-- A token of the old keyword gives way to one of the new keyword, or the token stays. -/
def Leaf.Renamed (l l' : Leaf) : Prop :=
  l' = l ∨ l = ⟨.agendaGroupKw, agendaPart ++ groupPart⟩ ∧
    l' = ⟨.ruleflowGroupKw, ruleflowPart ++ groupPart⟩

/-- Renaming changes nothing of a text, or nothing before the first keyword that is renamed. -/
theorem textOf_renamed {ls ls' : List Leaf} (h : List.Forall₂ Leaf.Renamed ls ls') :
    textOf ls' = textOf ls ∨
      ∃ w x y, textOf ls = w ++ x ∧ textOf ls' = w ++ y ∧ Renames x y := by
  induction h with
  | nil => exact .inl rfl
  | @cons l l' ls ls' hl _ ih =>
    rw [textOf_cons, textOf_cons]
    rcases hl with rfl | ⟨rfl, rfl⟩
    · rcases ih with ih | ⟨w, x, y, hx, hy, h⟩
      · exact .inl (by rw [ih])
      · exact .inr ⟨l'.text ++ w, x, y, by rw [hx, List.append_assoc],
          by rw [hy, List.append_assoc], h⟩
    · exact .inr ⟨[], _, _, rfl, rfl, textOf ls, textOf ls', rfl, rfl⟩

/-- The tokens of a text with some keywords renamed are read where the old ones were. -/
theorem scan_renamed {ls ls' : List Leaf} (h : List.Forall₂ Leaf.Renamed ls ls') {mode : Mode}
    {p q : Position}
    (hls : (scan mode p 0 (textOf ls)).map Scanned.leaf = ls ++ [⟨.eof, []⟩]) :
    (scan mode q 0 (textOf ls')).map Scanned.leaf = ls' ++ [⟨.eof, []⟩] := by
  induction h generalizing mode p q with
  | nil => rfl
  | @cons l l' ls ls' hl hrenamed ih =>
    obtain ⟨c, rest, fault, mode', htext, hnext, hls⟩ := exists_next_of_scan hls
    rcases hl with rfl | ⟨rfl, rfl⟩
    · have hsame : next mode c (rest ++ textOf ls') = next mode c (rest ++ textOf ls) := by
        rcases textOf_renamed hrenamed with heq | ⟨w, x, y, hx, hy, h⟩
        · rw [heq]
        · rw [hx, ← List.append_assoc] at hnext
          rw [hx, hy, ← List.append_assoc, ← List.append_assoc]
          refine h.next_eq ?_
          rw [hnext, htext]
          simp
      rw [scan_textOf_cons htext (hsame.trans hnext), List.map_cons, ih hls]
      rfl
    · obtain ⟨rfl, rfl, x, hx, -, hword⟩ := of_next_old hnext rfl
      have hrest : textOf ls = x := by
        have : c :: rest ++ textOf ls = agendaPart ++ groupPart ++ x :=
          hx.trans (List.append_assoc _ _ _).symm
        rw [← htext] at this
        exact List.append_cancel_left this
      have hword' : (textOf ls').head?.any isWordPart = false := by
        rw [← hrest] at hword
        rcases textOf_renamed hrenamed with heq | ⟨w, x, y, hx, hy, h⟩
        · rwa [heq]
        · rwa [hy, h.head_any w (by decide), ← hx]
      have hnew : next .normal 'r' (ruleflowPart.tail ++ groupPart ++ textOf ls') =
          (⟨.ruleflowGroupKw, (ruleflowPart ++ groupPart).length, none⟩, .normal) :=
        next_new hword' rfl
      have htext' : (⟨.ruleflowGroupKw, ruleflowPart ++ groupPart⟩ : Leaf).text =
          'r' :: (ruleflowPart.tail ++ groupPart) := rfl
      rw [scan_textOf_cons htext' hnew, List.map_cons, ih hls]
      rfl

/-- A token of the kind of the old keyword is spelled like it. -/
theorem text_of_scan {mode : Mode} {p : Position} {ls : List Leaf}
    (hls : (scan mode p 0 (textOf ls)).map Scanned.leaf = ls ++ [⟨.eof, []⟩]) :
    ∀ l ∈ ls, l.kind = .agendaGroupKw → l.text = agendaPart ++ groupPart := by
  induction ls generalizing mode p with
  | nil => exact fun _ hl => absurd hl List.not_mem_nil
  | cons l ls ih =>
    obtain ⟨c, rest, fault, mode', htext, hnext, hls⟩ := exists_next_of_scan hls
    refine List.forall_mem_cons.2 ⟨fun hl => ?_, ih hls⟩
    obtain ⟨-, -, x, hx, hlength, -⟩ := of_next_old hnext hl
    rw [← List.cons_append, ← htext, ← List.append_assoc] at hx
    exact (List.append_inj hx hlength).1

theorem text_of_lex {ls : List Leaf}
    (hls : (lex (textOf ls)).tokens.map Token.leaf = ls ++ [⟨.eof, []⟩]) :
    ∀ l ∈ ls, l.kind = .agendaGroupKw → l.text = agendaPart ++ groupPart := by
  simp only [lex, Lexed.ofScanned, List.map_map] at hls
  exact text_of_scan hls

/-- The tokens of a text with some keywords renamed are those that were there, with these keywords
renamed. -/
theorem lex_renamed {ls ls' : List Leaf} (h : List.Forall₂ Leaf.Renamed ls ls')
    (hls : (lex (textOf ls)).tokens.map Token.leaf = ls ++ [⟨.eof, []⟩]) :
    (lex (textOf ls')).tokens.map Token.leaf = ls' ++ [⟨.eof, []⟩] := by
  simp only [lex, Lexed.ofScanned, List.map_map] at hls ⊢
  exact scan_renamed h hls

end RuleLang
