import RuleLang.Proofs.Lexeme.Prefix

/-!
# Lexemes before a mark or a blank

The characters `#` and ` ` and line breaks go on with no lexeme but a line comment, another `#` and
other blanks. So the lexeme of a text is the same if a mark `##` or a blank comes after the text. A
word ends before most other characters too.

## Main definitions

* `Closing` — a character before which lexemes end.
* `ClosesWord`, `ClosesNumber`, `ClosesDigits` — a character before which words, numbers and the
  digits of a number end.

## Main statements

* `normal_append_closing` — the lexeme that opens a text, outside consequences.
* `next_append_mark` — the lexeme that opens a text, and the mode after it, before a mark.
* `next_mark` — the mark itself.
* `next_ident` — an identifier is read outside consequences.
-/

namespace RuleLang.Lexeme

open Text
open SameLine (fractionLength_of_ne digitsLength_cons joinedLengths_cons)

def closings : List Char :=
  ['#', ' ', '\n']

/-- A character before which lexemes end. -/
def Closing (d : Char) : Prop :=
  d ∈ closings

theorem closing_mark : Closing '#' := by
  simp [Closing, closings]

theorem closing_blank : Closing ' ' := by
  simp [Closing, closings]

theorem closing_newline : Closing '\n' := by
  simp [Closing, closings]

variable {d : Char} {text z : List Char}

theorem Closing.eq_false (hd : Closing d) {p : Char → Bool} (hp : closings.any p = false) :
    p d = false := by
  simpa using List.any_eq_false.1 hp d hd

theorem Closing.ne (hd : Closing d) {e : Char} (he : e ∉ closings) : e ≠ d :=
  fun h => he (h ▸ hd)

/-- A character before which words end. -/
def ClosesWord (d : Char) : Prop :=
  isWordPart d = false ∧ d ≠ '-'

/-- A character before which numbers end. -/
def ClosesNumber (d : Char) : Prop :=
  ClosesWord d ∧ d ≠ '.' ∧ d ≠ '+'

theorem Closing.closesWord (hd : Closing d) : ClosesWord d :=
  ⟨hd.eq_false (by decide), (hd.ne (by decide)).symm⟩

theorem Closing.closesNumber (hd : Closing d) : ClosesNumber d :=
  ⟨hd.closesWord, (hd.ne (by decide)).symm, (hd.ne (by decide)).symm⟩

/-- A character before which digits, fractions and exponents end. -/
def ClosesDigits (d : Char) : Prop :=
  d.isDigit = false ∧ d ∉ ['_', '.', 'e', 'E', '+', '-']

/-! ## Numbers -/

/-- No character that may stand in a word. -/
theorem ClosesNumber.eq_false (hd : ClosesNumber d) {p : Char → Bool}
    (hp : ∀ c, p c = true → isWordPart c = true) : p d = false := by
  cases h : p d with
  | false => rfl
  | true => exact absurd (hp d h) (by simp [hd.1.1])

theorem ClosesNumber.ne (hd : ClosesNumber d) {e : Char} (he : isWordPart e = true) : d ≠ e := by
  rintro rfl
  rw [hd.1.1] at he
  cases he

theorem ClosesNumber.closesDigits (hd : ClosesNumber d) : ClosesDigits d := by
  refine ⟨hd.eq_false fun _ => isWordPart_of_isDigit, ?_⟩
  simp [hd.ne (e := '_') (by decide), hd.ne (e := 'e') (by decide), hd.ne (e := 'E') (by decide),
    hd.1.2, hd.2.1, hd.2.2]

theorem ClosesDigits.ne (hd : ClosesDigits d) {e : Char}
    (he : e ∈ ['_', '.', 'e', 'E', '+', '-']) : d ≠ e :=
  fun h => hd.2 (h ▸ he)

theorem digits_append_closing (hd : ClosesDigits d) (text z : List Char) :
    (text ++ d :: z).takeWhile Char.isDigit = text.takeWhile Char.isDigit :=
  takeWhile_append_of_head text (by simpa using hd.1)

theorem drop_append_closing {n : Nat} (h : n ≤ text.length) (d : Char) (z : List Char) :
    (text ++ d :: z).drop n = text.drop n ++ d :: z :=
  List.drop_append_of_le_length h

theorem fractionLength_append_closing (hd : ClosesDigits d) (text z : List Char) :
    fractionLength (text ++ d :: z) = fractionLength text := by
  cases text with
  | nil => exact fractionLength_of_ne (beq_false_of_ne (hd.ne (by simp))) z
  | cons c text =>
    cases hc : c == '.' with
    | true =>
      rw [beq_iff_eq.1 hc, List.cons_append]
      simp only [fractionLength, digits_append_closing hd]
    | false => rw [List.cons_append, fractionLength_of_ne hc, fractionLength_of_ne hc]

theorem exponentLength_append_closing (hd : ClosesDigits d) (text z : List Char) :
    exponentLength (text ++ d :: z) = exponentLength text := by
  have hnone : (d == 'e' || d == 'E') = false := by
    simp [hd.ne (e := 'e') (by simp), hd.ne (e := 'E') (by simp)]
  cases text with
  | nil => simp [exponentLength, hnone]
  | cons e text =>
    rw [List.cons_append]
    cases text with
    | nil =>
      have hsign : (d == '+' || d == '-') = false := by
        simp [hd.ne (e := '+') (by simp), hd.ne (e := '-') (by simp)]
      simp [exponentLength, hsign, hd.1]
    | cons s text =>
      have hsign : (if (s :: text).head? == some '+' || (s :: text).head? == some '-'
          then 1 else 0) ≤ (s :: text).length := by
        split <;> simp
      simp only [exponentLength, head?_append_of_ne_nil (List.cons_ne_nil s text),
        drop_append_closing hsign, digits_append_closing hd]

theorem decimal_append_closing (hd : ClosesDigits d) (text z : List Char) :
    digitsLength.decimal (text ++ d :: z) = digitsLength.decimal text := by
  have hwhole := length_takeWhile_le (fun c => c.isDigit || c == '_') text
  have hfraction := fractionLength_le
    (text.drop (text.takeWhile fun c => c.isDigit || c == '_').length)
  have hrun : (text ++ d :: z).takeWhile (fun c => c.isDigit || c == '_') =
      text.takeWhile fun c => c.isDigit || c == '_' :=
    takeWhile_append_of_head text
      (by simp [hd.1, hd.ne (e := '_') (by simp)])
  rw [List.length_drop] at hfraction
  simp only [digitsLength.decimal, hrun, drop_append_closing hwhole,
    fractionLength_append_closing hd]
  rw [drop_append_closing (by omega), exponentLength_append_closing hd]

theorem digitsLength_append_closing (hd : ClosesNumber d) (text z : List Char) :
    digitsLength (text ++ d :: z) = digitsLength text := by
  cases text with
  | nil =>
    have hzero : (d == '0') = false := by simp [hd.ne (e := '0') (by decide)]
    have hdecimal := decimal_append_closing hd.closesDigits [] z
    rw [List.nil_append] at hdecimal ⊢
    rw [digitsLength_cons, hdecimal]
    simp [hzero, digitsLength]
  | cons c text =>
    have hdecimal := decimal_append_closing hd.closesDigits (c :: text) z
    rw [List.cons_append] at hdecimal ⊢
    rw [digitsLength_cons, digitsLength_cons, hdecimal]
    cases text with
    | nil =>
      have hhex : (d == 'x' || d == 'X') = false := by
        simp [hd.ne (e := 'x') (by decide), hd.ne (e := 'X') (by decide)]
      simp [hhex]
    | cons e text =>
      have hrun : (text ++ d :: z).takeWhile (fun c => isHexDigit c || c == '_') =
          text.takeWhile fun c => isHexDigit c || c == '_' :=
        takeWhile_append_of_head text
          (by simp [hd.eq_false fun _ => Alike.isWordPart_of_isHexDigit,
            hd.ne (e := '_') (by decide)])
      rw [List.cons_append, List.head?_cons, List.tail_cons, List.head?_cons, List.tail_cons, hrun]

theorem numberLength_append_closing (hd : ClosesNumber d) (text z : List Char) :
    numberLength (text ++ d :: z) = numberLength text := by
  have hsuffix : (text.drop (digitsLength text).1 ++ d :: z).takeWhile Char.isAlphanum =
      (text.drop (digitsLength text).1).takeWhile Char.isAlphanum :=
    takeWhile_append_of_head _ (by simpa using hd.eq_false fun _ => isWordPart_of_isAlphanum)
  simp only [numberLength, digitsLength_append_closing hd,
    drop_append_closing (digitsLength_le text), hsuffix]

/-! ## Words -/

theorem ClosesWord.isAlphabetic_eq_false (hd : ClosesWord d) : isAlphabetic d = false := by
  cases h : isAlphabetic d with
  | false => rfl
  | true =>
    have hpart := hd.1
    rw [isWordPart, isAlphanumeric_of_isAlphabetic h] at hpart
    cases hpart

theorem joinedLengths_append_closing (hd : ClosesWord d) (n : Nat) (text z : List Char) :
    joinedLengths n (text ++ d :: z) = joinedLengths n text := by
  induction text generalizing n with
  | nil => simp [joinedLengths, hd.1, hd.2]
  | cons c text ih =>
    have hletter := hd.isAlphabetic_eq_false
    have hhead : (text ++ d :: z).head?.any isAlphabetic = text.head?.any isAlphabetic := by
      cases text with
      | nil => simpa using hletter
      | cons => rfl
    simp only [List.cons_append, joinedLengths_cons, hhead, ih]

theorem wordLength_append_closing (hd : ClosesWord d) (text z : List Char) :
    wordLength (text ++ d :: z) = wordLength text := by
  have hfind : (joinedLengths 0 text).reverse.findSome? (fun n =>
        (Kind.ofKeyword? ((text ++ d :: z).take n)).map fun k => (n, k)) =
      (joinedLengths 0 text).reverse.findSome? fun n =>
        (Kind.ofKeyword? (text.take n)).map fun k => (n, k) := by
    refine Alike.findSome?_congr_mem fun n hn => ?_
    have hle := (mem_joinedLengths_le (List.mem_reverse.1 hn)).2
    rw [List.take_append_of_le_length (by omega)]
  have hplain : (text ++ d :: z).takeWhile isWordPart = text.takeWhile isWordPart :=
    takeWhile_append_of_head text (by simpa using hd.1)
  simp only [wordLength, joinedLengths_append_closing hd, hfind, plainWordLength, hplain]

/-! ## Other lexemes -/

section

variable {c : Char} {w u : List Char} {k : Kind}

/-- The next character, if it is another one. -/
theorem head?_append_closing (w z : List Char) {e : Char} (he : e ≠ d) :
    ((w ++ d :: z).head? == some e) = (w.head? == some e) := by
  cases w with
  | nil => simpa using he.symm
  | cons => rfl

theorem double?_append_closing (hd : Closing d) (hc : c = '#' → w ≠ []) :
    double? (c :: (w ++ d :: z)) = double? (c :: w) := by
  cases w with
  | nil =>
    have hhash : ∀ p ∈ doublePunctuation, p.1.2 ∈ closings → p.1.1 = '#' := by decide
    have hdot : d ≠ '.' := (hd.ne (by decide)).symm
    rw [List.nil_append, double?_cons, if_neg (by simp [hdot])]
    cases hk : doublePunctuation.lookup (c, d) with
    | none => simp [double?]
    | some k => exact absurd rfl (hc (hhash _ (mem_of_lookup hk) hd))
  | cons e w =>
    have hstart : isWordStart d = false := hd.eq_false (by decide)
    have hhead : (w ++ d :: z).head?.any isWordStart = w.head?.any isWordStart := by
      cases w with
      | nil => simpa using hstart
      | cons => rfl
    rw [List.cons_append, double?_cons, double?_cons, hhead]

theorem punctuation?_append_closing (hd : Closing d) (hhash : k = .hash → u ≠ [])
    (h : punctuation? (c :: (w ++ u)) = some (k, w.length + 1)) :
    punctuation? (c :: (w ++ (u ++ d :: z))) = some (k, w.length + 1) := by
  rw [punctuation?_cons] at h ⊢
  rw [← List.append_assoc, double?_append_closing hd, h]
  rintro rfl hnil
  obtain ⟨rfl, rfl⟩ := List.append_eq_nil_iff.1 hnil
  have hk : k = .hash := (congrArg Prod.fst (Option.some.inj h)).symm
  exact absurd rfl (hhash hk)

theorem slash_append_closing (hd : Closing d) (hline : k = .commentLine → u ≠ [])
    (h : slash ('/' :: (w ++ u)) = ⟨k, w.length + 1, none⟩) :
    slash ('/' :: (w ++ (u ++ d :: z))) = ⟨k, w.length + 1, none⟩ := by
  have hhead (e : Char) (he : e ∉ closings) :
      ((w ++ (u ++ d :: z)).head? == some e) = ((w ++ u).head? == some e) := by
    rw [← List.append_assoc, head?_append_closing _ z (hd.ne he)]
  simp only [slash, startsLineComment_cons, startsBlockComment_cons, List.tail_cons,
    hhead '/' (by decide), hhead '*' (by decide), hhead '=' (by decide)] at h ⊢
  by_cases hcomment : ('/' == '/' && (w ++ u).head? == some '/') = true
  · rw [if_pos hcomment] at h ⊢
    have hk : Kind.commentLine = k := congrArg Lexeme.kind h
    obtain ⟨e, u, rfl⟩ := List.exists_cons_of_ne_nil (hline hk.symm)
    have hlen : (('/' :: w ++ e :: u).takeWhile fun c => !isLineBreak c).length =
        ('/' :: w).length := congrArg Lexeme.length h
    have hlt : (('/' :: w ++ e :: u ++ []).takeWhile fun c => !isLineBreak c).length <
        ('/' :: w ++ e :: u).length := by
      rw [List.append_nil, hlen]
      simp
    have hsame := takeWhile_append_of_lt (d :: z) hlt
    rw [List.append_nil] at hsame
    rw [← hk]
    refine congrArg (fun n => (⟨.commentLine, n, none⟩ : Lexeme)) ?_
    rw [lineCommentLength, ← List.append_assoc, ← List.cons_append, ← List.cons_append, hsame, hlen]
    rfl
  rw [if_neg hcomment] at h ⊢
  by_cases hblock : ('/' == '/' && (w ++ u).head? == some '*') = true
  · rw [if_pos hblock] at h ⊢
    have htwo : 2 ≤ (blockCommentLength ('/' :: (w ++ u))).1 :=
      (blockCommentLength_le ((startsBlockComment_cons _ _).trans hblock)).1
    cases hc : blockCommentLength ('/' :: (w ++ u)) with
    | mk n closed =>
      simp only [hc] at h htwo
      obtain ⟨rfl, rfl, hclosed⟩ : Kind.commentBlock = k ∧ n = w.length + 1 ∧ closed = true := by
        simpa using h
      subst hclosed
      have hne : w ≠ [] := fun hw => by
        rw [hw] at htwo
        exact absurd htwo (by decide)
      simp only [blockCommentLength_append (u ++ d :: z) hne hc le_rfl, if_true]
  · rwa [if_neg hblock] at h ⊢

/-- The lexeme that opens a text outside consequences. A line comment goes on with the character, a
blank with a blank, a line break perhaps with a line feed, and `#` makes one lexeme with another
one. -/
theorem normal_append_closing (hd : Closing d) (hline : k = .commentLine → u ≠ [])
    (hhash : k = .hash → u ≠ []) (hblanks : k = .whitespace → d = ' ' → u ≠ [])
    (hnewline : k = .newline → d = '\n' → u ≠ [])
    (h : normal c (w ++ u) = ⟨k, w.length + 1, none⟩) :
    normal c (w ++ (u ++ d :: z)) = ⟨k, w.length + 1, none⟩ := by
  have hsplit : c :: (w ++ (u ++ d :: z)) = (c :: (w ++ u)) ++ d :: z := by simp
  simp only [normal] at h ⊢
  by_cases hbreak : isLineBreak c = true
  · simp only [hbreak, if_true] at h ⊢
    have hk : Kind.newline = k := congrArg Lexeme.kind h
    have hhead : ((w ++ (u ++ d :: z)).head? == some '\n') = ((w ++ u).head? == some '\n') := by
      by_cases hlf : d = '\n'
      · rw [← List.append_assoc,
          head?_append_of_ne_nil (by simp [hnewline hk.symm hlf] : w ++ u ≠ [])]
      · rw [← List.append_assoc, head?_append_closing _ z (Ne.symm hlf)]
    rwa [newlineLength_cons, hhead, ← newlineLength_cons]
  by_cases hblank : isBlank c = true
  · simp only [hbreak, hblank, Bool.false_eq_true, if_true, if_false] at h ⊢
    have hk : Kind.whitespace = k := congrArg Lexeme.kind h
    have hlen : ((c :: (w ++ u)).takeWhile isInlineBlank).length = w.length + 1 :=
      congrArg Lexeme.length h
    have hsame : ((c :: (w ++ u)) ++ d :: z).takeWhile isInlineBlank =
        (c :: (w ++ u)).takeWhile isInlineBlank := by
      by_cases hspace : d = ' '
      · subst hspace
        have hu := List.length_pos_iff.2 (hblanks hk.symm rfl)
        have hlt : ((c :: (w ++ u) ++ []).takeWhile isInlineBlank).length <
            (c :: (w ++ u)).length := by
          rw [List.append_nil, hlen, List.length_cons, List.length_append]
          omega
        have hsame := takeWhile_append_of_lt (' ' :: z) hlt
        rwa [List.append_nil] at hsame
      · have hinline : (isInlineBlank d && d != ' ') = false :=
          hd.eq_false (p := fun d => isInlineBlank d && d != ' ') (by decide)
        exact takeWhile_append_of_head _ (by simpa [hspace] using hinline)
    rwa [blankLength, hsplit, hsame, ← blankLength]
  by_cases hslash : (c == '/') = true
  · simp only [hbreak, hblank, hslash, Bool.false_eq_true, if_true, if_false] at h ⊢
    obtain rfl := beq_iff_eq.1 hslash
    exact slash_append_closing hd hline h
  by_cases hquote : (c == '"' || c == '\x27') = true
  · simp only [hbreak, hblank, hslash, hquote, Bool.false_eq_true, if_true, if_false] at h ⊢
    exact string_of_alike _ h
  by_cases hdigit : c.isDigit = true
  · simp only [hbreak, hblank, hslash, hquote, hdigit, Bool.false_eq_true, if_true, if_false]
      at h ⊢
    rwa [hsplit, numberLength_append_closing hd.closesNumber]
  by_cases hstart : isWordStart c = true
  · simp only [hbreak, hblank, hslash, hquote, hdigit, hstart, Bool.false_eq_true, if_true,
      if_false] at h ⊢
    rwa [hsplit, wordLength_append_closing hd.closesWord]
  · simp only [hbreak, hblank, hslash, hquote, hdigit, hstart, Bool.false_eq_true, if_false]
      at h ⊢
    cases hp : punctuation? (c :: (w ++ u)) with
    | none => simp [hp] at h
    | some found =>
      obtain ⟨k', n⟩ := found
      rw [hp] at h
      obtain ⟨rfl, rfl⟩ : k' = k ∧ n = w.length + 1 := by simpa using h
      rw [punctuation?_append_closing hd hhash hp]

/-! ## Consequences -/

theorem startsTrivia_append_mark (c : Char) (w z : List Char) :
    startsTrivia (c :: (w ++ '#' :: z)) = startsTrivia (c :: w) := by
  simp only [startsTrivia, startsLineComment_cons, startsBlockComment_cons, List.head?_cons,
    head?_append_closing w z (show '/' ≠ '#' by decide),
    head?_append_closing w z (show '*' ≠ '#' by decide)]

/-- A word at the end of a text cannot be told from one before a mark. -/
theorem sameAfter_mark {after : List Char} (h : after.head?.any isWordPart = false)
    (z : List Char) : SameAfter after (after ++ '#' :: z) := by
  refine ⟨h, ?_, ?_⟩
  · cases after with
    | nil => exact (by decide : isWordPart '#' = false)
    | cons c after => exact h
  · have := usesAsName_append after (x := []) (y := '#' :: z) rfl
    rwa [List.append_nil] at this

/-- A consequence ends where it did, if the `end` that closes it comes before the mark. -/
theorem actionLength_append_mark (hu : ∃ d ∈ u, isBlank d = false)
    (h : actionLength (c :: (w ++ u)) = w.length + 1) :
    actionLength (c :: (w ++ (u ++ '#' :: z))) = w.length + 1 := by
  obtain ⟨blanks, hblanks, htrim, hends⟩ := @follows_action (c :: w) u h
  rcases hends with rfl | ⟨after, rfl, hword, hfound⟩
  · obtain ⟨d, hd, hdark⟩ := hu
    rw [hblanks d hd] at hdark
    cases hdark
  have hsplit (x : List Char) : c :: w ++ (blanks ++ ['e', 'n', 'd'] ++ x) =
      c :: w ++ blanks ++ ['e', 'n', 'd'] ++ x := by
    simp only [List.append_assoc]
  have hfind : findEnd .initial 0 0 (c :: w ++ blanks ++ ['e', 'n', 'd'] ++ after) =
      some (0 + (c :: w ++ blanks).length) := by
    rw [Nat.zero_add, ← hfound, consequenceLength?, hsplit]
  have hmarked := findEnd_append (sameAfter_mark hword z) hfind List.length_append
  rw [Nat.zero_add] at hmarked
  have htext : c :: (w ++ (blanks ++ ['e', 'n', 'd'] ++ after ++ '#' :: z)) =
      c :: w ++ blanks ++ ['e', 'n', 'd'] ++ (after ++ '#' :: z) := by simp
  rw [actionLength, htext, consequenceLength?, hmarked, Option.getD_some, List.append_assoc,
    List.take_left, htrim, List.length_cons]

/-- The closing `end` that opens a text opens it as well before a mark. -/
theorem actionLength_zero_append_mark (hc : isBlank c = false) (h : actionLength (c :: w) = 0) :
    actionLength (c :: (w ++ '#' :: z)) = 0 := by
  rw [actionLength_eq_zero_iff hc] at h ⊢
  obtain ⟨after, htext, hword, -⟩ := of_closesHere h
  have hsame := closesHere_append .initial (w := ['e', 'n', 'd']) (by simp) (sameAfter_mark hword z)
  have hsplit : c :: (w ++ '#' :: z) = ['e', 'n', 'd'] ++ (after ++ '#' :: z) := by
    rw [← List.cons_append, htext]
    rfl
  rw [htext] at h
  rw [hsplit, hsame]
  exact h

/-- The lexeme that opens a text and the mode after it, if a mark comes after the text. -/
theorem next_append_mark {mode mode' : Mode} (hline : k = .commentLine → u ≠ [])
    (hhash : k = .hash → u ≠ []) (haction : k = .actionText → ∃ d ∈ u, isBlank d = false)
    (h : next mode c (w ++ u) = (⟨k, w.length + 1, none⟩, mode')) (z : List Char) :
    next mode c (w ++ (u ++ '#' :: z)) = (⟨k, w.length + 1, none⟩, mode') := by
  have htrivia' : startsTrivia (c :: (w ++ (u ++ '#' :: z))) = startsTrivia (c :: (w ++ u)) := by
    rw [← List.append_assoc, startsTrivia_append_mark]
  rcases next_cases h with ⟨rfl, rfl, htrivia, hnormal⟩ | ⟨rfl, rfl, hlexeme⟩ |
    ⟨hmode, hmode', hnormal⟩
  · have hmarked := normal_append_closing (z := z) closing_mark hline hhash (fun _ => nofun)
      (fun _ => nofun) hnormal
    simp only [next, htrivia', htrivia, hmarked]
    rfl
  · have hstarts : startsTrivia (c :: (w ++ u)) = false := by
      by_contra htrivia
      rw [Bool.not_eq_false] at htrivia
      simp [next, htrivia] at h
    obtain rfl : k = .actionText := congrArg Lexeme.kind hlexeme
    have hlen := actionLength_append_mark (z := z) (haction rfl)
      (congrArg Lexeme.length hlexeme).symm
    simp [next, htrivia', hstarts, hlen]
  · have hmarked := normal_append_closing (z := z) closing_mark hline hhash (fun _ => nofun)
      (fun _ => nofun) hnormal
    cases mode with
    | normal => rw [next_normal, hmarked, hmode']
    | consequence =>
      obtain ⟨htrivia, hzero⟩ := hmode rfl
      have hc : isBlank c = false := by
        simp only [startsTrivia, List.head?_cons, Option.any_some, Bool.or_eq_false_iff] at htrivia
        exact htrivia.1.1
      have hzero := actionLength_zero_append_mark (z := z) hc hzero
      rw [List.append_assoc] at hzero
      simp only [next, htrivia', htrivia, hzero, hmarked, hmode']
      simp

end

/-! ## What stands around a mark -/

/-- After a line comment comes a line break. -/
theorem isLineBreak_of_commentLine {c d : Char} {w x : List Char}
    (h : normal c (w ++ d :: x) = ⟨.commentLine, w.length + 1, none⟩) : isLineBreak d = true := by
  refine normal_cases (P := fun l => l = ⟨.commentLine, w.length + 1, none⟩ → _) c (w ++ d :: x)
    (fun _ h => ?_) (fun _ h => ?_) (fun hc h => ?_) (fun _ h => ?_) (fun _ h => ?_)
    (fun _ h => ?_) (fun k n hp h => ?_) (fun h => ?_) h
  all_goals have hkind := congrArg Lexeme.kind h
  · cases hkind
  · cases hkind
  · subst hc
    unfold slash at h hkind
    split at h
    · have hlen : (('/' :: w ++ d :: x).takeWhile fun c => !isLineBreak c).length =
          ('/' :: w).length := congrArg Lexeme.length h
      simpa using head_of_takeWhile hlen
    · split at h
      · cases congrArg Lexeme.kind h
      · split at h <;> cases congrArg Lexeme.kind h
  · cases hkind
  · rcases kind_number (c :: (w ++ d :: x)) with hk | hk <;> cases hk.symm.trans hkind
  · change (wordLength (c :: (w ++ d :: x))).2 = .commentLine at hkind
    rcases kind_word (c :: (w ++ d :: x)) with hk | hk
    · cases hk.symm.trans hkind
    · rw [hkind] at hk
      cases hk
  · cases h
    exact absurd rfl (bne_iff_ne.1 (kind_of_punctuation (q := (· != .commentLine)) hp (by decide)))
  · cases hkind

/-- A lexeme that opens with a blank is trivia in either mode. -/
theorem isTrivia_of_next {mode mode' : Mode} {c : Char} {rest : List Char} {l : Lexeme}
    (hc : isBlank c = true) (h : next mode c rest = (l, mode')) : l.kind.isTrivia = true := by
  have hnormal : (next mode c rest).1 = normal c rest := by
    cases mode with
    | normal => rfl
    | consequence => simp [next, startsTrivia, hc]
  rw [h] at hnormal
  have htrivia : (normal c rest).kind.isTrivia = true := isTrivia_of_isBlank hc
  rwa [← hnormal] at htrivia

/-- Outside consequences the mark is one lexeme. -/
theorem next_mark (rest : List Char) :
    next .normal '#' ('#' :: rest) = (⟨.hashHash, 2, none⟩, .normal) := rfl

/-- An identifier is read outside consequences. -/
theorem next_ident {mode mode' : Mode} {c : Char} {rest : List Char} {n : Nat}
    {fault : Option Fault} (h : next mode c rest = (⟨.ident, n, fault⟩, mode')) :
    mode = .normal ∧ mode' = .normal := by
  rcases next_cases h with ⟨-, -, htrivia, hnormal⟩ | ⟨-, -, haction⟩ | ⟨hmode, hmode', hnormal⟩
  · have := isTrivia_of_startsTrivia htrivia
    rw [hnormal] at this
    cases this
  · cases congrArg Lexeme.kind haction
  · refine ⟨?_, hmode'⟩
    cases mode with
    | normal => rfl
    | consequence =>
      -- the closing `end` is no identifier
      obtain ⟨htrivia, hzero⟩ := hmode rfl
      have hc : isBlank c = false := by
        simp only [startsTrivia, List.head?_cons, Option.any_some, Bool.or_eq_false_iff] at htrivia
        exact htrivia.1.1
      rw [actionLength_eq_zero_iff hc] at hzero
      obtain ⟨after, htext, hword, -⟩ := of_closesHere hzero
      obtain ⟨rfl, rfl⟩ := List.cons.inj htext
      have hend : wordLength (['e', 'n', 'd'] ++ after) = (3, .endKw) :=
        wordLength_of_keyword (List.all_eq_true.1 (by decide)) (by decide +kernel)
          (by decide +kernel) hword
      rw [normal_letter (.inl rfl)] at hnormal
      have hkind : (wordLength (['e', 'n', 'd'] ++ after)).2 = .ident :=
        congrArg Lexeme.kind hnormal
      rw [hend] at hkind
      cases hkind

end RuleLang.Lexeme
