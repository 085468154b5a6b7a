import Mathlib.Data.List.Basic
import RuleLang.Proofs.Lexeme.Boundary

/-!
# Lexemes and line breaks

Apart from comments and consequences a lexeme sees no more of a text than its line. So a text that
ends with a line break falls into the same lexemes whatever comes after it.

## Main definitions

* `SameLine` — texts that are the same through a line break.

## Main statements

* `normal_append`, `next_append` — a lexeme of a text that ends with a line break.
-/

namespace RuleLang.Lexeme

open Text

/-- A test that no line break passes. -/
def InLine (p : Char → Bool) : Prop :=
  p '\n' = false ∧ p '\r' = false

theorem InLine.eq_false {p : Char → Bool} (hp : InLine p) {b : Char} (hb : isLineBreak b = true) :
    p b = false := by
  simp only [isLineBreak, Bool.or_eq_true, beq_iff_eq] at hb
  rcases hb with rfl | rfl
  · exact hp.1
  · exact hp.2

/-- Texts that are the same through a line break. -/
inductive SameLine : List Char → List Char → Prop
  | stop {b : Char} (hb : isLineBreak b = true) (x y : List Char) : SameLine (b :: x) (b :: y)
  | cons (c : Char) {x y : List Char} (h : SameLine x y) : SameLine (c :: x) (c :: y)

/-- Whatever comes after a text that ends with a line break, its first line is the same. -/
theorem SameLine.append {text : List Char} (h : text.getLast?.any isLineBreak = true)
    (more : List Char) : SameLine text (text ++ more) := by
  induction text with
  | nil => cases h
  | cons c rest ih =>
    cases rest with
    | nil => exact .stop h [] more
    | cons d rest => exact .cons c (ih (by simpa using h))

namespace SameLine

variable {x y : List Char}

theorem head?_eq (h : SameLine x y) : y.head? = x.head? := by
  cases h <;> rfl

/-- A run of characters that are no line breaks is the same. -/
theorem takeWhile_eq {p : Char → Bool} (hp : InLine p) (h : SameLine x y) :
    y.takeWhile p = x.takeWhile p ∧
      SameLine (x.drop (x.takeWhile p).length) (y.drop (x.takeWhile p).length) := by
  induction h with
  | stop hb x y => simpa [hp.eq_false hb] using .stop hb x y
  | @cons c x y h ih =>
    cases hc : p c with
    | false => simpa [hc] using .cons c h
    | true => simpa [hc] using ih

theorem digits_eq (h : SameLine x y) : y.takeWhile Char.isDigit = x.takeWhile Char.isDigit ∧
    SameLine (x.drop (x.takeWhile Char.isDigit).length)
      (y.drop (x.takeWhile Char.isDigit).length) :=
  h.takeWhile_eq ⟨rfl, rfl⟩

/-! ## Numbers -/

theorem fractionLength_of_ne {c : Char} (hc : (c == '.') = false) (text : List Char) :
    fractionLength (c :: text) = 0 := by
  unfold fractionLength
  split
  · rename_i heq
    rw [(List.cons.inj heq).1] at hc
    cases hc
  · rfl

theorem fractionLength_eq (h : SameLine x y) : fractionLength y = fractionLength x ∧
    SameLine (x.drop (fractionLength x)) (y.drop (fractionLength x)) := by
  cases h with
  | stop hb x y =>
    have hne : InLine (· == '.') := ⟨rfl, rfl⟩
    rw [fractionLength_of_ne (hne.eq_false hb), fractionLength_of_ne (hne.eq_false hb)]
    exact ⟨rfl, .stop hb x y⟩
  | @cons c x y h =>
    cases hc : c == '.' with
    | true =>
      obtain rfl := beq_iff_eq.1 hc
      obtain ⟨hdigits, hrest⟩ := h.digits_eq
      simp only [fractionLength, hdigits]
      cases hn : (x.takeWhile Char.isDigit).length with
      | zero => exact ⟨trivial, .cons '.' h⟩
      | succ n =>
        rw [hn] at hrest
        exact ⟨trivial, hrest⟩
    | false =>
      rw [fractionLength_of_ne hc, fractionLength_of_ne hc]
      exact ⟨rfl, .cons c h⟩

theorem exponentLength_of_ne {e : Char} (he : (e == 'e' || e == 'E') = false) (text : List Char) :
    exponentLength (e :: text) = 0 := by
  simp [exponentLength, he]

/-- A sign is no line break. -/
theorem drop_sign (h : SameLine x y) :
    SameLine (x.drop (if x.head? == some '+' || x.head? == some '-' then 1 else 0))
      (y.drop (if x.head? == some '+' || x.head? == some '-' then 1 else 0)) := by
  cases h with
  | stop hb x y =>
    have hsign : InLine fun b => some b == some '+' || some b == some '-' := ⟨rfl, rfl⟩
    rw [List.head?_cons, if_neg (by rw [hsign.eq_false hb]; decide)]
    exact .stop hb x y
  | cons s h =>
    split
    · exact h
    · exact .cons s h

theorem exponentLength_eq (h : SameLine x y) : exponentLength y = exponentLength x ∧
    SameLine (x.drop (exponentLength x)) (y.drop (exponentLength x)) := by
  cases h with
  | stop hb x y =>
    have hne : InLine fun b => b == 'e' || b == 'E' := ⟨rfl, rfl⟩
    rw [exponentLength_of_ne (hne.eq_false hb), exponentLength_of_ne (hne.eq_false hb)]
    exact ⟨rfl, .stop hb x y⟩
  | @cons e x y h =>
    cases he : e == 'e' || e == 'E' with
    | false =>
      rw [exponentLength_of_ne he, exponentLength_of_ne he]
      exact ⟨rfl, .cons e h⟩
    | true =>
      obtain ⟨hdigits, hrest⟩ := h.drop_sign.digits_eq
      simp only [exponentLength, he, if_true, h.head?_eq, hdigits]
      cases hn : ((x.drop (if x.head? == some '+' || x.head? == some '-' then 1 else 0)).takeWhile
          Char.isDigit).length with
      | zero => exact ⟨trivial, .cons e h⟩
      | succ n =>
        rw [hn, List.drop_drop, List.drop_drop] at hrest
        refine ⟨trivial, ?_⟩
        change SameLine (List.drop (1 + _ + (n + 1)) _) (List.drop (1 + _ + (n + 1)) _)
        rwa [Nat.add_assoc, Nat.add_comm 1]

theorem decimal_eq (h : SameLine x y) : digitsLength.decimal y = digitsLength.decimal x ∧
    SameLine (x.drop (digitsLength.decimal x).1) (y.drop (digitsLength.decimal x).1) := by
  obtain ⟨hwhole, h₁⟩ := h.takeWhile_eq (p := fun c => c.isDigit || c == '_') ⟨rfl, rfl⟩
  obtain ⟨hfraction, h₂⟩ := h₁.fractionLength_eq
  rw [List.drop_drop, List.drop_drop] at h₂
  obtain ⟨hexponent, h₃⟩ := h₂.exponentLength_eq
  rw [List.drop_drop, List.drop_drop] at h₃
  simp only [digitsLength.decimal, hwhole, hfraction, hexponent]
  exact ⟨trivial, h₃⟩

theorem digitsLength_cons (c : Char) (text : List Char) : digitsLength (c :: text) =
    if c == '0' && text.head?.any (fun d => d == 'x' || d == 'X') then
      (2 + (text.tail.takeWhile fun c => isHexDigit c || c == '_').length, .intLit)
    else digitsLength.decimal (c :: text) := by
  unfold digitsLength
  split
  · rename_i heq
    obtain ⟨rfl, rfl⟩ := List.cons.inj heq
    rfl
  · rename_i hne
    rw [if_neg]
    intro hc
    obtain ⟨hzero, hx⟩ := Bool.and_eq_true_iff.1 hc
    cases text with
    | nil => cases hx
    | cons d text => exact hne d text (by rw [beq_iff_eq.1 hzero])

theorem digitsLength_eq (h : SameLine x y) : digitsLength y = digitsLength x ∧
    SameLine (x.drop (digitsLength x).1) (y.drop (digitsLength x).1) := by
  have hdecimal := h.decimal_eq
  cases h with
  | stop hb x y =>
    have hzero : InLine (· == '0') := ⟨rfl, rfl⟩
    simpa only [digitsLength_cons, hzero.eq_false hb, Bool.false_and, Bool.false_eq_true, if_false]
      using hdecimal
  | @cons c x y h =>
    simp only [digitsLength_cons, h.head?_eq]
    split
    · rename_i hc
      -- the letter after the zero is no line break
      cases h with
      | stop hb x y =>
        have hletter : InLine fun d => d == 'x' || d == 'X' := ⟨rfl, rfl⟩
        simp [hletter.eq_false hb] at hc
      | cons d h =>
        obtain ⟨hdigits, hrest⟩ :=
          h.takeWhile_eq (p := fun c => isHexDigit c || c == '_') ⟨rfl, rfl⟩
        rw [List.tail_cons, List.tail_cons, hdigits, Nat.add_comm 2]
        exact ⟨rfl, hrest⟩
    · exact hdecimal

theorem numberLength_eq (h : SameLine x y) : numberLength y = numberLength x := by
  obtain ⟨hdigits, hrest⟩ := h.digitsLength_eq
  simp only [numberLength, hdigits, (hrest.takeWhile_eq (p := Char.isAlphanum) ⟨rfl, rfl⟩).1]

/-! ## Words -/

theorem joinedLengths_cons (n : Nat) (c : Char) (text : List Char) :
    joinedLengths n (c :: text) =
      if isWordPart c then joinedLengths (n + 1) text
      else if c == '-' && text.head?.any isAlphabetic then n :: joinedLengths (n + 1) text
      else [n] := rfl

/-- The places where a word may end, and the text before each. -/
theorem joinedLengths_eq (n : Nat) (h : SameLine x y) : joinedLengths n y = joinedLengths n x ∧
    ∀ m ∈ joinedLengths n x, y.take (m - n) = x.take (m - n) := by
  induction h generalizing n with
  | stop hb x y =>
    have hpart : InLine isWordPart := ⟨by decide, by decide⟩
    have hhyphen : InLine (· == '-') := ⟨rfl, rfl⟩
    simp [joinedLengths_cons, hpart.eq_false hb, hhyphen.eq_false hb]
  | @cons c x y h ih =>
    obtain ⟨hends, htake⟩ := ih (n + 1)
    have hlater : ∀ m ∈ joinedLengths (n + 1) x, (c :: y).take (m - n) = (c :: x).take (m - n) := by
      intro m hm
      have hle := (mem_joinedLengths_le hm).1
      rw [show m - n = m - (n + 1) + 1 by omega, List.take_succ_cons, List.take_succ_cons, htake m hm]
    simp only [joinedLengths_cons, h.head?_eq, hends]
    split
    · exact ⟨trivial, hlater⟩
    · split
      · refine ⟨trivial, fun m hm => ?_⟩
        rcases List.mem_cons.1 hm with rfl | hm
        · simp
        · exact hlater m hm
      · simp

theorem wordLength_eq (h : SameLine x y) : wordLength y = wordLength x := by
  obtain ⟨hends, htake⟩ := h.joinedLengths_eq 0
  have hplain : plainWordLength y = plainWordLength x := by
    rw [plainWordLength, (h.takeWhile_eq (p := isWordPart) ⟨by decide, by decide⟩).1, plainWordLength]
  have hfind : (joinedLengths 0 x).reverse.findSome? (fun n =>
        (Kind.ofKeyword? (y.take n)).map fun k => (n, k)) =
      (joinedLengths 0 x).reverse.findSome? fun n =>
        (Kind.ofKeyword? (x.take n)).map fun k => (n, k) := by
    rw [← List.head?_filterMap, ← List.head?_filterMap]
    refine congrArg List.head? (List.filterMap_congr fun n hn => ?_)
    have hsame : y.take n = x.take n := htake n (List.mem_reverse.1 hn)
    rw [hsame]
  simp only [wordLength, hends, hplain, hfind]

/-! ## Punctuation and literals -/

theorem double?_eq (c : Char) (h : SameLine x y) : double? (c :: y) = double? (c :: x) := by
  cases h with
  | stop hb x y =>
    have hdot : InLine (· == '.') := ⟨rfl, rfl⟩
    have hne := beq_eq_false_iff_ne.1 (hdot.eq_false hb)
    rw [double?_cons, double?_cons, if_neg fun h => hne h.2, if_neg fun h => hne h.2]
  | cons d h => rw [double?_cons, double?_cons, h.head?_eq]

theorem punctuation?_eq (c : Char) (h : SameLine x y) :
    punctuation? (c :: y) = punctuation? (c :: x) := by
  rw [punctuation?_cons, punctuation?_cons, h.double?_eq]

end SameLine

/-! ## Texts that end with a line break -/

/-- A text that may come after a line break: it opens with a character that neither belongs to the
break nor makes a word before it a name. -/
structure Follows (text : List Char) : Prop where
  newline : text.head? ≠ some '\n'
  name : usesAsName text = false

section

variable {c : Char} {rest more : List Char}

theorem rest_ends (h : (c :: rest).getLast?.any isLineBreak = true) (hc : isLineBreak c = false) :
    rest.getLast?.any isLineBreak = true := by
  cases rest with
  | nil =>
    have : isLineBreak c = true := h
    rw [hc] at this
    cases this
  | cons d rest => simpa using h

theorem newlineLength_append (hmore : Follows more) :
    newlineLength (c :: (rest ++ more)) = newlineLength (c :: rest) := by
  have hhead : ((rest ++ more).head? == some '\n') = (rest.head? == some '\n') := by
    cases rest with
    | nil => simpa using hmore.newline
    | cons d rest => rfl
  rw [newlineLength_cons, newlineLength_cons, hhead]

theorem slash_append (h : rest.getLast?.any isLineBreak = true)
    (hfault : (slash ('/' :: rest)).fault = none) :
    slash ('/' :: (rest ++ more)) = slash ('/' :: rest) := by
  have hline : SameLine rest (rest ++ more) := .append h more
  have hlength : lineCommentLength ('/' :: (rest ++ more)) = lineCommentLength ('/' :: rest) := by
    have hsame := (SameLine.cons '/' hline).takeWhile_eq (p := fun c => !isLineBreak c) ⟨rfl, rfl⟩
    rw [lineCommentLength, hsame.1, lineCommentLength]
  simp only [slash, startsLineComment_cons, startsBlockComment_cons, List.tail_cons,
    hline.head?_eq, hlength] at hfault ⊢
  split
  · rfl
  · rename_i hnot
    rw [if_neg hnot] at hfault
    split
    · rename_i hblock
      rw [if_pos hblock] at hfault
      have hclosed : (blockCommentLength ('/' :: rest)).2 = true := by
        by_contra hopen
        simp [hopen] at hfault
      have hstarts : startsBlockComment ('/' :: rest) = true := by
        rwa [startsBlockComment_cons]
      have hne : rest ≠ [] := by
        rintro rfl
        cases h
      have hle := blockCommentLength_le hstarts
      have happend := blockCommentLength_append (x := []) more hne
        (by rw [List.append_nil]; exact Prod.ext rfl hclosed) (by simpa using hle.2)
      rw [happend, ← hclosed]
    · rfl

theorem string_append {quote : Char} (hfault : (string quote rest).fault = none) :
    string quote (rest ++ more) = string quote rest := by
  have hclosed : (stringRest quote rest).2 = true := by
    by_contra hopen
    simp [string, stringLength, hopen] at hfault
  have hsame : stringRest quote (rest ++ more) = stringRest quote (rest ++ []) := by
    refine stringRest_append more (.inr ?_)
    rw [List.append_nil]
    exact ⟨stringRest_le quote rest, hclosed⟩
  rw [List.append_nil] at hsame
  rw [string, stringLength, hsame, string, stringLength]

/-- A lexeme without a fault is the same whatever comes after the last line break. -/
theorem normal_append (h : (c :: rest).getLast?.any isLineBreak = true) (hmore : Follows more)
    (hfault : (normal c rest).fault = none) : normal c (rest ++ more) = normal c rest := by
  have hline : SameLine (c :: rest) (c :: (rest ++ more)) := .append h more
  by_cases hbreak : isLineBreak c = true
  · simp only [normal, hbreak, if_true, newlineLength_append hmore]
  have hrest := rest_ends h (by simpa using hbreak)
  have hblank : blankLength (c :: (rest ++ more)) = blankLength (c :: rest) := by
    rw [blankLength, (hline.takeWhile_eq (p := isInlineBlank) ⟨rfl, rfl⟩).1, blankLength]
  have hpunctuation := (SameLine.append hrest more).punctuation?_eq c
  unfold normal at hfault ⊢
  dsimp only at hfault ⊢
  rw [if_neg hbreak] at hfault
  rw [if_neg hbreak, if_neg hbreak, hblank, hline.numberLength_eq, hline.wordLength_eq, hpunctuation]
  split
  · rfl
  rename_i hne
  rw [if_neg hne] at hfault
  split
  · rename_i hslash
    obtain rfl := beq_iff_eq.1 hslash
    rw [if_pos hslash] at hfault
    exact slash_append hrest hfault
  rename_i hne
  rw [if_neg hne] at hfault
  split
  · rename_i hquote
    rw [if_pos hquote] at hfault
    exact string_append hfault
  · rfl

/-! ## Consequences -/

theorem usesAsName_append_follows (hmore : Follows more) : usesAsName (rest ++ more) = usesAsName rest := by
  have hnil : usesAsName [] = false := rfl
  have := usesAsName_append rest (hmore.name.trans hnil.symm)
  rwa [List.append_nil] at this

theorem head?_append_ends (h : rest.getLast?.any isLineBreak = true) :
    (rest ++ more).head? = rest.head? := by
  cases rest with
  | nil => cases h
  | cons c rest => rfl

/-- The closing `end` of a consequence is found whatever comes after the last line break. -/
theorem consequenceLength?_append {text : List Char} {n : Nat}
    (h : text.getLast?.any isLineBreak = true) (hmore : Follows more)
    (hend : consequenceLength? text = some n) : consequenceLength? (text ++ more) = some n := by
  have hfind : findEnd .initial 0 0 text = some (0 + n) := by rwa [Nat.zero_add]
  obtain ⟨s, hcloses⟩ := closesHere_of_findEnd hfind
  obtain ⟨after, hdrop, hword, -⟩ := of_closesHere hcloses
  have htext : text = (text.take n ++ ['e', 'n', 'd']) ++ after := by
    rw [List.append_assoc]
    exact (List.take_append_drop n text).symm.trans (congrArg _ hdrop)
  have hafter : after.getLast?.any isLineBreak = true := by
    rw [htext, List.getLast?_append] at h
    cases after with
    | nil => simp [isLineBreak] at h
    | cons d after => simpa [List.getLast?_cons] using h
  have hsame : SameAfter after (after ++ more) :=
    ⟨hword, by rw [head?_append_ends hafter, hword], usesAsName_append_follows hmore⟩
  have hlength : (text.take n ++ ['e', 'n', 'd']).length = n + 3 := by
    have := consequenceLength?_lt hend
    simp only [List.length_append, List.length_take, List.length_cons, List.length_nil]
    omega
  rw [htext] at hfind
  have := findEnd_append hsame hfind hlength
  rwa [← List.append_assoc, ← htext, Nat.zero_add] at this

theorem actionLength_append {text : List Char} {n : Nat}
    (h : text.getLast?.any isLineBreak = true) (hmore : Follows more)
    (hend : consequenceLength? text = some n) : actionLength (text ++ more) = actionLength text := by
  have hle := consequenceLength?_lt hend
  rw [actionLength, consequenceLength?_append h hmore hend, actionLength, hend, Option.getD_some,
    Option.getD_some, List.take_append_of_le_length hle.le]

theorem startsTrivia_append (h : (c :: rest).getLast?.any isLineBreak = true) :
    startsTrivia (c :: (rest ++ more)) = startsTrivia (c :: rest) := by
  simp only [startsTrivia, startsLineComment_cons, startsBlockComment_cons, List.head?_cons]
  by_cases hc : isLineBreak c = true
  · simp [isBlank_of_isLineBreak hc]
  · rw [head?_append_ends (rest_ends h (by simpa using hc))]

/-- A lexeme without a fault is the same whatever comes after the last line break, unless it is a
consequence that nothing closes. -/
theorem next_append {mode : Mode} (h : (c :: rest).getLast?.any isLineBreak = true)
    (hmore : Follows more) (hfault : (next mode c rest).1.fault = none)
    (hclosed : mode = .consequence → startsTrivia (c :: rest) = false →
      consequenceLength? (c :: rest) ≠ none) :
    next mode c (rest ++ more) = next mode c rest := by
  cases mode with
  | normal =>
    rw [next_normal, next_normal, normal_append h hmore hfault]
  | consequence =>
    unfold next at hfault ⊢
    dsimp only at hfault ⊢
    rw [startsTrivia_append h]
    cases htrivia : startsTrivia (c :: rest) with
    | true =>
      rw [htrivia] at hfault
      simp only [beq_self_eq_true, Bool.and_self, if_true] at hfault ⊢
      rw [normal_append h hmore hfault]
    | false =>
      obtain ⟨n, hn⟩ := Option.ne_none_iff_exists'.1 (hclosed rfl htrivia)
      have haction : actionLength (c :: (rest ++ more)) = actionLength (c :: rest) :=
        actionLength_append h hmore hn
      rw [htrivia] at hfault
      simp only [Bool.and_false, Bool.false_eq_true, if_false, haction] at hfault ⊢
      split
      · rfl
      · rename_i hnone
        rw [if_neg hnone] at hfault
        rw [normal_append h hmore hfault]

end

end RuleLang.Lexeme
