import Mathlib.Data.List.TakeWhile
import RuleLang.Lexeme.Basic
import RuleLang.Text.Position

/-!
# Lengths of lexemes

No scanner measures beyond the text that it is given, and every lexeme has at least one character.

## Main statements

* `Lexeme.InRange` — all that is measured on a text lies within it.
* `Lexeme.inRange` — this holds of every text.
* `Lexeme.length_next_pos`, `Lexeme.length_next_le` — a lexeme is not empty and lies within its text.
-/

namespace RuleLang.Lexeme

open Text

/-! ## Trivia -/

theorem newlineLength_pos (text : List Char) : 0 < newlineLength text := by
  unfold newlineLength
  split <;> simp

theorem newlineLength_le (c : Char) (rest : List Char) :
    newlineLength (c :: rest) ≤ (c :: rest).length := by
  unfold newlineLength
  split
  · rename_i h
    simp [(List.cons.inj h).2]
  · simp

theorem length_takeWhile_pos {p : Char → Bool} {c : Char} (rest : List Char) (h : p c = true) :
    0 < ((c :: rest).takeWhile p).length := by
  simp [h]

theorem length_takeWhile_le (p : Char → Bool) (text : List Char) :
    (text.takeWhile p).length ≤ text.length :=
  List.IsPrefix.length_le (List.takeWhile_prefix p)

theorem closeLength?_le {text : List Char} {n : Nat} (h : closeLength? text = some n) :
    2 ≤ n ∧ n ≤ text.length := by
  induction text generalizing n with
  | nil => simp [closeLength?] at h
  | cons c cs ih =>
    unfold closeLength? at h
    split at h
    · rename_i hc
      cases cs with
      | nil => simp at hc
      | cons d ds =>
        cases h
        simp
    · obtain ⟨m, hm, rfl⟩ := Option.map_eq_some_iff.1 h
      have := ih hm
      simp only [List.length_cons]
      omega

theorem blockCommentLength_le {text : List Char} (h : startsBlockComment text = true) :
    2 ≤ (blockCommentLength text).1 ∧ (blockCommentLength text).1 ≤ text.length := by
  unfold startsBlockComment at h
  split at h
  · rename_i rest
    unfold blockCommentLength
    split
    · rename_i n hn
      have := closeLength?_le hn
      simp only [List.drop_succ_cons, List.drop_zero, List.length_cons] at this ⊢
      omega
    · simp
  · cases h

/-! ## Strings and numbers -/

theorem stringRest_le (quote : Char) (text : List Char) :
    (stringRest quote text).1 ≤ text.length := by
  fun_induction stringRest quote text <;> simp_all

theorem fractionLength_le (text : List Char) : fractionLength text ≤ text.length := by
  unfold fractionLength
  split
  · rename_i cs
    have := length_takeWhile_le Char.isDigit cs
    split <;> simp_all
  · exact Nat.zero_le _

/-- What follows a sign, or nothing, lies within the text. -/
theorem length_takeWhile_drop_le {n : Nat} (p : Char → Bool) (text : List Char)
    (h : n ≤ text.length) : n + ((text.drop n).takeWhile p).length ≤ text.length := by
  have := length_takeWhile_le p (text.drop n)
  rw [List.length_drop] at this
  omega

theorem exponentLength_le (text : List Char) : exponentLength text ≤ text.length := by
  unfold exponentLength
  split
  · rename_i e cs
    split
    · dsimp only
      generalize hs : (if cs.head? == some '+' || cs.head? == some '-' then 1 else 0) = sign
      have hsign : sign ≤ cs.length := by
        cases cs with
        | nil => simp at hs; omega
        | cons c cs => simp only [List.length_cons]; split at hs <;> omega
      have := length_takeWhile_drop_le Char.isDigit cs hsign
      split
      · exact Nat.zero_le _
      · rename_i n hn
        simp only [List.length_cons]
        omega
    · exact Nat.zero_le _
  · exact Nat.zero_le _

theorem decimal_le (text : List Char) : (digitsLength.decimal text).1 ≤ text.length := by
  unfold digitsLength.decimal
  have hw := length_takeWhile_le (fun c => c.isDigit || c == '_') text
  have hf := fractionLength_le
    (text.drop (text.takeWhile fun c => c.isDigit || c == '_').length)
  have he := exponentLength_le (text.drop ((text.takeWhile fun c => c.isDigit || c == '_').length +
    fractionLength (text.drop (text.takeWhile fun c => c.isDigit || c == '_').length)))
  simp only [List.length_drop] at hf he ⊢
  omega

theorem digitsLength_le (text : List Char) : (digitsLength text).1 ≤ text.length := by
  unfold digitsLength
  split
  · rename_i x cs
    split
    · have := length_takeWhile_le (fun c => isHexDigit c || c == '_') cs
      simp only [List.length_cons]
      omega
    · exact decimal_le _
  · exact decimal_le _

theorem digitsLength_pos {c : Char} (rest : List Char) (h : c.isDigit = true) :
    0 < (digitsLength (c :: rest)).1 := by
  have hd : 0 < (digitsLength.decimal (c :: rest)).1 := by
    have hw : 0 < ((c :: rest).takeWhile fun c => c.isDigit || c == '_').length :=
      length_takeWhile_pos rest (by simp [h])
    unfold digitsLength.decimal
    dsimp only
    omega
  unfold digitsLength
  split
  · split
    · dsimp only
      omega
    · exact hd
  · exact hd

theorem numberLength_le (text : List Char) : (numberLength text).1 ≤ text.length := by
  have hd := digitsLength_le text
  have hs := length_takeWhile_le Char.isAlphanum (text.drop (digitsLength text).1)
  simp only [List.length_drop] at hs
  simp only [numberLength]
  omega

theorem numberLength_pos {c : Char} (rest : List Char) (h : c.isDigit = true) :
    0 < (numberLength (c :: rest)).1 := by
  have := digitsLength_pos rest h
  simp only [numberLength]
  omega

/-! ## Words -/

theorem isWordPart_of_isWordStart {c : Char} (h : isWordStart c = true) : isWordPart c = true := by
  simp only [isWordStart, isWordPart, Bool.or_eq_true] at h ⊢
  exact h.imp_left fun h => h.imp_left isAlphanumeric_of_isAlphabetic

theorem mem_joinedLengths_le {n m : Nat} {text : List Char} (h : m ∈ joinedLengths n text) :
    n ≤ m ∧ m ≤ n + text.length := by
  induction text generalizing n with
  | nil =>
    simp only [joinedLengths, List.mem_singleton] at h
    simp [h]
  | cons c rest ih =>
    simp only [joinedLengths] at h
    simp only [List.length_cons]
    split at h
    · have := ih h
      omega
    · split at h
      · rcases List.mem_cons.1 h with rfl | h
        · omega
        · have := ih h
          omega
      · rw [List.mem_singleton] at h
        omega

theorem plainWordLength_le (text : List Char) : plainWordLength text ≤ text.length :=
  length_takeWhile_le _ _

/-- A joined word is at least as long as the plain word that it starts with. -/
theorem plainWordLength_le_of_mem_joinedLengths {n m : Nat} {text : List Char}
    (h : m ∈ joinedLengths n text) : n + plainWordLength text ≤ m := by
  induction text generalizing n with
  | nil =>
    simp only [joinedLengths, List.mem_singleton] at h
    simp [h, plainWordLength]
  | cons c rest ih =>
    simp only [joinedLengths] at h
    by_cases hc : isWordPart c = true
    · rw [if_pos hc] at h
      have := ih h
      simp only [plainWordLength, List.takeWhile_cons, hc, if_true, List.length_cons] at this ⊢
      omega
    · have hp : plainWordLength (c :: rest) = 0 := by simp [plainWordLength, hc]
      rw [if_neg hc] at h
      split at h
      · rcases List.mem_cons.1 h with rfl | h
        · omega
        · have := mem_joinedLengths_le h
          omega
      · rw [List.mem_singleton] at h
        omega

/-- A word ends where a joined word may end, or after its first part. -/
theorem wordLength_mem (text : List Char) :
    (wordLength text).1 ∈ joinedLengths 0 text ∨ (wordLength text).1 = plainWordLength text := by
  unfold wordLength
  dsimp only
  cases h : (joinedLengths 0 text).reverse.findSome? fun n =>
      (Kind.ofKeyword? (text.take n)).map fun k => (n, k) with
  | none => exact .inr rfl
  | some found =>
    obtain ⟨n, hn, hf⟩ := List.exists_of_findSome?_eq_some h
    obtain ⟨k, -, rfl⟩ := Option.map_eq_some_iff.1 hf
    exact .inl (List.mem_reverse.1 hn)

theorem wordLength_le (text : List Char) : (wordLength text).1 ≤ text.length := by
  rcases wordLength_mem text with h | h
  · have := mem_joinedLengths_le h
    omega
  · exact h ▸ plainWordLength_le text

theorem plainWordLength_le_wordLength (text : List Char) :
    plainWordLength text ≤ (wordLength text).1 := by
  rcases wordLength_mem text with h | h
  · have := plainWordLength_le_of_mem_joinedLengths h
    omega
  · exact h.ge

theorem wordLength_pos {c : Char} (rest : List Char) (h : isWordStart c = true) :
    0 < (wordLength (c :: rest)).1 :=
  (length_takeWhile_pos rest (isWordPart_of_isWordStart h)).trans_le
    (plainWordLength_le_wordLength _)

/-! ## Punctuation -/

theorem punctuation?_le {text : List Char} {k : Kind} {n : Nat}
    (h : punctuation? text = some (k, n)) : 0 < n ∧ n ≤ text.length := by
  unfold punctuation? at h
  split at h
  · rename_i kind hk
    cases h
    unfold double? at hk
    split at hk <;> simp_all
  · cases text with
    | nil => simp at h
    | cons c rest =>
      simp only [List.head?_cons, Option.bind_some, Option.map_eq_some_iff] at h
      obtain ⟨kind, -, he⟩ := h
      cases he
      simp

/-! ## Consequences -/

theorem findEnd_lt {s : Scan} {before skip n : Nat} {text : List Char}
    (h : findEnd s before skip text = some n) :
    before + skip ≤ n ∧ n < before + text.length := by
  induction text generalizing s before skip with
  | nil => simp [findEnd] at h
  | cons c rest ih =>
    simp only [List.length_cons]
    cases skip with
    | succ skip =>
      have := ih h
      omega
    | zero =>
      simp only [findEnd] at h
      split at h
      · cases h
        omega
      · have := ih h
        omega

theorem consequenceLength?_lt {text : List Char} {n : Nat} (h : consequenceLength? text = some n) :
    n < text.length := by
  have := findEnd_lt h
  omega

theorem actionLength_le (text : List Char) : actionLength text ≤ text.length := by
  have h := prefix_trimEnd (text.take ((consequenceLength? text).getD text.length))
  have := h.length_le
  simp only [List.length_take] at this
  unfold actionLength
  omega

/-! ## Whole lexemes -/

theorem length_slash_pos {text : List Char} (h : text.head? = some '/') :
    0 < (slash text).length ∧ (slash text).length ≤ text.length := by
  cases text with
  | nil => cases h
  | cons c rest =>
    obtain rfl : c = '/' := Option.some.inj h
    unfold slash
    split
    · exact ⟨length_takeWhile_pos _ rfl, length_takeWhile_le _ _⟩
    · split
      · rename_i hb
        have := blockCommentLength_le hb
        dsimp only
        omega
      · split
        · rename_i he
          cases rest <;> simp_all
        · simp

theorem length_normal (c : Char) (rest : List Char) :
    0 < (normal c rest).length ∧ (normal c rest).length ≤ (c :: rest).length := by
  unfold normal
  dsimp only
  split
  · exact ⟨newlineLength_pos _, newlineLength_le _ _⟩
  · rename_i hn
    split
    · rename_i hb
      exact ⟨length_takeWhile_pos _ (by simpa [isInlineBlank, hb] using hn),
        length_takeWhile_le _ _⟩
    · split
      · rename_i hs
        exact length_slash_pos (by simpa using hs)
      · split
        · have := stringRest_le c rest
          simp only [string, stringLength, List.length_cons]
          omega
        · split
          · rename_i hd
            exact ⟨numberLength_pos _ hd, numberLength_le _⟩
          · split
            · rename_i hw
              exact ⟨wordLength_pos _ hw, wordLength_le _⟩
            · split
              · rename_i hp
                exact punctuation?_le hp
              · simp

theorem length_next (mode : Mode) (c : Char) (rest : List Char) :
    0 < (next mode c rest).1.length ∧ (next mode c rest).1.length ≤ (c :: rest).length := by
  unfold next
  dsimp only
  split
  · exact length_normal c rest
  · split
    · rename_i h
      simp only [Bool.and_eq_true, decide_eq_true_eq] at h
      exact ⟨h.2, actionLength_le _⟩
    · exact length_normal c rest

theorem length_next_pos (mode : Mode) (c : Char) (rest : List Char) :
    0 < (next mode c rest).1.length :=
  (length_next mode c rest).1

theorem length_next_le (mode : Mode) (c : Char) (rest : List Char) :
    (next mode c rest).1.length ≤ (c :: rest).length :=
  (length_next mode c rest).2

/-! ## Bytes of numbers

Numbers are the one kind of lexeme whose end may as well be found byte by byte: all their characters
take one byte. -/

/-- Every character takes one byte. -/
def IsAscii (text : List Char) : Prop :=
  ∀ c ∈ text, c.toNat < 128

theorem IsAscii.byteLength_eq {text : List Char} (h : IsAscii text) :
    byteLength text = text.length := by
  induction text with
  | nil => rfl
  | cons c rest ih =>
    have hc : c.val ≤ 127 := by
      have := h c List.mem_cons_self
      rw [UInt32.le_iff_toNat_le]
      exact Nat.le_of_lt_succ this
    have hr := ih fun d hd => h d (List.mem_cons_of_mem c hd)
    simp [Char.utf8Size, hc, hr, Nat.add_comm]

theorem isAscii_take_add {text : List Char} {m n : Nat} (hm : IsAscii (text.take m))
    (hn : IsAscii ((text.drop m).take n)) : IsAscii (text.take (m + n)) := by
  intro c hc
  rw [List.take_add, List.mem_append] at hc
  exact hc.elim (hm c) (hn c)

theorem isAscii_take_takeWhile {p : Char → Bool} (hp : ∀ c, p c = true → c.toNat < 128)
    (text : List Char) : IsAscii (text.take (text.takeWhile p).length) := by
  rw [← List.prefix_iff_eq_take.1 (List.takeWhile_prefix p)]
  exact fun c hc => hp c (List.mem_takeWhile_imp hc)

theorem isAscii_take_cons {c : Char} {rest : List Char} {n : Nat} (hc : c.toNat < 128)
    (h : IsAscii (rest.take n)) : IsAscii ((c :: rest).take (n + 1)) := by
  intro d hd
  rw [List.take_succ_cons, List.mem_cons] at hd
  rcases hd with rfl | hd
  · exact hc
  · exact h d hd

theorem toNat_lt_of_isAlphanum {c : Char} (h : c.isAlphanum = true) : c.toNat < 128 := by
  change ((decide (c.val ≥ 65 ∧ c.val ≤ 90) ||
    decide (c.val ≥ 97) && decide (c.val ≤ 122)) ||
    decide (c.val ≥ 48) && decide (c.val ≤ 57)) = true at h
  simp only [Bool.or_eq_true, Bool.and_eq_true, decide_eq_true_eq, ge_iff_le,
    UInt32.le_iff_toNat_le] at h
  change c.val.toNat < 128
  rcases h with (⟨-, h⟩ | ⟨-, h⟩) | ⟨-, h⟩ <;> exact h.trans_lt (by decide)

theorem toNat_lt_of_isDigit {c : Char} (h : c.isDigit = true) : c.toNat < 128 :=
  toNat_lt_of_isAlphanum (by simp [Char.isAlphanum, h])

theorem toNat_lt_of_isHexDigit {c : Char} (h : isHexDigit c = true) : c.toNat < 128 := by
  simp only [isHexDigit, Bool.or_eq_true, Bool.and_eq_true, decide_eq_true_eq, Char.le_def,
    UInt32.le_iff_toNat_le] at h
  rcases h with (h | ⟨-, h⟩) | ⟨-, h⟩
  · exact toNat_lt_of_isDigit h
  · exact h.trans_lt (by decide)
  · exact h.trans_lt (by decide)

theorem isAscii_fraction (text : List Char) : IsAscii (text.take (fractionLength text)) := by
  unfold fractionLength
  split
  · split
    · simp [IsAscii]
    · exact isAscii_take_cons (by decide)
        (isAscii_take_takeWhile (fun c h => toNat_lt_of_isDigit h) _)
  · simp [IsAscii]

theorem isAscii_exponent (text : List Char) : IsAscii (text.take (exponentLength text)) := by
  unfold exponentLength
  split
  · rename_i e cs
    split
    · rename_i he
      have he : e.toNat < 128 := by
        simp only [Bool.or_eq_true, beq_iff_eq] at he
        rcases he with rfl | rfl <;> decide
      dsimp only
      generalize hs : (if cs.head? == some '+' || cs.head? == some '-' then 1 else 0) = sign
      have hsign : IsAscii (cs.take sign) := by
        intro d hd
        cases cs with
        | nil => simp at hd
        | cons c cs =>
          split at hs
          · rename_i hc
            subst hs
            rw [List.take_succ_cons, List.take_zero, List.mem_singleton] at hd
            subst hd
            simp only [List.head?_cons, Bool.or_eq_true, beq_iff_eq, Option.some.injEq] at hc
            rcases hc with rfl | rfl <;> decide
          · subst hs
            simp at hd
      split
      · simp [IsAscii]
      · rw [Nat.add_assoc, Nat.add_comm 1]
        exact isAscii_take_cons he (isAscii_take_add hsign
          (isAscii_take_takeWhile (fun c h => toNat_lt_of_isDigit h) _))
    · simp [IsAscii]
  · simp [IsAscii]

theorem isAscii_decimal (text : List Char) :
    IsAscii (text.take (digitsLength.decimal text).1) := by
  unfold digitsLength.decimal
  dsimp only
  refine isAscii_take_add (isAscii_take_add (isAscii_take_takeWhile ?_ text)
    (isAscii_fraction _)) (isAscii_exponent _)
  intro c h
  rcases Bool.or_eq_true_iff.1 h with h | h
  · exact toNat_lt_of_isDigit h
  · rw [beq_iff_eq.1 h]
    decide

theorem isAscii_digits (text : List Char) : IsAscii (text.take (digitsLength text).1) := by
  unfold digitsLength
  split
  · rename_i x cs
    split
    · rename_i hx
      have hx : x.toNat < 128 := by
        simp only [Bool.or_eq_true, beq_iff_eq] at hx
        rcases hx with rfl | rfl <;> decide
      dsimp only
      rw [Nat.add_comm 2]
      refine isAscii_take_cons (by decide) (isAscii_take_cons hx (isAscii_take_takeWhile ?_ cs))
      intro c h
      rcases Bool.or_eq_true_iff.1 h with h | h
      · exact toNat_lt_of_isHexDigit h
      · rw [beq_iff_eq.1 h]
        decide
    · exact isAscii_decimal _
  · exact isAscii_decimal _

theorem isAscii_number (text : List Char) : IsAscii (text.take (numberLength text).1) := by
  simp only [numberLength]
  exact isAscii_take_add (isAscii_digits text)
    (isAscii_take_takeWhile (fun c h => toNat_lt_of_isAlphanum h) _)

theorem mem_of_lookup {α : Type} [BEq α] [LawfulBEq α] {a : α} {k : Kind} {l : List (α × Kind)}
    (h : l.lookup a = some k) : (a, k) ∈ l := by
  obtain ⟨l₁, l₂, rfl, -⟩ := List.lookup_eq_some_iff.1 h
  simp

theorem isAscii_punctuation {text : List Char} {k : Kind} {n : Nat}
    (h : punctuation? text = some (k, n)) : IsAscii (text.take n) := by
  have hd : ∀ p ∈ doublePunctuation, p.1.1.toNat < 128 ∧ p.1.2.toNat < 128 := by decide
  have hs : ∀ p ∈ singlePunctuation, p.1.toNat < 128 := by decide
  unfold punctuation? at h
  split at h
  · rename_i kind hk
    cases h
    unfold double? at hk
    split at hk
    · exact isAscii_take_cons (by decide) (isAscii_take_cons (by decide) (by simp [IsAscii]))
    · have := hd _ (mem_of_lookup hk)
      exact isAscii_take_cons this.1 (isAscii_take_cons this.2 (by simp [IsAscii]))
    · cases hk
  · cases text with
    | nil => simp at h
    | cons c rest =>
      simp only [List.head?_cons, Option.bind_some, Option.map_eq_some_iff] at h
      obtain ⟨kind, hk, he⟩ := h
      cases he
      exact isAscii_take_cons (hs _ (mem_of_lookup hk)) (by simp [IsAscii])

/-! ## All measurements -/

/-- All that is measured on a text lies within it, and what is skipped as bytes are characters of
one byte. -/
structure InRange (text : List Char) : Prop where
  newline : text ≠ [] → newlineLength text ≤ text.length
  blank : blankLength text ≤ text.length
  lineComment : lineCommentLength text ≤ text.length
  blockComment : startsBlockComment text = true →
    byteLength (text.take 2) = 2 ∧ 2 ≤ (blockCommentLength text).1 ∧
      (blockCommentLength text).1 ≤ text.length
  string : ∀ quote rest, text = quote :: rest → quote = '"' ∨ quote = '\x27' →
    byteLength (text.take 1) = 1 ∧ (stringLength quote rest).1 ≤ text.length
  number : (numberLength text).1 ≤ text.length ∧
    byteLength (text.take (numberLength text).1) = (numberLength text).1
  word : (wordLength text).1 ≤ text.length ∧ ∀ n ∈ joinedLengths 0 text, n ≤ text.length
  punctuation : ∀ k n, punctuation? text = some (k, n) →
    n ≤ text.length ∧ byteLength (text.take n) = n
  consequenceStep : ∀ s c rest, text = c :: rest → (stepConsequence s c rest).1 ≤ rest.length
  consequence : ∀ n, consequenceLength? text = some n → n ≤ text.length
  action : actionLength text ≤ text.length
  lexeme : ∀ mode c rest, text = c :: rest →
    0 < (next mode c rest).1.length ∧ (next mode c rest).1.length ≤ text.length

theorem stepConsequence_le (s : Scan) (c : Char) (rest : List Char) :
    (stepConsequence s c rest).1 ≤ rest.length := by
  unfold stepConsequence
  split
  · exact Nat.zero_le _
  · split
    · exact Nat.zero_le _
    · split
      · exact length_takeWhile_le _ _
      · split
        · rename_i hb
          have := blockCommentLength_le hb
          simp only [List.length_cons] at this ⊢
          omega
        · split
          · exact stringRest_le c rest
          · split
            · exact Nat.zero_le _
            · split
              · exact Nat.zero_le _
              · split
                · exact length_takeWhile_le _ _
                · exact Nat.zero_le _

theorem byteLength_take_of_startsBlockComment {text : List Char}
    (h : startsBlockComment text = true) : byteLength (text.take 2) = 2 := by
  unfold startsBlockComment at h
  split at h
  · simp [Char.utf8Size]
  · cases h

theorem inRange (text : List Char) : InRange text where
  newline h := by
    obtain ⟨c, rest, rfl⟩ := List.exists_cons_of_ne_nil h
    exact newlineLength_le c rest
  blank := length_takeWhile_le _ _
  lineComment := length_takeWhile_le _ _
  blockComment h := ⟨byteLength_take_of_startsBlockComment h, blockCommentLength_le h⟩
  string := by
    rintro quote rest rfl hq
    have := stringRest_le quote rest
    refine ⟨?_, by simp only [stringLength, List.length_cons]; omega⟩
    rcases hq with rfl | rfl <;> simp [Char.utf8Size]
  number := by
    refine ⟨numberLength_le text, ?_⟩
    rw [(isAscii_number text).byteLength_eq, List.length_take]
    exact min_eq_left (numberLength_le text)
  word := by
    refine ⟨wordLength_le text, fun n hn => ?_⟩
    have := mem_joinedLengths_le hn
    omega
  punctuation k n h := by
    have hn := punctuation?_le h
    refine ⟨hn.2, ?_⟩
    rw [(isAscii_punctuation h).byteLength_eq, List.length_take]
    exact min_eq_left hn.2
  consequenceStep := by
    rintro s c rest -
    exact stepConsequence_le s c rest
  consequence n h := (consequenceLength?_lt h).le
  action := actionLength_le text
  lexeme := by
    rintro mode c rest rfl
    exact length_next mode c rest

end RuleLang.Lexeme
