import RuleLang.Proofs.Lexeme.Length

/-!
# What a lexeme does not see

Whether a lexeme ends where it ends depends on a few characters after it. A text may therefore be
changed further on, and even right after the lexeme, without a change of the lexeme.

## Main definitions

* `Seam` — the places in a text from which on it may be changed.
* `Alike` — texts that are the same up to a seam.

## Main statements

* `Alike.numberLength_eq`, `Alike.wordLength_eq` — numbers and words end before a seam.
-/

namespace RuleLang.Lexeme

open Text

/-- From here on a text may be changed: the character before is no part of a word, and a word that
is part of no keyword stands for a symbol. -/
structure Seam (before : Char) (text text' : List Char) : Prop where
  word : isWordPart before = false
  symbol : text.head? = some '&' ∨ text.head? = some '|'
  spelling : ∃ rest, text' = 'a' :: 'n' :: rest ∨ text' = 'o' :: 'r' :: rest

/-- Texts after a character that are the same up to a seam. -/
inductive Alike : Char → List Char → List Char → Prop
  | refl (before : Char) (text : List Char) : Alike before text text
  | cons {before c : Char} {text text' : List Char} (h : Alike c text text') :
    Alike before (c :: text) (c :: text')
  | seam {before : Char} {text text' : List Char} (h : Seam before text text') :
    Alike before text text'

theorem isWordPart_of_isAlphanum {c : Char} (h : c.isAlphanum = true) : isWordPart c = true := by
  have hlt := toNat_lt_of_isAlphanum h
  rw [Char.isAlphanum, Bool.or_eq_true] at h
  simp only [isWordPart, isAlphanumeric, isNumeric, isAlphabetic, hlt, if_true, Bool.or_eq_true]
  exact .inl (.inl h)

theorem isWordPart_of_isDigit {c : Char} (h : c.isDigit = true) : isWordPart c = true :=
  isWordPart_of_isAlphanum (by rw [Char.isAlphanum, h, Bool.or_true])

namespace Alike

variable {b : Char} {x y : List Char}

theorem append (t : List Char) (h : Alike ((b :: t).getLast (by simp)) x y) :
    Alike b (t ++ x) (t ++ y) := by
  induction t generalizing b with
  | nil => exact h
  | cons c t ih =>
    rw [List.getLast_cons (by simp)] at h
    exact .cons (ih h)

/-- Right after a part of a word there is no seam. -/
theorem word_cases (h : Alike b x y) (hb : isWordPart b = true) :
    x = [] ∧ y = [] ∨ ∃ c u v, x = c :: u ∧ y = c :: v ∧ Alike c u v := by
  cases h with
  | refl =>
    cases x with
    | nil => exact .inl ⟨rfl, rfl⟩
    | cons c u => exact .inr ⟨c, u, u, rfl, rfl, .refl c u⟩
  | @cons _ c u v h => exact .inr ⟨c, u, v, rfl, rfl, h⟩
  | seam h => simp [h.word] at hb

/-- Texts that are alike after the first `n` characters, the last of which is part of a word. -/
def After (n : Nat) (x y : List Char) : Prop :=
  ∃ b, isWordPart b = true ∧ Alike b (x.drop n) (y.drop n)

/-- A run of word characters is the same. -/
theorem takeWhile_eq {p : Char → Bool} (hp : ∀ c, p c = true → isWordPart c = true)
    (h : Alike b x y) (hb : isWordPart b = true) :
    y.takeWhile p = x.takeWhile p ∧ After (x.takeWhile p).length x y := by
  induction x generalizing b y with
  | nil =>
    rcases h.word_cases hb with ⟨-, rfl⟩ | ⟨c, u, v, hx, -, -⟩
    · exact ⟨rfl, b, hb, .refl _ _⟩
    · cases hx
  | cons c u ih =>
    rcases h.word_cases hb with ⟨hx, -⟩ | ⟨d, u, v, hx, rfl, h'⟩
    · cases hx
    · cases hx
      cases hc : p c with
      | false => exact ⟨by simp [hc], b, hb, by simpa [hc] using h⟩
      | true =>
        obtain ⟨heq, b', hb', hdrop⟩ := ih h' (hp c hc)
        exact ⟨by simp [hc, heq], b', hb', by simpa [hc] using hdrop⟩

/-- A run of digits is the same. -/
theorem digits_eq (h : Alike b x y) :
    y.takeWhile Char.isDigit = x.takeWhile Char.isDigit ∧
      (0 < (x.takeWhile Char.isDigit).length →
        After (x.takeWhile Char.isDigit).length x y) := by
  by_cases hword : isWordPart b = true
  · obtain ⟨heq, hafter⟩ := takeWhile_eq (fun _ => isWordPart_of_isDigit) h hword
    exact ⟨heq, fun _ => hafter⟩
  · cases h with
    | refl =>
      refine ⟨rfl, fun _ => ⟨'0', by decide, .refl _ _⟩⟩
    | @cons _ c u v h =>
      cases hc : c.isDigit with
      | false => exact ⟨by simp [hc], by simp [hc]⟩
      | true =>
        obtain ⟨heq, b', hb', hdrop⟩ :=
          takeWhile_eq (fun _ => isWordPart_of_isDigit) h (isWordPart_of_isDigit hc)
        exact ⟨by simp [hc, heq], fun _ => ⟨b', hb', by simpa [hc] using hdrop⟩⟩
    | seam h =>
      have hx : x.head?.any Char.isDigit = false := by
        rcases h.symbol with hx | hx <;> rw [hx] <;> decide
      have hy : y.head?.any Char.isDigit = false := by
        obtain ⟨rest, rfl | rfl⟩ := h.spelling <;> rfl
      have hnone {z : List Char} (hz : z.head?.any Char.isDigit = false) :
          z.takeWhile Char.isDigit = [] := by
        cases z with
        | nil => rfl
        | cons c z => exact List.takeWhile_cons_of_neg (by simpa using hz)
      exact ⟨by rw [hnone hx, hnone hy], by simp [hnone hx]⟩

/-! ## Numbers -/

theorem After.refl_of {n : Nat} {x : List Char} : After n x x :=
  ⟨'0', by decide, .refl _ _⟩

theorem fractionLength_eq (h : Alike b x y) (hb : isWordPart b = true) :
    fractionLength y = fractionLength x ∧ After (fractionLength x) x y := by
  rcases h.word_cases hb with ⟨rfl, rfl⟩ | ⟨c, u, v, rfl, rfl, h'⟩
  · exact ⟨rfl, .refl_of⟩
  · by_cases hc : c = '.'
    · subst hc
      obtain ⟨heq, hafter⟩ := digits_eq h'
      simp only [fractionLength, heq]
      cases hn : (u.takeWhile Char.isDigit).length with
      | zero => exact ⟨trivial, b, hb, h⟩
      | succ n =>
        obtain ⟨b', hb', hdrop⟩ := hafter (by omega)
        rw [hn] at hdrop
        exact ⟨trivial, b', hb', hdrop⟩
    · have hzero (z : List Char) : fractionLength (c :: z) = 0 := by
        unfold fractionLength
        split
        · rename_i heq
          exact absurd (List.cons.inj heq).1 hc
        · rfl
      rw [hzero, hzero]
      exact ⟨rfl, b, hb, h⟩

theorem exponentLength_eq (h : Alike b x y) (hb : isWordPart b = true) :
    exponentLength y = exponentLength x ∧ After (exponentLength x) x y := by
  rcases h.word_cases hb with ⟨rfl, rfl⟩ | ⟨e, u, v, rfl, rfl, h'⟩
  · exact ⟨rfl, .refl_of⟩
  · by_cases he : (e == 'e' || e == 'E') = true
    · have hword : isWordPart e = true := by
        simp only [Bool.or_eq_true, beq_iff_eq] at he
        rcases he with rfl | rfl <;> decide
      simp only [exponentLength, he, if_true]
      rcases h'.word_cases hword with ⟨rfl, rfl⟩ | ⟨s, u, v, rfl, rfl, h''⟩
      · exact ⟨rfl, b, hb, h⟩
      · simp only [List.head?_cons]
        by_cases hs : (some s == some '+' || some s == some '-') = true
        · simp only [hs, if_true, List.drop_succ_cons, List.drop_zero]
          obtain ⟨heq, hafter⟩ := digits_eq h''
          rw [heq]
          cases hn : (u.takeWhile Char.isDigit).length with
          | zero => exact ⟨rfl, b, hb, h⟩
          | succ n =>
            obtain ⟨b', hb', hdrop⟩ := hafter (by omega)
            rw [hn] at hdrop
            refine ⟨rfl, b', hb', ?_⟩
            change Alike b' (List.drop (1 + 1 + (n + 1)) _) (List.drop (1 + 1 + (n + 1)) _)
            rwa [show 1 + 1 + (n + 1) = (n + 1) + 1 + 1 by omega]
        · simp only [hs, Bool.false_eq_true, if_false, List.drop_zero]
          obtain ⟨heq, hafter⟩ := digits_eq h'
          rw [heq]
          cases hn : ((s :: u).takeWhile Char.isDigit).length with
          | zero => exact ⟨rfl, b, hb, h⟩
          | succ n =>
            obtain ⟨b', hb', hdrop⟩ := hafter (by omega)
            rw [hn] at hdrop
            refine ⟨rfl, b', hb', ?_⟩
            change Alike b' (List.drop (1 + 0 + (n + 1)) _) (List.drop (1 + 0 + (n + 1)) _)
            rwa [show 1 + 0 + (n + 1) = (n + 1) + 1 by omega]
    · simp only [exponentLength, he, Bool.false_eq_true, if_false]
      exact ⟨trivial, b, hb, h⟩

theorem After.add {m n : Nat} (h : ∃ b, isWordPart b = true ∧
    Alike b ((x.drop m).drop n) ((y.drop m).drop n)) : After (m + n) x y := by
  obtain ⟨b, hb, h⟩ := h
  exact ⟨b, hb, by simpa [List.drop_drop] using h⟩

theorem decimal_eq (h : Alike b x y) (hb : isWordPart b = true) :
    digitsLength.decimal y = digitsLength.decimal x ∧ After (digitsLength.decimal x).1 x y := by
  have hp (c : Char) (hc : (c.isDigit || c == '_') = true) : isWordPart c = true := by
    rw [Bool.or_eq_true, beq_iff_eq] at hc
    rcases hc with hc | rfl
    · exact isWordPart_of_isDigit hc
    · decide
  obtain ⟨hwhole, b₁, hb₁, h₁⟩ := takeWhile_eq hp h hb
  obtain ⟨hfraction, h₂⟩ := fractionLength_eq h₁ hb₁
  obtain ⟨b₂, hb₂, h₂⟩ := After.add h₂
  obtain ⟨hexponent, h₃⟩ := exponentLength_eq h₂ hb₂
  simp only [digitsLength.decimal, hwhole, hfraction, hexponent]
  exact ⟨trivial, After.add h₃⟩

theorem isWordPart_of_isHexDigit {c : Char} (h : isHexDigit c = true) : isWordPart c = true := by
  refine isWordPart_of_isAlphanum ?_
  simp only [isHexDigit, Bool.or_eq_true, Bool.and_eq_true, decide_eq_true_eq] at h
  rw [Char.isAlphanum]
  delta Char.isAlpha Char.isUpper Char.isLower
  simp only [Bool.or_eq_true, Bool.and_eq_true, decide_eq_true_eq]
  rcases h with (h | h) | h
  · exact .inr h
  · exact .inl (.inr ⟨h.1, Char.le_trans h.2 (by decide)⟩)
  · exact .inl (.inl ⟨h.1, Char.le_trans h.2 (by decide)⟩)

theorem digitsLength_eq (h : Alike b x y) (hb : isWordPart b = true) :
    digitsLength y = digitsLength x ∧ After (digitsLength x).1 x y := by
  have hp (c : Char) (hc : (isHexDigit c || c == '_') = true) : isWordPart c = true := by
    rw [Bool.or_eq_true, beq_iff_eq] at hc
    rcases hc with hc | rfl
    · exact isWordPart_of_isHexDigit hc
    · decide
  rcases h.word_cases hb with ⟨rfl, rfl⟩ | ⟨c, u, v, rfl, rfl, h'⟩
  · exact ⟨rfl, .refl_of⟩
  by_cases hc : c = '0'
  · subst hc
    rcases h'.word_cases (by decide) with ⟨rfl, rfl⟩ | ⟨d, u, v, rfl, rfl, h''⟩
    · exact ⟨rfl, .refl_of⟩
    by_cases hd : (d == 'x' || d == 'X') = true
    · have hword : isWordPart d = true := by
        simp only [Bool.or_eq_true, beq_iff_eq] at hd
        rcases hd with rfl | rfl <;> decide
      obtain ⟨heq, b', hb', hdrop⟩ := takeWhile_eq hp h'' hword
      simp only [digitsLength, hd, if_true, heq]
      refine ⟨trivial, b', hb', ?_⟩
      rwa [Nat.add_comm 2]
    · simp only [digitsLength, hd, Bool.false_eq_true, if_false]
      exact decimal_eq h hb
  · have hdecimal (z : List Char) : digitsLength (c :: z) = digitsLength.decimal (c :: z) := by
      unfold digitsLength
      split
      · rename_i heq
        exact absurd (List.cons.inj heq).1 hc
      · rfl
    rw [hdecimal, hdecimal]
    exact decimal_eq h hb

theorem numberLength_eq (h : Alike b x y) (hb : isWordPart b = true) :
    numberLength y = numberLength x := by
  obtain ⟨hdigits, b', hb', h'⟩ := digitsLength_eq h hb
  obtain ⟨hsuffix, -⟩ := takeWhile_eq (fun _ => isWordPart_of_isAlphanum) h' hb'
  simp only [numberLength, hdigits, hsuffix]

/-! ## Words -/

/-- The word has a part that is spelled like the start of a joining word. -/
def Foreign (word : List Char) : Prop :=
  ['-', 'a', 'n'] <:+: word ∨ ['-', 'o', 'r'] <:+: word

theorem Foreign.cons {w : List Char} (c : Char) (h : Foreign w) : Foreign (c :: w) :=
  h.imp List.infix_cons List.infix_cons

theorem Foreign.ofKeyword? {w : List Char} (h : Foreign w) : Kind.ofKeyword? w = none := by
  have hall : ∀ p ∈ Kind.keywordTable,
      ¬ (['-', 'a', 'n'] <:+: p.1 ∨ ['-', 'o', 'r'] <:+: p.1) := by
    decide +kernel
  cases hw : Kind.ofKeyword? w with
  | none => rfl
  | some k => exact absurd h (hall _ (mem_of_lookup hw))

/-- The second text has the places where a word may end of the first text, and others where it is
no keyword. -/
def SameEnds (n : Nat) (x y : List Char) : Prop :=
  ∃ extra, joinedLengths n y = joinedLengths n x ++ extra ∧
    (∀ m ∈ joinedLengths n x, y.take (m - n) = x.take (m - n)) ∧
    ∀ m ∈ extra, Foreign (y.take (m - n))

theorem SameEnds.cons {n : Nat} {c : Char} {ends : List Nat} (h : SameEnds (n + 1) x y)
    (hends : ∀ m ∈ ends, m = n) (hx : joinedLengths n (c :: x) = ends ++ joinedLengths (n + 1) x)
    (hy : joinedLengths n (c :: y) = ends ++ joinedLengths (n + 1) y) :
    SameEnds n (c :: x) (c :: y) := by
  obtain ⟨extra, heq, hsame, hextra⟩ := h
  have htake {m : Nat} (hm : n + 1 ≤ m) (z : List Char) :
      (c :: z).take (m - n) = c :: z.take (m - (n + 1)) := by
    rw [show m - n = (m - (n + 1)) + 1 by omega, List.take_succ_cons]
  refine ⟨extra, by rw [hx, hy, heq, List.append_assoc], fun m hm => ?_, fun m hm => ?_⟩
  · rw [hx] at hm
    rcases List.mem_append.1 hm with hm | hm
    · simp [hends m hm]
    · have hle := (mem_joinedLengths_le hm).1
      rw [htake hle, htake hle, hsame m hm]
  · have hmem : m ∈ joinedLengths (n + 1) y := heq ▸ List.mem_append_right _ hm
    rw [htake (mem_joinedLengths_le hmem).1]
    exact (hextra m hm).cons c

theorem SameEnds.refl (n : Nat) (x : List Char) : SameEnds n x x :=
  ⟨[], by simp⟩

/-- After a seam a word may only go on in ways that are no keywords. -/
theorem sameEnds (n : Nat)
    (h : x = [] ∧ y = [] ∨ ∃ c u v, x = c :: u ∧ y = c :: v ∧ Alike c u v) :
    SameEnds n x y := by
  induction x generalizing y n with
  | nil =>
    rcases h with ⟨-, rfl⟩ | ⟨c, u, v, hx, -⟩
    · exact .refl n []
    · cases hx
  | cons c u ih =>
    rcases h with ⟨hx, -⟩ | ⟨d, u, v, hx, rfl, h⟩
    · cases hx
    cases hx
    by_cases hc : isWordPart c = true
    · have hj (z : List Char) : joinedLengths n (c :: z) = [] ++ joinedLengths (n + 1) z := by
        simp [joinedLengths, hc]
      exact (ih (n + 1) (h.word_cases hc)).cons (by simp) (hj u) (hj v)
    by_cases hdash : c = '-'
    · subst hdash
      have hj {z : List Char} (hz : z.head?.any isAlphabetic = true) :
          joinedLengths n ('-' :: z) = [n] ++ joinedLengths (n + 1) z := by
        simp [joinedLengths, hc, hz]
      have hstop {z : List Char} (hz : z.head?.any isAlphabetic = false) :
          joinedLengths n ('-' :: z) = [n] := by
        simp [joinedLengths, hc, hz]
      cases h with
      | refl => exact .refl n _
      | @cons _ d u v h =>
        cases hd : isAlphabetic d with
        | true =>
          exact (ih (n + 1) (.inr ⟨d, u, v, rfl, rfl, h⟩)).cons (by simp) (hj (by simpa))
            (hj (by simpa))
        | false =>
          rw [SameEnds, hstop (by simpa), hstop (by simpa)]
          exact ⟨[], by simp⟩
      | seam h =>
        have hu : u.head?.any isAlphabetic = false := by
          rcases h.symbol with hu | hu <;> rw [hu] <;> decide
        obtain ⟨d, e, rest, rfl, hd, hde⟩ : ∃ d e rest, v = d :: e :: rest ∧
            isAlphabetic d = true ∧ (isWordPart d = true ∧ isWordPart e = true ∧
              ∀ w, Foreign ('-' :: d :: e :: w)) := by
          obtain ⟨rest, rfl | rfl⟩ := h.spelling
          · exact ⟨'a', 'n', rest, rfl, by decide, by decide, by decide,
              fun w => .inl ⟨[], w, rfl⟩⟩
          · exact ⟨'o', 'r', rest, rfl, by decide, by decide, by decide,
              fun w => .inr ⟨[], w, rfl⟩⟩
        rw [SameEnds, hstop hu, hj (by simpa)]
        refine ⟨_, rfl, by simp, fun m hm => ?_⟩
        have hm' : m ∈ joinedLengths (n + 1 + 1 + 1) rest := by
          simpa [joinedLengths, hde.1, hde.2.1] using hm
        have hle := (mem_joinedLengths_le hm').1
        rw [show m - n = (m - (n + 1 + 1 + 1)) + 1 + 1 + 1 by omega]
        exact hde.2.2 _
    · have hj (z : List Char) : joinedLengths n (c :: z) = [n] := by
        simp [joinedLengths, hc, hdash]
      rw [SameEnds, hj, hj]
      exact ⟨[], by simp⟩

theorem findSome?_congr_mem {α β : Type} {f g : α → Option β} {l : List α}
    (h : ∀ a ∈ l, f a = g a) : l.findSome? f = l.findSome? g := by
  induction l with
  | nil => rfl
  | cons a l ih =>
    rw [List.findSome?_cons, List.findSome?_cons, h a List.mem_cons_self,
      ih fun b hb => h b (List.mem_cons_of_mem a hb)]

theorem wordLength_eq (h : Alike b x y) (hb : isWordPart b = true) :
    wordLength y = wordLength x := by
  obtain ⟨extra, heq, hsame, hextra⟩ := sameEnds 0 (h.word_cases hb)
  obtain ⟨hplain, -⟩ := takeWhile_eq (fun _ => id) h hb
  have hnone : extra.reverse.findSome? (fun n =>
      (Kind.ofKeyword? (y.take n)).map fun k => (n, k)) = none := by
    refine List.findSome?_eq_none_iff.2 fun m hm => ?_
    have := hextra m (List.mem_reverse.1 hm)
    rw [Nat.sub_zero] at this
    rw [this.ofKeyword?]
    rfl
  have hends : (joinedLengths 0 x).reverse.findSome? (fun n =>
      (Kind.ofKeyword? (y.take n)).map fun k => (n, k)) =
      (joinedLengths 0 x).reverse.findSome? fun n =>
        (Kind.ofKeyword? (x.take n)).map fun k => (n, k) := by
    refine findSome?_congr_mem fun m hm => ?_
    have := hsame m (List.mem_reverse.1 hm)
    rw [Nat.sub_zero] at this
    rw [this]
  simp only [wordLength, plainWordLength, hplain, heq, List.reverse_append, List.findSome?_append,
    hnone, Option.none_or, hends]

end Alike

end RuleLang.Lexeme
