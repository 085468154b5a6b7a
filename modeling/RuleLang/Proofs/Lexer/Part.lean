import Mathlib.Data.List.Infix
import RuleLang.Proofs.Lexeme.Prefix
import RuleLang.Proofs.Recipe.RespelledText

/-!
# Parts of a text

Some leaves in a row are the tokens of their own text, if the last significant one of them needs
nothing after it to be read, and no consequence opens them.

## Main definitions

* `Kind.isOpen` — leaves that are read only with what comes after them.
* `Whole` — the last significant leaf needs nothing after it.

## Main statements

* `Lexes.part` — some leaves in a row are the tokens of their text.
-/

namespace RuleLang

open Text Lexeme

/-- Such a leaf is read only with what comes after it: `!.` with a name, a consequence with the
`end` that closes it. -/
def Kind.isOpen : Kind → Bool
  | .bangDot | .actionText => true
  | _ => false

/-- The last significant leaf needs nothing after it. -/
def Whole (ls : List Leaf) : Prop :=
  ∀ l post, l :: post <:+ ls → (∀ m ∈ post, m.kind.isTrivia = true) → l.kind.isOpen = false

theorem Whole.tail {l : Leaf} {ls : List Leaf} (h : Whole (l :: ls)) : Whole ls :=
  fun m post hpost => h m post (hpost.trans (List.suffix_cons l ls))

/-- A leaf that is open is followed by a significant one. -/
theorem Whole.exists_significant {l : Leaf} {ls : List Leaf} (h : Whole (l :: ls))
    (hl : l.kind.isOpen = true) : ∃ m ∈ ls, m.kind.isTrivia = false := by
  by_contra hnone
  push Not at hnone
  have := h l ls (List.suffix_refl _) fun m hm => by simpa using hnone m hm
  rw [hl] at this
  cases this

theorem Kind.ne_then_of_isTrivia {k : Kind} (h : k.isTrivia = true) : (k == .thenKw) = false := by
  cases k <;> first | rfl | cases h

theorem Kind.isTrivia_of_isKeyword {k : Kind} (h : k.isKeyword = true) : k.isTrivia = false := by
  cases k <;> first | rfl | cases h

theorem Kind.isOpen_of_isTrivia {k : Kind} (h : k.isTrivia = true) : k.isOpen = false := by
  cases k <;> first | rfl | cases h

theorem Kind.isOpen_of_isKeyword {k : Kind} (h : k.isKeyword = true) : k.isOpen = false := by
  cases k <;> first | rfl | cases h

/-! ## Keywords -/

namespace Lexeme

/-- A lexeme that starts with the character is a word. -/
def startsWord (c : Char) : Bool :=
  isWordStart c && !isBlank c && !c.isDigit && c != '/' && c != '"' && c != '\x27'

/-- What may start a word starts nothing else. -/
theorem startsWord_of_isWordStart {c : Char} (h : isWordStart c = true) : startsWord c = true := by
  have hpart := isWordPart_of_isWordStart h
  have hblank : isBlank c = false := by
    cases hb : isBlank c with
    | false => rfl
    | true => rw [isWordPart_of_isBlank hb] at hpart; cases hpart
  have hdigit : c.isDigit = false := by
    have hascii : ∀ n < 0x80, (Char.ofNat n).isDigit = true →
        isWordStart (Char.ofNat n) = false := by
      decide +kernel
    cases hd : c.isDigit with
    | false => rfl
    | true =>
      have hnone := hascii c.toNat (toNat_lt_of_isDigit hd)
      rw [Char.ofNat_toNat, h] at hnone
      exact absurd (hnone hd) (by decide)
  have hne {d : Char} (hd : isWordStart d = false) : c ≠ d := by
    rintro rfl
    rw [hd] at h
    cases h
  simp [startsWord, h, hblank, hdigit, hne (d := '/') (by decide), hne (d := '"') (by decide),
    hne (d := '\x27') (by decide)]

theorem normal_of_startsWord {c : Char} (hc : startsWord c = true) (rest : List Char) :
    normal c rest = ⟨(wordLength (c :: rest)).2, (wordLength (c :: rest)).1, none⟩ := by
  simp only [startsWord, Bool.and_eq_true, Bool.not_eq_true', bne_iff_ne] at hc
  obtain ⟨⟨⟨⟨⟨hword, hblank⟩, hdigit⟩, hslash⟩, hquote⟩, hquote'⟩ := hc
  have hbreak : isLineBreak c = false := by
    cases h : isLineBreak c with
    | false => rfl
    | true => rw [isBlank_of_isLineBreak h] at hblank; cases hblank
  simp [normal, hword, hblank, hdigit, hslash, hquote, hquote', hbreak]

/-- Outside a consequence a lexeme is what it is everywhere. -/
theorem normal_of_next {mode mode' : Mode} {c : Char} {rest : List Char} {l : Lexeme}
    (hl : l.kind ≠ .actionText) (h : next mode c rest = (l, mode')) : normal c rest = l := by
  rcases next_cases h with ⟨-, -, -, h⟩ | ⟨-, -, h⟩ | ⟨-, -, h⟩
  · exact h
  · exact absurd (congrArg Lexeme.kind h) hl
  · exact h

theorem length_punctuation_le {text : List Char} {k : Kind} {n : Nat}
    (h : punctuation? text = some (k, n)) : n ≤ 2 := by
  unfold punctuation? at h
  split at h
  · cases h
    exact le_rfl
  · obtain ⟨_, -, heq⟩ := Option.map_eq_some_iff.1 h
    cases heq
    decide

end Lexeme

/-- Keywords are spelled with letters and hyphens. -/
theorem Kind.startsWord_of_keyword :
    ∀ p ∈ Kind.keywordTable, ∀ c ∈ p.1, c = '-' ∨ startsWord c = true := by
  have h : (Kind.keywordTable.all fun p => p.1.all fun c => c == '-' || startsWord c) = true := by
    decide +kernel
  simpa only [List.all_eq_true, Bool.or_eq_true, beq_iff_eq] using h

/-- No keyword ends with a hyphen or with a single character after one. -/
theorem Kind.length_after_hyphen :
    ∀ p ∈ Kind.keywordTable, ∀ w ∈ p.1.tails, w.head? = some '-' → 2 < w.length := by
  have h : (Kind.keywordTable.all fun p =>
      p.1.tails.all fun w => w.head? != some '-' || decide (2 < w.length)) = true := by
    decide +kernel
  simpa only [List.all_eq_true, Bool.or_eq_true, bne_iff_ne, ne_eq, decide_eq_true_eq,
    ← imp_iff_not_or] using h

/-- If leaves are spelled together like a keyword, no part of a word comes after them. -/
theorem Lexes.head_after_keyword {mode : Mode} {q : Leaf} {more : List Leaf} {p : List Char × Kind}
    (h : Lexes mode (q :: more)) (hq : q.kind ≠ .actionText) (hp : p ∈ Kind.keywordTable)
    (hsuffix : q.text <:+ p.1) : (textOf more).head?.any isWordPart = false := by
  obtain ⟨c, rest, mode', htext, hnext, -⟩ := h
  have hnormal := normal_of_next hq hnext
  rw [htext] at hsuffix hnormal
  have hc := Kind.startsWord_of_keyword p hp c (hsuffix.subset List.mem_cons_self)
  rcases hc with rfl | hc
  · have htwo := Kind.length_after_hyphen p hp _ ((List.mem_tails _ _).2 hsuffix) rfl
    have hshort : (normal '-' (rest ++ textOf more)).length ≤ 2 := by
      refine normal_cases (P := fun l => l.length ≤ 2) '-' _ ?_ ?_ ?_ ?_ ?_ ?_
        (fun _ _ h => length_punctuation_le h) (by decide)
      all_goals exact fun h => absurd h (by decide)
    rw [hnormal] at hshort
    exact absurd hshort (Nat.not_le_of_lt htwo)
  · rw [normal_of_startsWord hc] at hnormal
    have hlength : (wordLength (c :: (rest ++ textOf more))).1 = (c :: rest).length :=
      congrArg Lexeme.length hnormal
    have hhead := head_of_wordLength (c :: (rest ++ textOf more))
    rwa [hlength, ← List.cons_append, List.drop_left] at hhead

/-! ## The end of a consequence -/

namespace Lexeme

/-- Outside a consequence only punctuation is open. -/
theorem punctuation_of_isOpen {c : Char} {rest : List Char}
    (h : (normal c rest).kind.isOpen = true) :
    punctuation? (c :: rest) = some ((normal c rest).kind, (normal c rest).length) := by
  revert h
  refine normal_cases (P := fun l => l.kind.isOpen = true →
    punctuation? (c :: rest) = some (l.kind, l.length)) c rest (fun _ h => by cases h)
    (fun _ h => by cases h) ?_ (fun _ h => by cases h) ?_ ?_ (fun _ _ h _ => h) fun h => by cases h
  · intro _ h
    rcases kind_slash (c :: rest) with hk | hk | hk | hk <;> rw [hk] at h <;> cases h
  · intro _ h
    rcases kind_number (c :: rest) with hk | hk <;> rw [hk] at h <;> cases h
  · intro _ h
    rcases kind_word (c :: rest) with hk | hk
    · rw [hk] at h
      cases h
    · rw [Kind.isOpen_of_isKeyword hk] at h
      cases h

theorem kind_normal_ne_action (c : Char) (rest : List Char) :
    (normal c rest).kind ≠ .actionText := by
  intro h
  have hp := punctuation_of_isOpen (c := c) (by rw [h]; rfl)
  rw [h] at hp
  exact absurd rfl (bne_iff_ne.1 (kind_of_punctuation (q := (· != .actionText)) hp (by decide)))

/-- How a consequence is found. -/
theorem of_next_action {mode mode' : Mode} {c : Char} {rest : List Char} {n : Nat}
    {fault : Option Fault} (h : next mode c rest = (⟨.actionText, n, fault⟩, mode')) :
    mode' = .normal ∧ actionLength (c :: rest) = n := by
  rcases next_cases h with ⟨-, -, -, h⟩ | ⟨-, hmode, h⟩ | ⟨-, -, h⟩
  · exact absurd (congrArg Lexeme.kind h) (kind_normal_ne_action c rest)
  · exact ⟨hmode, (congrArg Lexeme.length h).symm⟩
  · exact absurd (congrArg Lexeme.kind h) (kind_normal_ne_action c rest)

/-- A lexeme that starts with a blank consists of blanks. -/
theorem isBlank_of_normal {c : Char} {rest more : List Char} {k : Kind} (hc : isBlank c = true)
    (h : normal c (rest ++ more) = ⟨k, rest.length + 1, none⟩) :
    ∀ d ∈ c :: rest, isBlank d = true := by
  cases hbreak : isLineBreak c with
  | true =>
    have hlength : newlineLength (c :: (rest ++ more)) = rest.length + 1 := by
      simpa [normal, hbreak] using congrArg Lexeme.length h
    rw [newlineLength_cons] at hlength
    split at hlength
    · rename_i hpair
      obtain ⟨d, rfl⟩ := List.length_eq_one_iff.1 (show rest.length = 1 by omega)
      have hd : d = '\n' := by simpa using (Bool.and_eq_true_iff.1 hpair).2
      rw [hd]
      exact List.forall_mem_cons.2 ⟨hc, List.forall_mem_singleton.2 (by decide)⟩
    · obtain rfl := List.length_eq_zero_iff.1 (show rest.length = 0 by omega)
      simpa using hc
  | false =>
    have hlength : ((c :: rest ++ more).takeWhile isInlineBlank).length = (c :: rest).length := by
      simpa [normal, hbreak, hc, blankLength] using congrArg Lexeme.length h
    have hrun : (c :: rest ++ more).takeWhile isInlineBlank = c :: rest :=
      eq_of_isPrefix_append (List.takeWhile_prefix _) hlength
    intro d hd
    have : isInlineBlank d = true := List.mem_takeWhile_imp (hrun ▸ hd)
    exact (Bool.and_eq_true_iff.1 this).1

end Lexeme

/-- Blanks that open a text are among the blanks that it opens with. -/
theorem eq_append_of_blanks {t y blanks x : List Char} (ht : ∀ d ∈ t, isBlank d = true)
    (hx : x.head?.any isBlank = false) (h : t ++ y = blanks ++ x) :
    ∃ bs, blanks = t ++ bs ∧ y = bs ++ x := by
  induction t generalizing blanks with
  | nil => exact ⟨blanks, rfl, h⟩
  | cons d t ih =>
    obtain ⟨hd, ht⟩ := List.forall_mem_cons.1 ht
    cases blanks with
    | nil =>
      rw [List.nil_append] at h
      rw [← h, List.cons_append, List.head?_cons, Option.any_some, hd] at hx
      cases hx
    | cons b blanks =>
      rw [List.cons_append, List.cons_append, List.cons.injEq] at h
      obtain ⟨rfl, h⟩ := h
      obtain ⟨bs, rfl, rfl⟩ := ih ht h
      exact ⟨bs, rfl, rfl⟩

theorem textOf_append (ls more : List Leaf) : textOf (ls ++ more) = textOf ls ++ textOf more :=
  List.flatMap_append

/-- The `end` that closes a consequence is one of the leaves after it, if one of them is
significant. -/
theorem Lexes.end_within {ls more : List Leaf} {blanks x : List Char}
    (h : Lexes .normal (ls ++ more))
    (hblanks : ∀ d ∈ blanks, isBlank d = true)
    (hx : x = [] ∨ ∃ after, x = 'e' :: 'n' :: 'd' :: after ∧ after.head?.any isWordPart = false)
    (htext : textOf (ls ++ more) = blanks ++ x) (hls : ∃ l ∈ ls, l.kind.isTrivia = false) :
    ∃ after, textOf ls = blanks ++ 'e' :: 'n' :: 'd' :: after := by
  induction ls generalizing blanks with
  | nil =>
    obtain ⟨l, hl, -⟩ := hls
    cases hl
  | cons l ls ih =>
    obtain ⟨c, rest, mode', hl, hnext, hrest⟩ := h
    rw [next_normal, Prod.mk.injEq] at hnext
    obtain ⟨hnormal, hmode⟩ := hnext
    rw [List.cons_append, textOf_cons] at htext
    rw [hl] at hnormal
    cases blanks with
    | nil =>
      rcases hx with rfl | ⟨after, rfl, hword⟩
      · simp [hl] at htext
      · rw [hl, List.nil_append, List.cons_append, List.cons.injEq] at htext
        obtain ⟨rfl, htext⟩ := htext
        obtain ⟨rest, rfl, -⟩ := end_of_normal (congrArg Lexeme.length hnormal) htext hword
        exact ⟨rest ++ textOf ls, by rw [textOf_cons, hl]; rfl⟩
    | cons b blanks =>
      obtain rfl : c = b := by
        rw [hl] at htext
        exact (List.cons.inj htext).1
      have hc := hblanks c List.mem_cons_self
      have hhead : x.head?.any isBlank = false := by
        rcases hx with rfl | ⟨after, rfl, -⟩
        · rfl
        · exact (rfl : isBlank 'e' = false)
      obtain ⟨bs, hbs, htext⟩ :=
        eq_append_of_blanks (hl ▸ isBlank_of_normal hc hnormal) hhead htext
      have htrivia : l.kind.isTrivia = true := by
        have htrivia : (normal c (rest ++ textOf (ls ++ more))).kind.isTrivia = true :=
          isTrivia_of_isBlank hc
        exact (congrArg (fun m => m.kind.isTrivia) hnormal).symm.trans htrivia
      have hmode' : mode' = .normal := by
        rw [← hmode, hnormal]
        simp only [Kind.ne_then_of_isTrivia htrivia, Bool.false_eq_true, if_false]
      rw [hbs] at hblanks ⊢
      obtain ⟨m, hm, hsignificant⟩ := hls
      have hm : m ∈ ls := by
        rcases List.mem_cons.1 hm with rfl | hm
        · rw [htrivia] at hsignificant
          cases hsignificant
        · exact hm
      obtain ⟨after, hafter⟩ := ih (hmode' ▸ hrest)
        (fun d hd => hblanks d (List.mem_append_right _ hd)) htext ⟨m, hm, hsignificant⟩
      exact ⟨after, by rw [textOf_cons, hafter, List.append_assoc]⟩

/-! ## Names after `!.` -/

namespace Lexeme

theorem isWordStart_of_punctuation {c : Char} {rest : List Char} {n : Nat}
    (h : punctuation? (c :: rest) = some (.bangDot, n)) :
    (rest.drop (n - 1)).head?.any isWordStart = true := by
  have hlookup {α : Type} [BEq α] [LawfulBEq α] {a : α} {table : List (α × Kind)}
      (htable : (table.map Prod.snd).all (· != .bangDot) = true)
      (h : table.lookup a = some .bangDot) : False := by
    simpa using List.all_eq_true.1 htable _ (List.mem_map.2 ⟨(a, _), mem_of_lookup h, rfl⟩)
  unfold punctuation? at h
  split at h
  · rename_i hdouble
    cases h
    cases rest with
    | nil => simp [double?] at hdouble
    | cons d rest =>
      rw [double?_cons] at hdouble
      split at hdouble
      · split at hdouble
        · assumption
        · cases hdouble
      · exact (hlookup (by decide) hdouble).elim
  · obtain ⟨k, hk, heq⟩ := Option.map_eq_some_iff.1 h
    cases heq
    exact (hlookup (by decide) hk).elim

/-- `!.` comes before a name. -/
theorem isWordStart_of_bangDot {c : Char} {rest : List Char} (h : (normal c rest).kind = .bangDot) :
    (rest.drop ((normal c rest).length - 1)).head?.any isWordStart = true :=
  isWordStart_of_punctuation (h ▸ punctuation_of_isOpen (by rw [h]; rfl))

/-- A word starts with no trivia. -/
theorem isWordPart_of_isTrivia {c : Char} {rest : List Char}
    (h : (normal c rest).kind.isTrivia = true) : isWordPart c = false := by
  revert h
  refine normal_cases (P := fun l => l.kind.isTrivia = true → isWordPart c = false) c rest
    (fun hc _ => isWordPart_of_isBlank (isBlank_of_isLineBreak hc))
    (fun hc _ => isWordPart_of_isBlank hc) ?_ (fun _ h => by cases h) ?_ ?_ ?_ fun h => by cases h
  · rintro rfl -
    decide
  · intro _ h
    rcases kind_number (c :: rest) with hk | hk <;> rw [hk] at h <;> cases h
  · intro _ h
    rcases kind_word (c :: rest) with hk | hk
    · rw [hk] at h
      cases h
    · rw [Kind.isTrivia_of_isKeyword hk] at h
      cases h
  · intro k n hp h
    have := kind_of_punctuation (q := fun k => !k.isTrivia) hp (by decide)
    simp [h] at this

end Lexeme

/-- A significant leaf comes after `!.`. -/
theorem Lexes.significant_after_bangDot {mode : Mode} {l : Leaf} {ls : List Leaf}
    (h : Lexes mode (l :: ls)) (hl : l.kind = .bangDot) : ∃ m ∈ ls, m.kind.isTrivia = false := by
  obtain ⟨c, rest, mode', htext, hnext, hls⟩ := h
  have hnormal := normal_of_next (by simp [hl]) hnext
  have hbang : (normal c (rest ++ textOf ls)).kind = .bangDot := by rw [hnormal, hl]
  have hword := isWordStart_of_bangDot hbang
  rw [hnormal, htext, List.length_cons, Nat.add_sub_cancel, List.drop_left] at hword
  cases ls with
  | nil => cases hword
  | cons m ls =>
    obtain ⟨d, more, mode'', hm, hnext, -⟩ := hls
    rw [textOf_cons, hm] at hword
    refine ⟨m, List.mem_cons_self, ?_⟩
    by_contra htrivia
    have hkind : m.kind ≠ .actionText := fun h => htrivia (by rw [h]; rfl)
    have hnormal : (normal d (more ++ textOf ls)).kind.isTrivia = true := by
      rw [normal_of_next hkind hnext]
      simpa using htrivia
    have hd := isWordPart_of_isTrivia hnormal
    rw [isWordPart_of_isWordStart (by simpa using hword)] at hd
    cases hd

/-! ## Parts -/

/-- The leaf that opens a text is the lexeme that it is if the text ends after some more leaves. -/
theorem Lexes.next_of_append {mode mode' : Mode} {c : Char} {rest : List Char} {l : Leaf}
    {ls more : List Leaf} (hl : l.text = c :: rest)
    (hnext : next mode c (rest ++ textOf (ls ++ more)) = (⟨l.kind, l.text.length, none⟩, mode'))
    (hrest : Lexes mode' (ls ++ more)) (hls : Whole (l :: ls)) :
    next mode c (rest ++ textOf ls) = (⟨l.kind, l.text.length, none⟩, mode') := by
  have hwhole : Lexes mode (l :: ls ++ more) := ⟨c, rest, mode', hl, hnext, hrest⟩
  have htext : textOf (ls ++ more) = textOf ls ++ textOf more := textOf_append ls more
  have hcut : next mode c (rest ++ (textOf ls ++ textOf more)) =
      (⟨l.kind, rest.length + 1, none⟩, mode') := by
    rw [← htext, show rest.length + 1 = l.text.length by rw [hl]; rfl]
    exact hnext
  rw [hl]
  refine next_of_cut (fun hbang => ?_) (fun hnormal hc => ?_) (fun haction => ?_) hcut
  · obtain ⟨m, hm, -⟩ := hls.exists_significant (by simp [Kind.isOpen, hbang])
    intro hnil
    have hmem : m.text ≠ [] := Lexes.text_ne_nil hrest m (List.mem_append_left _ hm)
    exact hmem (List.flatMap_eq_nil_iff.1 hnil m hm)
  · cases hkeyword : Kind.ofKeyword? (c :: (rest ++ textOf ls)) with
    | none => exact .inl rfl
    | some k =>
      refine .inr ?_
      -- the last leaf is spelled like the end of a keyword
      obtain ⟨init, q, hq⟩ : ∃ init q, l :: ls = init ++ [q] :=
        ⟨_, _, (List.dropLast_concat_getLast (List.cons_ne_nil l ls)).symm⟩
      have hqmore : ∃ mode, Lexes mode (q :: more) := by
        have := hwhole
        rw [hq, List.append_assoc] at this
        exact this.append
      obtain ⟨mode'', hqmore⟩ := hqmore
      refine hqmore.head_after_keyword (fun haction => ?_) (mem_of_lookup hkeyword) ?_
      · have := hls q [] ⟨init, hq.symm⟩ (by simp)
        simp [Kind.isOpen, haction] at this
      · have hspelled : c :: (rest ++ textOf ls) = textOf init ++ q.text := by
          rw [← List.cons_append, ← hl, ← textOf_cons, hq, textOf_append]
          simp
        exact ⟨textOf init, hspelled.symm⟩
  · obtain ⟨rfl, hlength⟩ := of_next_action (haction ▸ hcut)
    obtain ⟨blanks, hblanks, -, hends⟩ :=
      @follows_action (c :: rest) (textOf ls ++ textOf more) hlength
    have hsignificant := hls.exists_significant (by simp [Kind.isOpen, haction])
    rw [← htext] at hends
    rcases hends with hends | ⟨after, hends, hword, -⟩
    · obtain ⟨after, hafter⟩ := hrest.end_within hblanks (.inl rfl)
        (by rw [hends, List.append_nil]) hsignificant
      exact ⟨blanks, after, hblanks, hafter⟩
    · obtain ⟨after, hafter⟩ := hrest.end_within hblanks (.inr ⟨after, rfl, hword⟩)
        (by rw [hends, List.append_assoc]; rfl) hsignificant
      exact ⟨blanks, after, hblanks, hafter⟩

/-- Leaves that open a text are the tokens of their own text. -/
theorem Lexes.of_append {mode : Mode} {ls more : List Leaf} (h : Lexes mode (ls ++ more))
    (hls : Whole ls) : Lexes mode ls := by
  induction ls generalizing mode with
  | nil => trivial
  | cons l ls ih =>
    obtain ⟨c, rest, mode', hl, hnext, hrest⟩ := h
    exact ⟨c, rest, mode', hl, next_of_append hl hnext hrest hls, ih hrest hls.tail⟩

/-- Leaves that no consequence opens are read outside consequences. -/
theorem Lexes.normal {mode : Mode} {ls : List Leaf} (h : Lexes mode ls)
    (hls : ∀ pre l, pre ++ [l] <+: ls → (∀ m ∈ pre, m.kind.isTrivia = true) →
      l.kind ≠ .actionText) : Lexes .normal ls := by
  induction ls generalizing mode with
  | nil => trivial
  | cons l ls ih =>
    obtain ⟨c, rest, mode', hl, hnext, hrest⟩ := h
    rcases next_cases hnext with ⟨-, rfl, htrivia, hnormal⟩ | ⟨-, -, haction⟩ | ⟨-, rfl, hnormal⟩
    · have hkind : l.kind.isTrivia = true := by
        have := isTrivia_of_startsTrivia htrivia
        rwa [hnormal] at this
      refine ⟨c, rest, .normal, hl, ?_, ih hrest fun pre m hpre hall => ?_⟩
      · rw [next_normal, hnormal]
        simp only [Kind.ne_then_of_isTrivia hkind, Bool.false_eq_true, if_false]
      · exact hls (l :: pre) m (List.cons_prefix_cons.2 ⟨rfl, hpre⟩)
          (List.forall_mem_cons.2 ⟨hkind, hall⟩)
    · exact absurd (congrArg Lexeme.kind haction)
        (hls [] l (List.cons_prefix_cons.2 ⟨rfl, List.nil_prefix⟩) (by simp))
    · refine ⟨c, rest, _, hl, ?_, hrest⟩
      rw [next_normal, hnormal]

/-- Some leaves in a row are the tokens of their text. -/
theorem Lexes.part {mode : Mode} {before ls more : List Leaf}
    (h : Lexes mode (before ++ (ls ++ more))) (hwhole : Whole ls)
    (hls : ∀ pre l, pre ++ [l] <+: ls → (∀ m ∈ pre, m.kind.isTrivia = true) →
      l.kind ≠ .actionText) : Lexes .normal ls := by
  obtain ⟨mode', h⟩ := h.append
  exact (h.of_append hwhole).normal hls

end RuleLang
