import RuleLang.Proofs.Lexer.Concat

/-!
# Lexemes of a text that is cut short

A lexeme is the longest that fits, so what comes after it has to be known before it is known to end.
Where the text is cut after a lexeme nothing can lengthen it, but three lexemes are no longer what
they were: `!.` needs the name after it, a consequence the `end` that closes it, and a word that
goes on after the cut may become a keyword without what is cut off.

## Main statements

* `next_of_cut` — the lexeme that opens a text is the same if the text is cut after it.
-/

namespace RuleLang.Lexeme

open Text SameLine

/-! ## Runs of characters -/

theorem takeWhile_of_cut {p : Char → Bool} {w u s : List Char}
    (h : ((w ++ (u ++ s)).takeWhile p).length = w.length) :
    ((w ++ u).takeWhile p).length = w.length := by
  have hhead : u.head?.any p = false := by
    have := head_of_takeWhile h
    cases u with
    | nil => rfl
    | cons d u => exact this
  have hall : ((w ++ (u ++ s)).takeWhile p) = w.takeWhile p :=
    takeWhile_append_of_head w (head_of_takeWhile h)
  rw [takeWhile_append_of_head w hhead, ← hall, h]

/-- What the next character is asked for is not asked if the text ends here. -/
theorem head_of_cut {p : Char → Bool} {u s : List Char} (h : (u ++ s).head?.any p = false) :
    u.head?.any p = false := by
  cases u with
  | nil => rfl
  | cons d u => exact h

/-! ## Numbers -/

theorem takeWhile_take_of_le {p : Char → Bool} {text : List Char} {m : Nat}
    (h : (text.takeWhile p).length ≤ m) : (text.take m).takeWhile p = text.takeWhile p := by
  rw [← List.take_takeWhile, List.take_of_length_le h]

theorem length_takeWhile_take (p : Char → Bool) (text : List Char) (m : Nat) :
    ((text.take m).takeWhile p).length = min m (text.takeWhile p).length := by
  rw [← List.take_takeWhile, List.length_take]

theorem fractionLength_take {text : List Char} {m : Nat} (h : fractionLength text ≤ m) :
    fractionLength (text.take m) = fractionLength text := by
  cases text with
  | nil => rw [List.take_nil]
  | cons c cs =>
    cases m with
    | zero => exact (Nat.le_zero.1 h).symm
    | succ m =>
      rw [List.take_succ_cons]
      cases hc : c == '.' with
      | false => rw [fractionLength_of_ne hc, fractionLength_of_ne hc]
      | true =>
        obtain rfl := beq_iff_eq.1 hc
        simp only [fractionLength, length_takeWhile_take] at h ⊢
        cases hn : (cs.takeWhile Char.isDigit).length with
        | zero => rw [Nat.min_zero]
        | succ n =>
          rw [hn] at h
          rw [Nat.min_eq_right (Nat.le_of_succ_le_succ h)]

theorem exponentLength_take {text : List Char} {m : Nat} (h : exponentLength text ≤ m) :
    exponentLength (text.take m) = exponentLength text := by
  cases text with
  | nil => rw [List.take_nil]
  | cons e cs =>
    cases m with
    | zero => exact (Nat.le_zero.1 h).symm
    | succ m =>
      rw [List.take_succ_cons]
      cases he : e == 'e' || e == 'E' with
      | false => rw [exponentLength_of_ne he, exponentLength_of_ne he]
      | true =>
        simp only [exponentLength, he, if_true] at h ⊢
        cases m with
        | zero =>
          generalize (if cs.head? == some '+' || cs.head? == some '-' then 1 else 0) = sign at h ⊢
          cases hn : ((cs.drop sign).takeWhile Char.isDigit).length with
          | zero => rfl
          | succ n =>
            rw [hn] at h
            exact absurd (show 1 + sign + (n + 1) ≤ 0 + 1 from h) (by omega)
        | succ m =>
          have hhead : (cs.take (m + 1)).head? = cs.head? := by
            cases cs <;> rfl
          rw [hhead]
          generalize (if cs.head? == some '+' || cs.head? == some '-' then 1 else 0) = sign at h ⊢
          rw [List.drop_take, length_takeWhile_take]
          cases hn : ((cs.drop sign).takeWhile Char.isDigit).length with
          | zero => rw [Nat.min_zero]
          | succ n =>
            rw [hn] at h
            have hle : 1 + sign + (n + 1) ≤ m + 1 + 1 := h
            rw [Nat.min_eq_right (by omega)]

theorem decimal_take {text : List Char} {m : Nat} (h : (digitsLength.decimal text).1 ≤ m) :
    digitsLength.decimal (text.take m) = digitsLength.decimal text := by
  simp only [digitsLength.decimal] at h ⊢
  generalize hwhole : (text.takeWhile fun c => c.isDigit || c == '_').length = whole at h ⊢
  rw [takeWhile_take_of_le (by omega), hwhole, List.drop_take, fractionLength_take (by omega),
    List.drop_take, exponentLength_take (by omega)]

theorem digitsLength_take {text : List Char} {m : Nat} (h : (digitsLength text).1 ≤ m) :
    digitsLength (text.take m) = digitsLength text := by
  cases text with
  | nil => rw [List.take_nil]
  | cons c cs =>
    cases m with
    | zero =>
      have hzero : digitsLength (c :: cs) = digitsLength.decimal (c :: cs) := by
        rw [digitsLength_cons] at h ⊢
        split at h
        · dsimp only at h
          omega
        · rw [if_neg ‹_›]
      rw [hzero] at h ⊢
      exact decimal_take h
    | succ m =>
      rw [List.take_succ_cons, digitsLength_cons, digitsLength_cons]
      rw [digitsLength_cons] at h
      by_cases hx : (c == '0' && cs.head?.any fun d => d == 'x' || d == 'X') = true
      · rw [if_pos hx] at h ⊢
        dsimp only at h
        obtain ⟨m, rfl⟩ : ∃ k, m = k + 1 := ⟨m - 1, by omega⟩
        cases cs with
        | nil => simp at hx
        | cons d cs =>
          rw [List.take_succ_cons, List.head?_cons, List.tail_cons]
          rw [List.head?_cons] at hx
          rw [if_pos hx, takeWhile_take_of_le (by rw [List.tail_cons] at h; omega), List.tail_cons]
      · rw [if_neg hx] at h
        have hx' : ¬ (c == '0' && (cs.take m).head?.any fun d => d == 'x' || d == 'X') = true := by
          cases m with
          | zero => simp
          | succ m => cases cs <;> exact hx
        rw [if_neg hx, if_neg hx']
        exact decimal_take h

theorem numberLength_take {text : List Char} {m : Nat} (h : (numberLength text).1 ≤ m) :
    numberLength (text.take m) = numberLength text := by
  simp only [numberLength] at h ⊢
  rw [digitsLength_take (by omega), List.drop_take, takeWhile_take_of_le (by omega)]

/-! ## Words -/

theorem filter_joinedLengths {n k : Nat} (text : List Char) (h : n < k) :
    (joinedLengths k text).filter (fun m => decide (m ≤ n)) = [] := by
  refine List.filter_eq_nil_iff.2 fun m hm => ?_
  have := (mem_joinedLengths_le hm).1
  simp only [decide_eq_true_eq]
  omega

/-- The places where a word may end, if the text is cut: those up to the cut, and the cut itself if
it goes through a part of a word. -/
theorem joinedLengths_take (n m : Nat) (text : List Char) :
    ∃ extra, joinedLengths n (text.take m) =
        (joinedLengths n text).filter (fun k => decide (k ≤ n + m)) ++ extra ∧
      (extra = [] ∨ extra = [n + m] ∧ (text.drop m).head?.any isWordPart = true) := by
  induction text generalizing n m with
  | nil => exact ⟨[], by simp [joinedLengths], .inl rfl⟩
  | cons c rest ih =>
    by_cases hc : isWordPart c = true
    · cases m with
      | zero =>
        refine ⟨[n], ?_, .inr ⟨rfl, hc⟩⟩
        rw [joinedLengths_cons, if_pos hc, filter_joinedLengths rest (by omega)]
        rfl
      | succ m =>
        obtain ⟨extra, heq, hextra⟩ := ih (n + 1) m
        rw [show n + 1 + m = n + (m + 1) by omega] at heq hextra
        refine ⟨extra, ?_, hextra⟩
        rw [List.take_succ_cons, joinedLengths_cons, joinedLengths_cons, if_pos hc, if_pos hc, heq]
    · by_cases hdash : (c == '-' && rest.head?.any isAlphabetic) = true
      · cases m with
        | zero =>
          refine ⟨[], ?_, .inl rfl⟩
          rw [joinedLengths_cons, if_neg hc, if_pos hdash, List.filter_cons_of_pos (by simp),
            filter_joinedLengths rest (by omega)]
          rfl
        | succ m =>
          cases m with
          | zero =>
            -- the hyphen alone joins nothing
            refine ⟨[], ?_, .inl rfl⟩
            cases rest with
            | nil => simp at hdash
            | cons d rest =>
              have hd : isWordPart d = true := by
                have : isAlphabetic d = true := (Bool.and_eq_true_iff.1 hdash).2
                simp [isWordPart, isAlphanumeric_of_isAlphabetic this]
              rw [joinedLengths_cons, if_neg hc, if_pos hdash, List.filter_cons_of_pos (by simp),
                joinedLengths_cons, if_pos hd, filter_joinedLengths rest (by omega),
                List.take_succ_cons, List.take_zero, joinedLengths_cons, if_neg hc]
              simp
          | succ m =>
            obtain ⟨extra, heq, hextra⟩ := ih (n + 1) (m + 1)
            rw [show n + 1 + (m + 1) = n + (m + 1 + 1) by omega] at heq hextra
            refine ⟨extra, ?_, hextra⟩
            have hhead : (rest.take (m + 1)).head? = rest.head? := by
              cases rest <;> rfl
            rw [List.take_succ_cons, joinedLengths_cons, joinedLengths_cons, if_neg hc, if_neg hc,
              hhead, if_pos hdash, if_pos hdash, List.filter_cons_of_pos (by simp), heq]
            rfl
      · refine ⟨[], ?_, .inl rfl⟩
        rw [joinedLengths_cons, if_neg hc, if_neg hdash, List.filter_cons_of_pos (by simp)]
        cases m with
        | zero => rfl
        | succ m =>
          rw [List.take_succ_cons, joinedLengths_cons, if_neg hc, if_neg]
          · rfl
          · intro hcut
            refine hdash ?_
            rw [Bool.and_eq_true] at hcut ⊢
            refine ⟨hcut.1, ?_⟩
            cases m with
            | zero => simp at hcut
            | succ m =>
              cases rest with
              | nil => simp at hcut
              | cons d rest => exact hcut.2

/-- Candidates beyond a bound may be left out if the first that fits is within it. -/
theorem findSome?_filter {α β : Type} {f : α → Option β} {p : α → Bool} {l : List α}
    (h : ∀ a ∈ l, (f a).isSome = true → l.findSome? f = f a → p a = true) :
    (l.filter p).findSome? f = l.findSome? f := by
  induction l with
  | nil => rfl
  | cons a l ih =>
    cases hf : f a with
    | some b =>
      have hp : p a = true := h a List.mem_cons_self (by rw [hf]; rfl) (by simp [hf])
      rw [List.filter_cons_of_pos hp, List.findSome?_cons, List.findSome?_cons, hf]
    | none =>
      have ih := ih fun b hb hsome heq => h b (List.mem_cons_of_mem a hb) hsome (by simpa [hf])
      rw [List.findSome?_cons, hf, ← ih]
      cases hp : p a with
      | true => simp [hp, hf]
      | false => simp [hp]

/-- The word that opens a text ends where it did if the text is cut behind it, unless what is left
up to the cut is a keyword and the word went on. -/
theorem wordLength_take {text : List Char} {m : Nat} (h : (wordLength text).1 ≤ m)
    (hcut : Kind.ofKeyword? (text.take m) = none ∨ (text.drop m).head?.any isWordPart = false) :
    wordLength (text.take m) = wordLength text := by
  have hplain : plainWordLength (text.take m) = plainWordLength text := by
    rw [plainWordLength, takeWhile_take_of_le ((plainWordLength_le_wordLength text).trans h)]
    rfl
  obtain ⟨extra, hends, hextra⟩ := joinedLengths_take 0 m text
  rw [Nat.zero_add] at hends hextra
  let keyword? (text : List Char) (n : Nat) : Option (Nat × Kind) :=
    (Kind.ofKeyword? (text.take n)).map fun k => (n, k)
  have hnone : extra.reverse.findSome? (keyword? (text.take m)) = none := by
    rcases hextra with rfl | ⟨rfl, hword⟩
    · rfl
    · have hno := hcut.resolve_right (by rw [hword]; decide)
      simp [keyword?, List.take_take, hno]
  have hsame : ((joinedLengths 0 text).reverse.filter fun k => decide (k ≤ m)).findSome?
      (keyword? (text.take m)) =
        ((joinedLengths 0 text).reverse.filter fun k => decide (k ≤ m)).findSome?
          (keyword? text) := by
    refine Alike.findSome?_congr_mem fun k hk => ?_
    have hle : k ≤ m := by simpa using (List.mem_filter.1 hk).2
    simp only [keyword?, List.take_take, Nat.min_eq_left hle]
  have hlong : ((joinedLengths 0 text).reverse.filter fun k => decide (k ≤ m)).findSome?
      (keyword? text) = (joinedLengths 0 text).reverse.findSome? (keyword? text) := by
    refine findSome?_filter fun n _ hsome hfirst => ?_
    obtain ⟨found, hfound⟩ := Option.isSome_iff_exists.1 hsome
    obtain ⟨k, -, rfl⟩ := Option.map_eq_some_iff.1 hfound
    have hlength : (wordLength text).1 = n := by
      change ((List.findSome? (keyword? text) _).getD _).1 = n
      rw [hfirst, hfound]
      rfl
    simpa [hlength] using h
  change (List.findSome? (keyword? (text.take m)) _).getD _ =
    (List.findSome? (keyword? text) _).getD _
  rw [hends, List.reverse_append, List.findSome?_append, hnone, Option.none_or,
    ← List.filter_reverse, hsame, hlong, hplain]

/-! ## Other lexemes -/

section

variable {c : Char} {w u s : List Char} {k : Kind}

/-- Punctuation of two characters is not found where one was found. -/
theorem double?_of_cut (h : double? (c :: (u ++ s)) = none) : double? (c :: u) = none := by
  cases u with
  | nil =>
    unfold double?
    split
    · rename_i heq
      cases heq
    · rename_i heq
      cases heq
    · rfl
  | cons d u =>
    rw [List.cons_append] at h
    rw [double?_cons] at h ⊢
    by_cases hc : c = '!' ∧ d = '.'
    · rw [if_pos hc] at h ⊢
      cases u with
      | nil => rfl
      | cons e u => exact h
    · rwa [if_neg hc] at h ⊢

theorem punctuation?_of_cut (hbang : k = .bangDot → u ≠ [])
    (h : punctuation? (c :: (w ++ (u ++ s))) = some (k, w.length + 1)) :
    punctuation? (c :: (w ++ u)) = some (k, w.length + 1) := by
  rw [punctuation?_cons] at h ⊢
  cases hd : double? (c :: (w ++ (u ++ s))) with
  | none =>
    rw [hd] at h
    obtain ⟨k', hk', heq⟩ := Option.map_eq_some_iff.1 h
    obtain rfl : w = [] := List.length_eq_zero_iff.1 (by simpa using (congrArg Prod.snd heq).symm)
    rw [List.nil_append] at hd ⊢
    rwa [double?_of_cut hd]
  | some k' =>
    rw [hd] at h
    obtain ⟨d, rfl⟩ : ∃ d, w = [d] :=
      List.length_eq_one_iff.1 (by simpa using (congrArg Prod.snd (Option.some.inj h)).symm)
    have hk : k' = k := congrArg Prod.fst (Option.some.inj h)
    subst hk
    rw [List.singleton_append, double?_cons] at hd ⊢
    by_cases hc : c = '!' ∧ d = '.'
    · rw [if_pos hc] at hd ⊢
      have hk : k' = .bangDot := by
        split at hd
        · exact (Option.some.inj hd).symm
        · cases hd
      obtain ⟨e, u, rfl⟩ := List.exists_cons_of_ne_nil (hbang hk)
      rw [List.cons_append, List.head?_cons] at hd
      rw [List.head?_cons, hd]
      exact h
    · rw [if_neg hc] at hd ⊢
      rw [hd]
      exact h

/-- The next character is the same, if there is one. -/
theorem head?_of_cut (h : w ++ u ≠ []) : (w ++ u).head? = (w ++ (u ++ s)).head? := by
  rw [← List.append_assoc]
  exact (head?_append_of_ne_nil h s).symm

/-- A comment has two characters at least. -/
theorem slash_of_length_one {text : List Char} (h : slash text = ⟨k, 1, none⟩) :
    k = .slash := by
  unfold slash at h
  split at h
  · rename_i hline
    obtain ⟨rest, rfl⟩ : ∃ rest, text = '/' :: '/' :: rest := by
      unfold startsLineComment at hline
      split at hline
      · exact ⟨_, rfl⟩
      · cases hline
    have : (('/' :: '/' :: rest).takeWhile fun c => !isLineBreak c).length = 1 :=
      congrArg Lexeme.length h
    simp [isLineBreak] at this
  split at h
  · rename_i hblock
    have hone : (blockCommentLength text).1 = 1 := congrArg Lexeme.length h
    have := (blockCommentLength_le hblock).1
    omega
  split at h
  · exact absurd (congrArg Lexeme.length h) (by simp)
  · exact (congrArg Lexeme.kind h).symm

theorem slash_of_cut (h : slash ('/' :: (w ++ (u ++ s))) = ⟨k, w.length + 1, none⟩) :
    slash ('/' :: (w ++ u)) = ⟨k, w.length + 1, none⟩ := by
  by_cases hnil : w ++ u = []
  · obtain ⟨rfl, rfl⟩ := List.append_eq_nil_iff.1 hnil
    rw [slash_of_length_one h]
    rfl
  have hhead := head?_of_cut (s := s) hnil
  simp only [slash, startsLineComment_cons, startsBlockComment_cons, List.tail_cons, hhead] at h ⊢
  by_cases hline : ('/' == '/' && (w ++ (u ++ s)).head? == some '/') = true
  · rw [if_pos hline] at h ⊢
    have hlen := takeWhile_of_cut (w := '/' :: w) (congrArg Lexeme.length h)
    have hk : Kind.commentLine = k := congrArg Lexeme.kind h
    rw [← hk]
    exact congrArg (fun n => (⟨.commentLine, n, none⟩ : Lexeme)) hlen
  rw [if_neg hline] at h ⊢
  by_cases hblock : ('/' == '/' && (w ++ (u ++ s)).head? == some '*') = true
  · rw [if_pos hblock] at h ⊢
    have htwo : 2 ≤ (blockCommentLength ('/' :: (w ++ (u ++ s)))).1 :=
      (blockCommentLength_le ((startsBlockComment_cons _ _).trans hblock)).1
    cases hc : blockCommentLength ('/' :: (w ++ (u ++ s))) with
    | mk n closed =>
      simp only [hc] at h htwo
      obtain ⟨rfl, rfl, hclosed⟩ : Kind.commentBlock = k ∧ n = w.length + 1 ∧ closed = true := by
        simpa using h
      subst hclosed
      have hne : w ≠ [] := fun hw => by
        rw [hw] at htwo
        exact absurd htwo (by decide)
      simp only [blockCommentLength_append u hne hc le_rfl, if_true]
  · rwa [if_neg hblock] at h ⊢

/-- The lexeme that opens a text outside consequences, if the text is cut. -/
theorem normal_of_cut (hbang : k = .bangDot → u ≠ [])
    (hword : isWordStart c = true →
      Kind.ofKeyword? (c :: (w ++ u)) = none ∨ s.head?.any isWordPart = false)
    (h : normal c (w ++ (u ++ s)) = ⟨k, w.length + 1, none⟩) :
    normal c (w ++ u) = ⟨k, w.length + 1, none⟩ := by
  have htake : (c :: (w ++ (u ++ s))).take (c :: (w ++ u)).length = c :: (w ++ u) := by
    rw [← List.append_assoc]
    exact @List.take_left _ (c :: (w ++ u)) s
  have hdrop : (c :: (w ++ (u ++ s))).drop (c :: (w ++ u)).length = s := by
    rw [← List.append_assoc]
    exact @List.drop_left _ (c :: (w ++ u)) s
  have hle : w.length + 1 ≤ (c :: (w ++ u)).length := by
    simp only [List.length_cons, List.length_append]
    omega
  simp only [normal] at h ⊢
  by_cases hbreak : isLineBreak c = true
  · simp only [hbreak, if_true] at h ⊢
    by_cases hnil : w ++ u = []
    · obtain ⟨rfl, rfl⟩ := List.append_eq_nil_iff.1 hnil
      have hk : Kind.newline = k := congrArg Lexeme.kind h
      rw [← hk, newlineLength_cons, if_neg (by simp)]
      rfl
    · rwa [newlineLength_cons, head?_of_cut (s := s) hnil, ← newlineLength_cons]
  by_cases hblank : isBlank c = true
  · simp only [hbreak, hblank, Bool.false_eq_true, if_true, if_false] at h ⊢
    have hlen := takeWhile_of_cut (p := isInlineBlank) (w := c :: w) (congrArg Lexeme.length h)
    have hk : Kind.whitespace = k := congrArg Lexeme.kind h
    rw [← hk]
    exact congrArg (fun n => (⟨.whitespace, n, none⟩ : Lexeme)) hlen
  by_cases hslash : (c == '/') = true
  · simp only [hbreak, hblank, hslash, Bool.false_eq_true, if_true, if_false] at h ⊢
    obtain rfl := beq_iff_eq.1 hslash
    exact slash_of_cut h
  by_cases hquote : (c == '"' || c == '\x27') = true
  · simp only [hbreak, hblank, hslash, hquote, Bool.false_eq_true, if_true, if_false] at h ⊢
    exact string_of_alike u h
  by_cases hdigit : c.isDigit = true
  · simp only [hbreak, hblank, hslash, hquote, hdigit, Bool.false_eq_true, if_true, if_false]
      at h ⊢
    have hlen : (numberLength (c :: (w ++ (u ++ s)))).1 = w.length + 1 := congrArg Lexeme.length h
    have := numberLength_take (hlen.trans_le hle)
    rw [htake] at this
    rwa [this]
  by_cases hstart : isWordStart c = true
  · simp only [hbreak, hblank, hslash, hquote, hdigit, hstart, Bool.false_eq_true, if_true,
      if_false] at h ⊢
    have hlen : (wordLength (c :: (w ++ (u ++ s)))).1 = w.length + 1 := congrArg Lexeme.length h
    have := wordLength_take (hlen.trans_le hle) (by rw [htake, hdrop]; exact hword hstart)
    rw [htake] at this
    rwa [this]
  · simp only [hbreak, hblank, hslash, hquote, hdigit, hstart, Bool.false_eq_true, if_false]
      at h ⊢
    cases hp : punctuation? (c :: (w ++ (u ++ s))) with
    | none => simp [hp] at h
    | some found =>
      obtain ⟨k', n⟩ := found
      rw [hp] at h
      obtain ⟨rfl, rfl⟩ : k' = k ∧ n = w.length + 1 := by simpa using h
      rw [punctuation?_of_cut hbang hp]

/-! ## Consequences -/

theorem usesAsName_of_cut {x : List Char} (h : usesAsName (x ++ s) = false) :
    usesAsName x = false := by
  induction x with
  | nil => rfl
  | cons d x ih =>
    cases hd : isBlank d with
    | true =>
      have h := ih (by simpa [usesAsName, trimStart, hd] using h)
      simpa [usesAsName, trimStart, hd] using h
    | false => simpa [usesAsName, trimStart, hd] using h

/-- A single character is no comment. -/
theorem startsTrivia_singleton (c : Char) : startsTrivia [c] = isBlank c := by
  simp [startsTrivia, startsLineComment_cons, startsBlockComment_cons]

theorem startsTrivia_of_ne_nil (h : w ++ u ≠ []) :
    startsTrivia (c :: (w ++ u)) = startsTrivia (c :: (w ++ (u ++ s))) := by
  simp only [startsTrivia, startsLineComment_cons, startsBlockComment_cons, List.head?_cons,
    head?_of_cut (s := s) h]

theorem startsTrivia_of_cut (h : normal c (w ++ (u ++ s)) = ⟨k, w.length + 1, none⟩) :
    startsTrivia (c :: (w ++ u)) = startsTrivia (c :: (w ++ (u ++ s))) := by
  by_cases hnil : w ++ u = []
  · obtain ⟨rfl, rfl⟩ := List.append_eq_nil_iff.1 hnil
    simp only [List.nil_append] at h ⊢
    rw [startsTrivia_singleton]
    cases hc : isBlank c with
    | true => simp [startsTrivia, hc]
    | false =>
      -- a comment would be longer than one character
      cases htrivia : startsTrivia (c :: s) with
      | false => rfl
      | true =>
        have hkind := isTrivia_of_startsTrivia htrivia
        obtain rfl : c = '/' := by
          simp only [startsTrivia, startsLineComment_cons, startsBlockComment_cons, List.head?_cons,
            Option.any_some, hc, Bool.false_or, ← Bool.and_or_distrib_left, Bool.and_eq_true,
            beq_iff_eq] at htrivia
          exact htrivia.1
        have hslash : slash ('/' :: s) = ⟨k, 1, none⟩ := h
        rw [h, slash_of_length_one hslash] at hkind
        cases hkind
  · exact startsTrivia_of_ne_nil hnil

theorem takeWhile_blanks {blanks : List Char} (hblanks : ∀ d ∈ blanks, isBlank d = true)
    (after : List Char) : (blanks ++ 'e' :: after).takeWhile isBlank = blanks := by
  rw [List.takeWhile_append_of_pos hblanks, List.takeWhile_cons_of_neg (by decide),
    List.append_nil]

/-- A consequence ends where it did, if the `end` that closes it is not cut off. -/
theorem actionLength_of_cut {blanks after : List Char} (hblanks : ∀ d ∈ blanks, isBlank d = true)
    (hu : u = blanks ++ 'e' :: 'n' :: 'd' :: after)
    (h : actionLength (c :: (w ++ (u ++ s))) = w.length + 1) :
    actionLength (c :: (w ++ u)) = w.length + 1 := by
  subst hu
  obtain ⟨blanks', hblanks', htrim, hends⟩ :=
    @follows_action (c :: w) (blanks ++ 'e' :: 'n' :: 'd' :: after ++ s) h
  rcases hends with hends | ⟨after', hends, hword, hfound⟩
  · have : isBlank 'e' = true := hblanks' 'e' (by rw [← hends]; simp)
    exact absurd this (by decide)
  -- the blanks before the closing word are the same
  obtain rfl : blanks = blanks' := by
    have hruns := congrArg (List.takeWhile isBlank) hends
    rw [List.append_assoc, List.append_assoc] at hruns
    exact (takeWhile_blanks hblanks _).symm.trans (hruns.trans (takeWhile_blanks hblanks' _))
  obtain rfl : after' = after ++ s := by
    rw [List.append_assoc, List.append_assoc] at hends
    exact ((List.append_right_inj ['e', 'n', 'd']).1 (List.append_cancel_left hends)).symm
  have hfind : findEnd .initial 0 0 (c :: w ++ blanks ++ ['e', 'n', 'd'] ++ (after ++ s)) =
      some (0 + (c :: w ++ blanks).length) := by
    rw [Nat.zero_add, ← hfound, consequenceLength?]
    simp
  have hname : usesAsName (after ++ s) = false := by
    obtain ⟨state, hcloses⟩ := closesHere_of_findEnd hfind
    rw [List.append_assoc, List.drop_left] at hcloses
    obtain ⟨rest, hrest, -, hname⟩ := of_closesHere hcloses
    rwa [(List.append_right_inj ['e', 'n', 'd']).1 hrest]
  have hsame : SameAfter (after ++ s) after :=
    ⟨hword, head_of_cut hword, (usesAsName_of_cut hname).trans hname.symm⟩
  have hcut := findEnd_append hsame hfind (by rw [List.length_append]; rfl)
  rw [Nat.zero_add] at hcut
  have htext : c :: (w ++ (blanks ++ 'e' :: 'n' :: 'd' :: after)) =
      c :: w ++ blanks ++ ['e', 'n', 'd'] ++ after := by simp
  rw [actionLength, htext, consequenceLength?, hcut, Option.getD_some, List.append_assoc,
    List.append_assoc, ← List.append_assoc (c :: w), List.take_left, htrim, List.length_cons]

/-- The closing `end` that opens a text opens it as well if the text is cut after it. -/
theorem actionLength_zero_of_cut (hc : isBlank c = false)
    (hlen : (normal c (w ++ (u ++ s))).length = w.length + 1)
    (h : actionLength (c :: (w ++ (u ++ s))) = 0) : actionLength (c :: (w ++ u)) = 0 := by
  rw [actionLength_eq_zero_iff hc] at h ⊢
  obtain ⟨after, htext, hword, hname⟩ := of_closesHere h
  obtain ⟨rfl, hafter⟩ := List.cons.inj htext
  obtain ⟨w, rfl, rfl⟩ := end_of_normal hlen hafter hword
  rw [← List.append_assoc] at hword hname h
  have hsame : SameAfter (w ++ u ++ s) (w ++ u) :=
    ⟨hword, head_of_cut hword, (usesAsName_of_cut hname).trans hname.symm⟩
  exact (closesHere_append .initial (w := ['e', 'n', 'd']) (by simp) hsame).trans h

/-- The lexeme that opens a text and the mode after it, if the text is cut after the lexeme. -/
theorem next_of_cut {mode mode' : Mode} (hbang : k = .bangDot → u ≠ [])
    (hword : normal c (w ++ (u ++ s)) = ⟨k, w.length + 1, none⟩ → isWordStart c = true →
      Kind.ofKeyword? (c :: (w ++ u)) = none ∨ s.head?.any isWordPart = false)
    (haction : k = .actionText → ∃ blanks after, (∀ d ∈ blanks, isBlank d = true) ∧
      u = blanks ++ 'e' :: 'n' :: 'd' :: after)
    (h : next mode c (w ++ (u ++ s)) = (⟨k, w.length + 1, none⟩, mode')) :
    next mode c (w ++ u) = (⟨k, w.length + 1, none⟩, mode') := by
  rcases next_cases h with ⟨rfl, rfl, htrivia, hnormal⟩ | ⟨rfl, rfl, hlexeme⟩ |
    ⟨hmode, hmode', hnormal⟩
  · have hcut := normal_of_cut hbang (hword hnormal) hnormal
    simp only [next, startsTrivia_of_cut hnormal, htrivia, hcut]
    rfl
  · obtain ⟨blanks, after, hblanks, hu⟩ := haction (congrArg Lexeme.kind hlexeme)
    have hstarts : startsTrivia (c :: (w ++ u)) = false := by
      rw [startsTrivia_of_ne_nil (s := s) (by simp [hu])]
      by_contra htrivia
      rw [Bool.not_eq_false] at htrivia
      simp [next, htrivia] at h
    have hlen := actionLength_of_cut hblanks hu (congrArg Lexeme.length hlexeme).symm
    obtain rfl : k = .actionText := congrArg Lexeme.kind hlexeme
    simp [next, hstarts, hlen]
  · have hcut := normal_of_cut hbang (hword hnormal) hnormal
    cases mode with
    | normal => rw [next_normal, hcut, hmode']
    | consequence =>
      obtain ⟨htrivia, hzero⟩ := hmode rfl
      have hc : isBlank c = false := by
        simp only [startsTrivia, List.head?_cons, Option.any_some, Bool.or_eq_false_iff] at htrivia
        exact htrivia.1.1
      have hzero := actionLength_zero_of_cut hc (congrArg Lexeme.length hnormal) hzero
      simp only [next, startsTrivia_of_cut hnormal, htrivia, hzero, hcut, hmode']
      simp

end

end RuleLang.Lexeme
