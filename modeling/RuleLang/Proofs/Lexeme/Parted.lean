import RuleLang.Proofs.Lexer.Consequences
import RuleLang.Proofs.Text.Slice

/-!
# No lexeme ends within a line break

Where one lexeme ends and the next one begins, a `\r` never stands before a `\n`: a line break is
one lexeme, comments of one line and string literals stop before it, a closed comment ends with `/`,
and a consequence does not end with a blank.

## Main statements

* `parted_next` — a text can be cut after the lexeme that opens it.
-/

namespace RuleLang.Lexeme

open Text

/-! ## What stops before a line break -/

section

variable {b : Char} {u more : List Char}

theorem sameLine_break (hb : isLineBreak b = true) (u more : List Char) :
    SameLine (u ++ [b]) (u ++ b :: more) := by
  have hlast : (u ++ [b]).getLast?.any isLineBreak = true := by simpa using hb
  simpa using SameLine.append hlast more

theorem SameLine.lt_length {n : Nat} {x y : List Char} (h : SameLine (x.drop n) y) :
    n < x.length := by
  by_contra hle
  rw [List.drop_eq_nil_of_le (Nat.le_of_not_lt hle)] at h
  cases h

theorem takeWhile_le_break {p : Char → Bool} (hp : InLine p) (hb : isLineBreak b = true) :
    ((u ++ b :: more).takeWhile p).length ≤ u.length := by
  obtain ⟨heq, hdrop⟩ := (sameLine_break hb u more).takeWhile_eq hp
  rw [heq]
  simpa [Nat.lt_succ_iff] using hdrop.lt_length

theorem numberLength_le_break (hb : isLineBreak b = true) :
    (numberLength (u ++ b :: more)).1 ≤ u.length := by
  obtain ⟨heq, hdrop⟩ := (sameLine_break hb u more).digitsLength_eq
  have hsuffix := (hdrop.takeWhile_eq (p := Char.isAlphanum) ⟨rfl, rfl⟩).2
  rw [List.drop_drop] at hsuffix
  rw [(sameLine_break hb u more).numberLength_eq]
  simpa [numberLength, Nat.lt_succ_iff] using hsuffix.lt_length

theorem joinedLengths_le_break (hb : isLineBreak b = true) {n m : Nat}
    (h : m ∈ joinedLengths n (u ++ b :: more)) : m ≤ n + u.length := by
  induction u generalizing n with
  | nil =>
    have hpart : InLine isWordPart := ⟨by decide, by decide⟩
    have hhyphen : InLine (· == '-') := ⟨rfl, rfl⟩
    simp [SameLine.joinedLengths_cons, hpart.eq_false hb, hhyphen.eq_false hb] at h
    simp [h]
  | cons c u ih =>
    have hlater (h : m ∈ joinedLengths (n + 1) (u ++ b :: more)) : m ≤ n + (c :: u).length := by
      have := ih h
      simp only [List.length_cons]
      omega
    rw [List.cons_append, SameLine.joinedLengths_cons] at h
    split at h
    · exact hlater h
    · split at h
      · rcases List.mem_cons.1 h with rfl | h
        · exact Nat.le_add_right _ _
        · exact hlater h
      · rw [List.mem_singleton.1 h]
        exact Nat.le_add_right _ _

theorem wordLength_le_break (hb : isLineBreak b = true) :
    (wordLength (u ++ b :: more)).1 ≤ u.length := by
  rcases wordLength_mem (u ++ b :: more) with h | h
  · simpa using joinedLengths_le_break hb h
  · rw [h]
    exact takeWhile_le_break ⟨by decide, by decide⟩ hb

theorem stringRest_le_break {quote : Char} (hb : isLineBreak b = true) :
    (stringRest quote (u ++ b :: more)).1 ≤ u.length := by
  fun_induction stringRest quote u with
  | case1 => rw [List.nil_append, stringRest_cons (by rintro rfl; cases hb), if_pos hb]; simp
  | case2 => simp [stringRest, hb]
  | case3 e w he => simp [stringRest, he]
  | case4 e w he n closed heq ih =>
    rw [List.cons_append, List.cons_append, stringRest_escaped (by simpa using he)]
    simpa using ih
  | case5 c w hlone hesc hc =>
    rw [List.cons_append, stringRest_cons (ne_escape hlone hesc), if_pos hc]
    simp
  | case6 c w hlone hesc hc hq =>
    rw [List.cons_append, stringRest_cons (ne_escape hlone hesc), if_neg hc, if_pos hq]
    simp
  | case7 c w hlone hesc hc hq n closed heq ih =>
    rw [List.cons_append, stringRest_cons (ne_escape hlone hesc), if_neg hc, if_neg hq]
    simpa using ih

end

/-! ## Between the characters of a line break -/

section

variable {c : Char} {rest u more : List Char}

/-- No punctuation has a line break as its second character. -/
theorem double?_break (c : Char) (more : List Char) : double? (c :: '\r' :: more) = none := by
  have hsecond : ∀ p ∈ doublePunctuation, p.1.2 ≠ '\r' := by decide
  rw [double?_cons, if_neg (by simp)]
  cases h : doublePunctuation.lookup (c, '\r') with
  | none => rfl
  | some k => exact absurd rfl (hsecond _ (mem_of_lookup h))

theorem punctuation?_ne_break {k : Kind} {n : Nat} (hu : u ≠ [])
    (htext : c :: rest = u ++ '\r' :: more) (h : punctuation? (c :: rest) = some (k, n)) :
    n ≠ u.length + 1 := by
  obtain ⟨d, u, rfl⟩ := List.exists_cons_of_ne_nil hu
  obtain ⟨rfl, rfl⟩ := List.cons.inj htext
  rw [List.length_cons]
  rw [punctuation?_cons] at h
  cases hd : double? (c :: List.append u ('\r' :: more)) with
  | none =>
    rw [hd] at h
    obtain ⟨k', -, heq⟩ := Option.map_eq_some_iff.1 h
    cases heq
    omega
  | some k' =>
    rw [hd] at h
    cases h
    cases u with
    | nil => exact absurd hd (by rw [List.append, double?_break]; simp)
    | cons e u => simp

/-- A comment that is closed ends with `/`, and one that is not reaches to the end of the text. -/
theorem blockComment_ne_break (hstart : startsBlockComment ('/' :: rest) = true) (hu : u ≠ [])
    (htext : '/' :: rest = u ++ '\r' :: '\n' :: more) :
    (blockCommentLength ('/' :: rest)).1 ≠ u.length + 1 := by
  have hstar : rest.head? = some '*' := by simpa [startsBlockComment_cons] using hstart
  obtain ⟨d, u, rfl⟩ := List.exists_cons_of_ne_nil hu
  cases u with
  | nil =>
    rw [(List.cons.inj htext).2] at hstar
    simp at hstar
  | cons e u =>
    have hdrop : ('/' :: rest).drop 2 = u ++ '\r' :: '\n' :: more := by rw [htext]; rfl
    rw [blockCommentLength, hdrop]
    split
    · rename_i n hclose
      intro hlen
      have hlast : (u ++ ['\r']).getLast? = some '/' :=
        getLast?_of_closeLength? (x := '\n' :: more) (by simp_all)
      simp at hlast
    · rw [htext]
      simp

theorem slash_ne_break (hu : u ≠ []) (htext : '/' :: rest = u ++ '\r' :: '\n' :: more) :
    (slash ('/' :: rest)).length ≠ u.length + 1 := by
  unfold slash
  split
  · have hline : lineCommentLength ('/' :: rest) ≤ u.length := by
      rw [htext]
      exact takeWhile_le_break ⟨rfl, rfl⟩ rfl
    exact (Nat.lt_succ_of_le hline).ne
  split
  · rename_i hstart
    exact blockComment_ne_break hstart hu htext
  obtain ⟨d, u, rfl⟩ := List.exists_cons_of_ne_nil hu
  split
  · rename_i heq
    cases u with
    | nil =>
      rw [(List.cons.inj htext).2] at heq
      simp at heq
    | cons e u => simp
  · simp

/-- The lexeme that opens a text does not end with a `\r` that a `\n` follows. -/
theorem normal_ne_break (htext : c :: rest = u ++ '\r' :: '\n' :: more) :
    (normal c rest).length ≠ u.length + 1 := by
  have hbreak : isLineBreak '\r' = true := rfl
  by_cases hc : isLineBreak c = true
  · have hnormal : (normal c rest).length = newlineLength (c :: rest) := by simp [normal, hc]
    rw [hnormal, newlineLength_cons]
    cases u with
    | nil =>
      obtain ⟨rfl, rfl⟩ := List.cons.inj htext
      simp
    | cons d u =>
      obtain ⟨rfl, rfl⟩ := List.cons.inj htext
      cases u with
      | nil => simp
      | cons e u =>
        split
        · simp
        · simp
  have hu : u ≠ [] := by
    rintro rfl
    cases htext
    exact hc hbreak
  refine normal_cases (P := fun l => l.length ≠ u.length + 1) c rest
    (fun h => absurd h hc) (fun _ => ?_) (fun h => ?_) (fun _ => ?_) (fun _ => ?_)
    (fun _ => ?_) (fun k n hp => ?_) ?_
  · have : blankLength (c :: rest) ≤ u.length := by
      rw [htext]
      exact takeWhile_le_break ⟨rfl, rfl⟩ hbreak
    exact (Nat.lt_succ_of_le this).ne
  · subst h
    exact slash_ne_break hu htext
  · obtain ⟨d, u, rfl⟩ := List.exists_cons_of_ne_nil hu
    obtain ⟨rfl, rfl⟩ := List.cons.inj htext
    have : (stringRest c (u ++ '\r' :: '\n' :: more)).1 ≤ u.length := stringRest_le_break hbreak
    simpa [string, stringLength] using (Nat.lt_succ_of_le this).ne
  · have : (numberLength (c :: rest)).1 ≤ u.length := htext ▸ numberLength_le_break hbreak
    exact (Nat.lt_succ_of_le this).ne
  · have : (wordLength (c :: rest)).1 ≤ u.length := htext ▸ wordLength_le_break hbreak
    exact (Nat.lt_succ_of_le this).ne
  · exact punctuation?_ne_break hu htext hp
  · simpa using hu

end

/-- A consequence does not end with a blank. -/
theorem action_ne_break {u more : List Char} :
    actionLength (u ++ '\r' :: more) ≠ u.length + 1 := by
  intro hlen
  obtain ⟨blanks, -, htrim, -⟩ := follows_action (w := u ++ ['\r']) (x := more) (by simpa using hlen)
  have hlast : (u ++ ['\r']).getLast?.any isBlank = false := htrim ▸ getLast?_trimEnd _
  simp [isBlank] at hlast

/-- A text can be cut after the lexeme that opens it. -/
theorem parted_next (mode : Mode) (c : Char) (rest : List Char) :
    Parted ((c :: rest).take (next mode c rest).1.length)
      ((c :: rest).drop (next mode c rest).1.length) := by
  intro hlast hhead
  generalize hl : next mode c rest = result at *
  obtain ⟨l, mode'⟩ := result
  obtain ⟨u, hu⟩ := List.getLast?_eq_some_iff.1 hlast
  obtain ⟨more, hmore⟩ := List.head?_eq_some_iff.1 hhead
  have htext : c :: rest = u ++ '\r' :: '\n' :: more := by
    rw [← List.take_append_drop l.length (c :: rest), hu, hmore, List.append_assoc]
    rfl
  have hlength : l.length = u.length + 1 := by
    have hle := Lexeme.length_next_le mode c rest
    rw [hl] at hle
    rw [← List.length_take_of_le hle, hu]
    simp
  rcases next_cases hl with ⟨-, -, -, rfl⟩ | ⟨-, -, rfl⟩ | ⟨-, -, rfl⟩
  · exact normal_ne_break htext hlength
  · exact action_ne_break (htext ▸ hlength)
  · exact normal_ne_break htext hlength

end RuleLang.Lexeme
