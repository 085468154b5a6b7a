import Mathlib.Data.List.DropRight
import RuleLang.Proofs.Text.Slice
import RuleLang.Text.LineMap

/-!
# Two ways to find a line and a column

Positions are counted character by character while a text is read; a line map finds them from the
offsets at which lines start. Both agree wherever a text can be cut.

## Main statements

* `LineMap.startsAfter_append` — the lines of two texts.
* `LineMap.position_ofSource` — the line map finds the position that was counted.
-/

namespace RuleLang

open Text

/-! ## Counting -/

theorem Position.line_past (p : Position) (c : Char) (ends : Bool) :
    (p.past c ends).line = p.line + if ends then 1 else 0 := by
  cases ends with
  | true => rfl
  | false =>
    simp only [past, Bool.false_eq_true, if_false]
    split <;> rfl

/-- Within a line the columns count the characters. -/
theorem Position.column_advance_line (p : Position) {line : List Char}
    (h : ∀ c ∈ line, isLineBreak c = false) :
    (p.advance line).column = p.column + line.length := by
  induction line generalizing p with
  | nil => rfl
  | cons c cs ih =>
    have hc := h c List.mem_cons_self
    have hreturn : (c == '\r') = false := (Bool.or_eq_false_iff.1 hc).2
    rw [advance_cons, endsLine_of_not_lineBreak hc, ih _ fun d hd => h d (List.mem_cons_of_mem c hd)]
    simp only [past, hreturn, Bool.false_eq_true, if_false, List.length_cons]
    omega

namespace LineMap

/-! ## The starts of lines -/

theorem startsAfter_cons (offset : Nat) (c : Char) (cs : List Char) :
    startsAfter offset (c :: cs) =
      (if endsLine c cs then [offset + c.utf8Size] else []) ++
        startsAfter (offset + c.utf8Size) cs := by
  rw [startsAfter, endsLine]
  split <;> rfl

theorem startsAfter_append (offset : Nat) {before after : List Char} (h : Parted before after) :
    startsAfter offset (before ++ after) =
      startsAfter offset before ++ startsAfter (offset + byteLength before) after := by
  induction before generalizing offset with
  | nil => rfl
  | cons c cs ih =>
    have hcs : Parted cs after := by
      cases cs with
      | nil => exact .nil_left
      | cons d cs => exact h.of_cons
    rw [List.cons_append, startsAfter_cons, startsAfter_cons, h.endsLine_append, ih _ hcs,
      List.append_assoc, byteLength_cons, Nat.add_assoc]

/-- Each line ends where another one starts. -/
theorem line_advance (p : Position) (offset : Nat) (text : List Char) :
    (p.advance text).line = p.line + (startsAfter offset text).length := by
  induction text generalizing p offset with
  | nil => rfl
  | cons c cs ih =>
    rw [Position.advance_cons, ih _ (offset + c.utf8Size), Position.line_past, startsAfter_cons,
      List.length_append, Nat.add_assoc]
    cases endsLine c cs <;> rfl

theorem lt_of_mem_startsAfter {offset n : Nat} {text : List Char} (h : n ∈ startsAfter offset text) :
    offset < n ∧ n ≤ offset + byteLength text := by
  induction text generalizing offset with
  | nil => cases h
  | cons c cs ih =>
    have hpos := c.utf8Size_pos
    rw [startsAfter_cons, List.mem_append] at h
    rw [byteLength_cons]
    rcases h with h | h
    · have hn : n = offset + c.utf8Size := by
        cases hends : endsLine c cs <;> simp_all
      omega
    · have := ih h
      omega

theorem startsAfter_line (offset : Nat) {line : List Char} (h : ∀ c ∈ line, isLineBreak c = false) :
    startsAfter offset line = [] := by
  induction line generalizing offset with
  | nil => rfl
  | cons c cs ih =>
    rw [startsAfter_cons, endsLine_of_not_lineBreak (h c List.mem_cons_self),
      ih _ fun d hd => h d (List.mem_cons_of_mem c hd)]
    rfl

/-- After a text that ends with a line break a line starts. -/
theorem getLast?_startsAfter (offset : Nat) {text : List Char}
    (h : text.getLast?.any isLineBreak = true) :
    (startsAfter offset text).getLast? = some (offset + byteLength text) := by
  induction text generalizing offset with
  | nil => cases h
  | cons c cs ih =>
    rw [startsAfter_cons]
    cases cs with
    | nil =>
      have hends : endsLine c [] = true := by simpa [endsLine, isLineBreak] using h
      rw [hends]
      rfl
    | cons d cs =>
      rw [List.getLast?_append, ih _ (by simpa using h), Option.some_or, byteLength_cons c,
        Nat.add_assoc]

/-! ## Whole characters -/

theorem wholeChars?_byteLength (before after : List Char) :
    wholeChars? (byteLength before) (before ++ after) = some before.length := by
  induction before with
  | nil => cases after <;> rfl
  | cons c cs ih =>
    obtain ⟨n, hn⟩ := Nat.exists_eq_succ_of_ne_zero (Nat.pos_iff_ne_zero.1 c.utf8Size_pos)
    rw [byteLength_cons, List.cons_append, hn, Nat.succ_add, wholeChars?, ← Nat.succ_eq_add_one,
      ← Nat.succ_add, ← hn, if_pos (Nat.le_add_right _ _), Nat.add_sub_cancel_left, ih]
    rfl

/-! ## Positions -/

/-- A text falls into whole lines and a part of a line. -/
theorem exists_lines (text : List Char) : ∃ lines line, text = lines ++ line ∧
    (lines = [] ∨ lines.getLast?.any isLineBreak = true) ∧ ∀ c ∈ line, isLineBreak c = false := by
  refine ⟨text.rdropWhile fun c => !isLineBreak c, text.rtakeWhile fun c => !isLineBreak c,
    (List.rdropWhile_append_rtakeWhile).symm, ?_, fun c hc => ?_⟩
  · by_cases hlines : text.rdropWhile (fun c => !isLineBreak c) = []
    · exact .inl hlines
    · have hlast := List.rdropWhile_last_not _ _ hlines
      rw [List.getLast?_eq_some_getLast hlines]
      exact .inr (by simpa using hlast)
  · simpa using List.mem_rtakeWhile_imp hc

theorem takeWhile_starts {before after : List Char} (h : Parted before after) :
    (ofSource (before ++ after)).starts.takeWhile (· ≤ byteLength before) =
      0 :: startsAfter 0 before := by
  have hbefore : ∀ n ∈ 0 :: startsAfter 0 before, decide (n ≤ byteLength before) = true := by
    intro n hn
    rcases List.mem_cons.1 hn with rfl | hn
    · exact decide_eq_true (Nat.zero_le _)
    · exact decide_eq_true (Nat.zero_add (byteLength before) ▸ (lt_of_mem_startsAfter hn).2)
  have hafter : (startsAfter (0 + byteLength before) after).takeWhile (· ≤ byteLength before) = [] := by
    cases hstarts : startsAfter (0 + byteLength before) after with
    | nil => rfl
    | cons n ns =>
      have := (lt_of_mem_startsAfter (hstarts ▸ List.mem_cons_self)).1
      simp only [List.takeWhile_cons, decide_eq_true_eq]
      rw [if_neg (by omega)]
  rw [ofSource, startsAfter_append 0 h, ← List.cons_append, List.takeWhile_append_of_pos hbefore, hafter,
    List.append_nil]

/-- The line map finds the position that was counted. -/
theorem position_ofSource {before after : List Char} (h : Parted before after) :
    (ofSource (before ++ after)).position (byteLength before) =
      ((Position.origin.advance before).line, (Position.origin.advance before).column) := by
  have hmin : min (byteLength before) (byteLength (ofSource (before ++ after)).source) =
      byteLength before := by
    simp [ofSource]
  have hline : (0 :: startsAfter 0 before).length = (Position.origin.advance before).line := by
    rw [line_advance _ 0, List.length_cons, Nat.add_comm]
    rfl
  obtain ⟨lines, line, rfl, hlines, hbreaks⟩ := exists_lines before
  have hparted : Parted lines line := by
    intro _ hhead
    obtain ⟨rest, rfl⟩ := List.head?_eq_some_iff.1 hhead
    exact absurd (hbreaks '\n' List.mem_cons_self) (by decide)
  have hstart : (0 :: startsAfter 0 (lines ++ line)).getLastD 0 = byteLength lines := by
    rw [startsAfter_append 0 hparted, startsAfter_line _ hbreaks, List.append_nil]
    rcases hlines with rfl | hlines
    · rfl
    · rw [List.getLastD_cons, List.getLastD_eq_getLast?, getLast?_startsAfter 0 hlines]
      exact Nat.zero_add _
  have hcolumn : (Position.origin.advance (lines ++ line)).column = line.length + 1 := by
    rw [Position.advance_append _ hparted, Position.column_advance_line _ hbreaks, Nat.add_comm]
    rcases hlines with rfl | hlines
    · rfl
    · rw [Position.column_advance _ hlines]
  have hdrop : dropBytes (byteLength lines) (lines ++ line ++ after) = line ++ after := by
    rw [List.append_assoc, dropBytes_byteLength]
  have hbytes : byteLength (lines ++ line) - byteLength lines = byteLength line := by
    rw [byteLength_append, Nat.add_sub_cancel_left]
  rw [position]
  simp only [hmin, takeWhile_starts h, hstart, hline, hcolumn, hbytes]
  rw [ofSource, hdrop, wholeChars?_byteLength]
  rfl

end LineMap

end RuleLang
