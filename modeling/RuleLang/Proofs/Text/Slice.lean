import Mathlib.Order.Bounds.Basic
import RuleLang.Text.Blank
import RuleLang.Text.Position

/-!
# Slices of a text

Byte offsets that stand between two characters, and the pieces of a text between two of them. Lines
and columns are counted character by character, and a `\r` ends a line only if no `\n` follows:
counting can stop and go on anywhere but between the two.

## Main definitions

* `Text.IsBoundary` — a byte offset between two characters or at an end of the text.
* `Text.IsSlice` — the text between two such offsets.
* `endsLine` — a character ends a line, given the text after it.
* `Parted` — two texts that do not share a line break.

## Main statements

* `Text.isLeast_takeBytes` — reading from an offset starts at the least boundary that is not before
  it.
* `Position.advance_append` — counting over one text and then over the other.
-/

namespace RuleLang

namespace Text

/-- A byte offset between two characters, at the start or at the end of a text. -/
def IsBoundary (source : List Char) (n : Nat) : Prop :=
  ∃ before after, source = before ++ after ∧ byteLength before = n

/-- A piece of text stands at a span of a text, and both ends of the span are boundaries. -/
def IsSlice (source : List Char) (span : Span) (text : List Char) : Prop :=
  ∃ before after, source = before ++ text ++ after ∧ byteLength before = span.start ∧
    byteLength (before ++ text) = span.stop

namespace IsSlice

variable {source text : List Char} {span : Span}

theorem isBoundary_start (h : IsSlice source span text) : IsBoundary source span.start := by
  obtain ⟨before, after, rfl, hstart, -⟩ := h
  exact ⟨before, text ++ after, List.append_assoc .., hstart⟩

theorem isBoundary_stop (h : IsSlice source span text) : IsBoundary source span.stop := by
  obtain ⟨before, after, rfl, -, hstop⟩ := h
  exact ⟨before ++ text, after, rfl, hstop⟩

end IsSlice

/-! ## The start of reading -/

/-- A text up to an offset is a part of every piece that reaches to the offset or to the end. -/
theorem byteLength_takeBytes_le {offset : Nat} {before after : List Char}
    (h : min offset (byteLength (before ++ after)) ≤ byteLength before) :
    byteLength (takeBytes offset (before ++ after)) ≤ byteLength before := by
  induction before generalizing offset with
  | nil =>
    rw [List.nil_append, byteLength_nil, Nat.le_zero, Nat.min_eq_zero_iff] at h
    rcases h with rfl | h
    · cases after <;> simp [takeBytes]
    · have := length_le_byteLength after
      obtain rfl : after = [] := List.eq_nil_of_length_eq_zero (by omega)
      simp [takeBytes]
  | cons c cs ih =>
    cases offset with
    | zero => simp [takeBytes]
    | succ offset =>
      simp only [List.cons_append, byteLength_cons] at h
      have h : min (offset + 1 - c.utf8Size) (byteLength (cs ++ after)) ≤ byteLength cs := by omega
      have := ih h
      simp only [List.cons_append, takeBytes, byteLength_cons]
      omega

theorem min_le_byteLength_takeBytes (offset : Nat) (source : List Char) :
    min offset (byteLength source) ≤ byteLength (takeBytes offset source) := by
  induction source generalizing offset with
  | nil => simp
  | cons c cs ih =>
    cases offset with
    | zero => simp
    | succ offset =>
      have := ih (offset + 1 - c.utf8Size)
      simp only [takeBytes, byteLength_cons]
      omega

theorem isLeast_takeBytes (offset : Nat) (source : List Char) :
    IsLeast {n | IsBoundary source n ∧ min offset (byteLength source) ≤ n}
      (byteLength (takeBytes offset source)) := by
  refine ⟨⟨⟨_, dropBytes offset source, (takeBytes_append_dropBytes ..).symm, rfl⟩,
    min_le_byteLength_takeBytes offset source⟩, ?_⟩
  rintro n ⟨⟨before, after, rfl, rfl⟩, hn⟩
  exact byteLength_takeBytes_le hn

end Text

/-! ## Where a text can be cut -/

namespace Text

/-- A `\r` ends a line unless `\n` comes next. -/
def endsLine (c : Char) (after : List Char) : Bool :=
  c == '\n' || (c == '\r' && after.head? != some '\n')

theorem endsLine_of_not_lineBreak {c : Char} (h : isLineBreak c = false) (after : List Char) :
    endsLine c after = false := by
  obtain ⟨hnewline, hreturn⟩ := Bool.or_eq_false_iff.1 h
  rw [endsLine, hnewline, hreturn, Bool.false_and, Bool.or_false]

/-- No line break begins in the first text and ends in the second one. -/
def Parted (before after : List Char) : Prop :=
  before.getLast? = some '\r' → after.head? ≠ some '\n'

namespace Parted

variable {before after more : List Char}

@[simp] theorem nil_left : Parted [] after := by
  simp [Parted]

@[simp] theorem nil_right : Parted before [] := by
  simp [Parted]

/-- What comes after both texts plays no part, unless the second one is empty. -/
theorem of_append (h : Parted before (after ++ more)) : Parted before after := by
  cases after with
  | nil => exact nil_right
  | cons c after => exact h

theorem of_cons {c d : Char} (h : Parted (c :: d :: before) after) : Parted (d :: before) after :=
  fun hlast => h (by rw [List.getLast?_cons_cons, hlast])

/-- Neither does what comes before both, unless the first one is empty. -/
theorem append_left (hfirst : Parted more (before ++ after)) (h : Parted before after) :
    Parted (more ++ before) after := by
  cases before with
  | nil => simpa using hfirst
  | cons c before =>
    intro hlast
    rw [List.getLast?_append, List.getLast?_cons, Option.some_or, ← List.getLast?_cons] at hlast
    exact h hlast

/-- The end of a line is seen in the first text alone. -/
theorem endsLine_append {c : Char} (h : Parted (c :: before) after) :
    endsLine c (before ++ after) = endsLine c before := by
  cases before with
  | cons d before => rfl
  | nil =>
    by_cases hc : c = '\r'
    · have hhead : after.head? != some '\n' := bne_iff_ne.2 (h (by rw [hc]; rfl))
      rw [List.nil_append, endsLine, hhead]
      rfl
    · rw [endsLine, endsLine, beq_eq_false_iff_ne.2 hc, Bool.false_and, Bool.false_and]

end Parted

/-! ## Bytes on either side -/

theorem takeBytes_byteLength (before after : List Char) :
    takeBytes (byteLength before) (before ++ after) = before := by
  induction before with
  | nil => cases after <;> rfl
  | cons c cs ih =>
    obtain ⟨n, hn⟩ := Nat.exists_eq_succ_of_ne_zero (Nat.pos_iff_ne_zero.1 c.utf8Size_pos)
    rw [byteLength_cons, List.cons_append, hn, Nat.succ_add, takeBytes, ← Nat.succ_eq_add_one,
      ← Nat.succ_add, ← hn, Nat.add_sub_cancel_left, ih]

theorem dropBytes_byteLength (before after : List Char) :
    dropBytes (byteLength before) (before ++ after) = after := by
  have h := takeBytes_append_dropBytes (byteLength before) (before ++ after)
  rw [takeBytes_byteLength] at h
  exact List.append_cancel_left h

end Text

open Text

namespace Position

/-- The position after one character. -/
def past (p : Position) (c : Char) (ends : Bool) : Position :=
  if ends then ⟨p.offset + c.utf8Size, p.line + 1, 1⟩
  else if c == '\r' then ⟨p.offset + c.utf8Size, p.line, p.column⟩
  else ⟨p.offset + c.utf8Size, p.line, p.column + 1⟩

theorem advance_cons (p : Position) (c : Char) (cs : List Char) :
    p.advance (c :: cs) = (p.past c (endsLine c cs)).advance cs := rfl

theorem line_le_advance (p : Position) (text : List Char) :
    p.line ≤ (p.advance text).line := by
  induction text generalizing p with
  | nil => exact Nat.le_refl _
  | cons c cs ih =>
    refine Nat.le_trans ?_ (ih _)
    split
    · exact Nat.le_succ _
    · split <;> exact Nat.le_refl _

/-- After a line break comes the first column. -/
theorem column_advance (p : Position) {text : List Char}
    (h : text.getLast?.any isLineBreak = true) : (p.advance text).column = 1 := by
  induction text generalizing p with
  | nil => cases h
  | cons c cs ih =>
    cases cs with
    | nil =>
      have hends : c = '\n' ∨ c = '\r' := by simpa [isLineBreak] using h
      simp [advance, hends]
    | cons d cs => exact ih _ (by simpa using h)

/-- Counting over one text and then over the other. -/
theorem advance_append (p : Position) {before after : List Char} (h : Parted before after) :
    p.advance (before ++ after) = (p.advance before).advance after := by
  induction before generalizing p with
  | nil => rfl
  | cons c cs ih =>
    rw [List.cons_append, advance_cons, advance_cons, h.endsLine_append]
    cases cs with
    | nil => rfl
    | cons d cs => exact ih _ h.of_cons

end Position

end RuleLang
