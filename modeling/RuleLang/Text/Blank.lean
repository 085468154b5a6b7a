import RuleLang.Text.CharRange

/-!
# Blank characters

The characters with the Unicode property White_Space, and trimming by them.

## Main definitions

* `isBlank` — white space of any kind, line breaks included.
* `trimStart`, `trimEnd`, `trim` — the text without the blanks at its ends.
-/

namespace RuleLang.Text

/-- Blank characters beyond ASCII. -/
def blankRanges : List CharRange := [
  (0x85, 0x85), (0xa0, 0xa0), (0x1680, 0x1680), (0x2000, 0x200a), (0x2028, 0x2029),
  (0x202f, 0x202f), (0x205f, 0x205f), (0x3000, 0x3000)]

def isBlank (c : Char) : Bool :=
  if c.toNat < 0x80 then c == ' ' || (9 ≤ c.toNat && c.toNat ≤ 13)
  else inRanges blankRanges c

theorem isBlank_of_isWhitespace {c : Char} (h : c.isWhitespace = true) : isBlank c = true := by
  simp only [Char.isWhitespace, Bool.or_eq_true, decide_eq_true_eq] at h
  rcases h with ((rfl | rfl) | rfl) | rfl <;> rfl

/-- The line breaks: the characters that end a line, alone or as a pair. -/
def isLineBreak (c : Char) : Bool :=
  c == '\n' || c == '\r'

theorem isBlank_of_isLineBreak {c : Char} (h : isLineBreak c = true) : isBlank c = true := by
  simp only [isLineBreak, Bool.or_eq_true, beq_iff_eq] at h
  rcases h with rfl | rfl <;> rfl

def trimStart (text : List Char) : List Char :=
  text.dropWhile isBlank

def trimEnd (text : List Char) : List Char :=
  (text.reverse.dropWhile isBlank).reverse

def trim (text : List Char) : List Char :=
  trimEnd (trimStart text)

/-- Nothing but blanks. -/
def isAllBlank (text : List Char) : Bool :=
  text.all isBlank

theorem prefix_trimEnd (text : List Char) : trimEnd text <+: text := by
  have h := List.dropWhile_suffix (p := isBlank) (l := text.reverse)
  simpa [trimEnd] using List.reverse_prefix.2 h

theorem trimStart_suffix (text : List Char) : trimStart text <:+ text :=
  List.dropWhile_suffix _

end RuleLang.Text
