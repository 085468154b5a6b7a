import RuleLang.Text.Lines
import RuleLang.Text.Position
import RuleLang.Text.Width

/-!
# Excerpts

A text report shows lines of the source with marks beneath. For that a source has more kinds of
line ends than the language itself, and characters are measured in terminal cells.

## Main definitions

* `SourceLine`, `SourceLine.ofSource`, `SourceLine.at?` — the lines that reports show.
* `SourceLine.shown` — what is printed of a line.
* `SourceLine.spread` — one mark for every column, as wide as the column.
-/

namespace RuleLang

/-- A line of a source with its end. -/
structure SourceLine where
  /-- Lines count from 1. -/
  number : Nat
  /-- The byte offset of the first character. -/
  start : Nat
  text : List Char
  deriving Repr, Inhabited

namespace SourceLine

/-- The characters at which lines of an excerpt end. -/
def isEnd (c : Char) : Bool :=
  Text.isLineBreak c || c == '\x0b' || c == '\x0c' || c == '\u0085' || c == '\u2028' ||
    c == '\u2029'

/-- Lines with numbers and offsets from the given ones on. -/
def ofTexts (number start : Nat) : List (List Char) → List SourceLine
  | [] => []
  | text :: texts =>
    ⟨number, start, text⟩ :: ofTexts (number + 1) (start + Text.byteLength text) texts

/-- The lines of a source; an empty source has one. -/
def ofSource (source : List Char) : List SourceLine :=
  match source with
  | [] => [⟨1, 0, []⟩]
  | _ => ofTexts 1 0 (Text.linesBy isEnd source)

/-- The last line that starts at or before a byte offset. -/
def at? (lines : List SourceLine) (offset : Nat) : Option SourceLine :=
  (lines.takeWhile fun line => line.start ≤ offset).getLast?

/-- The number of characters of the line before a byte offset. -/
def columnOf (line : SourceLine) (offset : Nat) : Nat :=
  (Text.takeBytes (offset - line.start) line.text).length

/-- The text without the blanks at its end. -/
def body (line : SourceLine) : List Char :=
  Text.trimEnd line.text

/-- The number of cells that the character of a column takes. A tab fills up to a multiple of four
columns, any other blank takes one cell. -/
def cells (column : Nat) (c : Char) : Nat :=
  if c = '\t' then 4 - column % 4
  else if Text.isBlank c then 1
  else Text.displayWidth c

/-- What is printed for the character of a column. -/
def shownChar (column : Nat) (c : Char) : List Char :=
  if Text.isBlank c then List.replicate (cells column c) ' ' else [c]

/-- What is printed of a line. -/
def shown (line : SourceLine) : List Char :=
  line.body.zipIdx.flatMap fun (c, column) => shownChar column c

/-- The width of a column; a column past the body takes one cell. -/
def widthOf (line : SourceLine) (column : Nat) : Nat :=
  match line.body[column]? with
  | some c => cells column c
  | none => 1

/-- A mark as wide as a column: the mark itself, then its tail. -/
structure Mark where
  head : Char
  tail : Char

namespace Mark

def plain (c : Char) : Mark :=
  ⟨c, c⟩

def fill (m : Mark) : Nat → List Char
  | 0 => []
  | width + 1 => m.head :: List.replicate width m.tail

@[simp] theorem length_fill (m : Mark) (width : Nat) : (m.fill width).length = width := by
  cases width <;> simp [fill]

end Mark

/-- The marks of the first `count` columns, each as wide as its column. -/
def spread (line : SourceLine) (count : Nat) (mark : Nat → Mark) : List Char :=
  (List.range count).flatMap fun column => (mark column).fill (line.widthOf column)

end SourceLine

end RuleLang
