import RuleLang.Text.Position

/-!
# Lines of a source

From byte offsets to lines and columns.

## Main definitions

* `LineMap` — where the lines of a text start.
* `LineMap.position` — line and column of a byte offset.
-/

namespace RuleLang

structure LineMap where
  source : List Char
  /-- The byte offsets at which lines start, ascending from zero. -/
  starts : List Nat
  deriving Repr

namespace LineMap

/-- The offsets after each line break of a text that starts at `offset`. -/
def startsAfter (offset : Nat) : List Char → List Nat
  | [] => []
  | c :: cs =>
    let next := offset + c.utf8Size
    if c == '\n' || (c == '\r' && cs.head? != some '\n') then next :: startsAfter next cs
    else startsAfter next cs

def ofSource (source : List Char) : LineMap :=
  ⟨source, 0 :: startsAfter 0 source⟩

def lineCount (m : LineMap) : Nat :=
  m.starts.length

/-- The characters in the first `bytes` bytes of a text, if that is a whole number of them. -/
def wholeChars? : Nat → List Char → Option Nat
  | 0, _ => some 0
  | _ + 1, [] => none
  | bytes + 1, c :: cs =>
    if c.utf8Size ≤ bytes + 1 then (wholeChars? (bytes + 1 - c.utf8Size) cs).map (· + 1) else none

/-- Line and column, both from 1, of a byte offset; an offset beyond the text counts as its end. The
column counts characters, except inside a character: there it counts bytes. -/
def position (m : LineMap) (offset : Nat) : Nat × Nat :=
  let offset := min offset (Text.byteLength m.source)
  let before := m.starts.takeWhile (· ≤ offset)
  let start := before.getLastD 0
  let column := (wholeChars? (offset - start) (Text.dropBytes start m.source)).getD (offset - start)
  (before.length, column + 1)

end LineMap

end RuleLang
