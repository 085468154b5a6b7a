/-!
# Positions in a text

Offsets count the bytes of the UTF-8 form. Lines and columns count from 1, columns by characters.
A line ends with `\n`, with `\r\n`, or with a `\r` that no `\n` follows.

## Main definitions

* `byteLength` — the bytes that a text takes.
* `Span` — a range of byte offsets.
* `Position`, `Position.advance` — where a character stands, and where the text after it goes on.
-/

namespace RuleLang

namespace Text

/-- The number of bytes of the UTF-8 form. -/
def byteLength : List Char → Nat
  | [] => 0
  | c :: cs => c.utf8Size + byteLength cs

@[simp] theorem byteLength_nil : byteLength [] = 0 := rfl

@[simp] theorem byteLength_cons (c : Char) (cs : List Char) :
    byteLength (c :: cs) = c.utf8Size + byteLength cs := rfl

@[simp] theorem byteLength_append (xs ys : List Char) :
    byteLength (xs ++ ys) = byteLength xs + byteLength ys := by
  induction xs with
  | nil => simp
  | cons c cs ih => simp [ih, Nat.add_assoc]

theorem length_le_byteLength (cs : List Char) : cs.length ≤ byteLength cs := by
  induction cs with
  | nil => simp
  | cons c cs ih =>
    have := c.utf8Size_pos
    simp only [List.length_cons, byteLength_cons]
    omega

/-- The text from byte `offset` on; an offset inside a character moves on to the next one. -/
def dropBytes : Nat → List Char → List Char
  | _, [] => []
  | 0, cs => cs
  | offset + 1, c :: cs => dropBytes (offset + 1 - c.utf8Size) cs

/-- The text before byte `offset`; an offset inside a character takes the whole character. -/
def takeBytes : Nat → List Char → List Char
  | _, [] => []
  | 0, _ => []
  | offset + 1, c :: cs => c :: takeBytes (offset + 1 - c.utf8Size) cs

@[simp] theorem takeBytes_append_dropBytes (offset : Nat) (cs : List Char) :
    takeBytes offset cs ++ dropBytes offset cs = cs := by
  induction cs generalizing offset with
  | nil => cases offset <;> simp [takeBytes, dropBytes]
  | cons c cs ih => cases offset <;> simp [takeBytes, dropBytes, ih]

end Text

/-- A range of byte offsets, the end excluded. -/
structure Span where
  start : Nat
  stop : Nat
  deriving DecidableEq, Repr, Inhabited

namespace Span

def length (s : Span) : Nat :=
  s.stop - s.start

/-- The form `a..b`. -/
def describe (s : Span) : String :=
  toString s.start ++ ".." ++ toString s.stop

end Span

/-- Where a character stands. -/
structure Position where
  offset : Nat
  line : Nat
  column : Nat
  deriving DecidableEq, Repr, Inhabited

namespace Position

/-- The first character of a text. -/
def origin : Position := ⟨0, 1, 1⟩

/-- The position after a piece of text that starts here. -/
def advance (p : Position) : List Char → Position
  | [] => p
  | c :: cs =>
    let offset := p.offset + c.utf8Size
    let ends := c == '\n' || (c == '\r' && cs.head? != some '\n')
    let next : Position :=
      if ends then ⟨offset, p.line + 1, 1⟩
      else if c == '\r' then ⟨offset, p.line, p.column⟩
      else ⟨offset, p.line, p.column + 1⟩
    next.advance cs

@[simp] theorem advance_nil (p : Position) : p.advance [] = p := rfl

@[simp] theorem offset_advance (p : Position) (cs : List Char) :
    (p.advance cs).offset = p.offset + Text.byteLength cs := by
  induction cs generalizing p with
  | nil => simp
  | cons c cs ih =>
    simp only [advance, ih, Text.byteLength_cons]
    split
    · simp [Nat.add_assoc]
    · split <;> simp [Nat.add_assoc]

end Position

end RuleLang
