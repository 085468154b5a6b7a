import RuleLang.Text.Blank

/-!
# Blanks, line breaks and comments

Each function measures, in characters, the piece of trivia at the start of a text.

## Main definitions

* `startsTrivia` — a blank or a comment comes next.
* `newlineLength`, `blankLength` — a line break; a run of other blanks.
* `lineCommentLength`, `blockCommentLength` — comments. A block comment that is never closed
  reaches to the end of the text.
-/

namespace RuleLang.Lexeme

open Text

def startsLineComment : List Char → Bool
  | '/' :: '/' :: _ => true
  | _ => false

def startsBlockComment : List Char → Bool
  | '/' :: '*' :: _ => true
  | _ => false

def startsTrivia (text : List Char) : Bool :=
  text.head?.any isBlank || startsLineComment text || startsBlockComment text

/-- The length of `\r\n` as one break, of a single character otherwise. -/
def newlineLength : List Char → Nat
  | '\r' :: '\n' :: _ => 2
  | _ => 1

def isInlineBlank (c : Char) : Bool :=
  isBlank c && !isLineBreak c

def blankLength (text : List Char) : Nat :=
  (text.takeWhile isInlineBlank).length

/-- A comment up to the end of its line. -/
def lineCommentLength (text : List Char) : Nat :=
  (text.takeWhile fun c => !isLineBreak c).length

/-- The length through the first `*/`, if there is one. -/
def closeLength? : List Char → Option Nat
  | [] => none
  | c :: cs =>
    if c == '*' && cs.head? == some '/' then some 2
    else (closeLength? cs).map (· + 1)

/-- The length of the block comment that opens the text, and whether it is closed. -/
def blockCommentLength (text : List Char) : Nat × Bool :=
  match closeLength? (text.drop 2) with
  | some n => (n + 2, true)
  | none => (text.length, false)

end RuleLang.Lexeme
