import RuleLang.Lexeme.Consequence
import RuleLang.Lexeme.Literal
import RuleLang.Lexeme.Punctuation
import RuleLang.Text.Quoted

/-!
# Lexemes

The piece of text that opens an input, measured in characters, with its kind and with what is wrong
with it, if anything. The consequence of a rule is one lexeme, so after the keyword `then` the rules
are different until that lexeme is read.

## Main definitions

* `Fault` — what can be wrong with a lexeme.
* `Mode` — whether a consequence comes next.
* `Lexeme.next` — the lexeme that opens a text.
-/

namespace RuleLang

/-- A malformed lexeme. -/
inductive Fault where
  | unterminatedComment
  | unterminatedString
  | unexpectedCharacter (c : Char)
  deriving DecidableEq, Repr

def Fault.message : Fault → String
  | .unterminatedComment => "unterminated block comment"
  | .unterminatedString => "unterminated string literal"
  | .unexpectedCharacter c =>
    "unexpected character '" ++ String.ofList (Text.escapeLone c) ++ "'"

inductive Mode where
  | normal
  /-- After `then`: the next text that is not trivia is a consequence. -/
  | consequence
  deriving DecidableEq, Repr, Inhabited

structure Lexeme where
  kind : Kind
  /-- In characters. -/
  length : Nat
  fault : Option Fault := none
  deriving DecidableEq, Repr, Inhabited

namespace Lexeme

open Text

def slash (text : List Char) : Lexeme :=
  if startsLineComment text then ⟨.commentLine, lineCommentLength text, none⟩
  else if startsBlockComment text then
    let (n, closed) := blockCommentLength text
    ⟨.commentBlock, n, if closed then none else some .unterminatedComment⟩
  else if text.tail.head? == some '=' then ⟨.slashEq, 2, none⟩
  else ⟨.slash, 1, none⟩

def string (quote : Char) (afterQuote : List Char) : Lexeme :=
  let (n, closed) := stringLength quote afterQuote
  ⟨.stringLit, n, if closed then none else some .unterminatedString⟩

/-- The lexeme that starts with `c`, outside consequences. -/
def normal (c : Char) (rest : List Char) : Lexeme :=
  let text := c :: rest
  if isLineBreak c then ⟨.newline, newlineLength text, none⟩
  else if isBlank c then ⟨.whitespace, blankLength text, none⟩
  else if c == '/' then slash text
  else if c == '"' || c == '\x27' then string c rest
  else if c.isDigit then
    let (n, kind) := numberLength text
    ⟨kind, n, none⟩
  else if isWordStart c then
    let (n, kind) := wordLength text
    ⟨kind, n, none⟩
  else
    match punctuation? text with
    | some (kind, n) => ⟨kind, n, none⟩
    | none => ⟨.error, 1, some (.unexpectedCharacter c)⟩

/-- The characters of the consequence that opens a text, without the blanks at its end. -/
def actionLength (text : List Char) : Nat :=
  (trimEnd (text.take ((consequenceLength? text).getD text.length))).length

/-- The lexeme that starts with `c`, and the mode after it. -/
def next (mode : Mode) (c : Char) (rest : List Char) : Lexeme × Mode :=
  let text := c :: rest
  if mode == .consequence && startsTrivia text then (normal c rest, .consequence)
  else if mode == .consequence && 0 < actionLength text then
    (⟨.actionText, actionLength text, none⟩, .normal)
  else
    let lexeme := normal c rest
    (lexeme, if lexeme.kind == .thenKw then .consequence else .normal)

end Lexeme

end RuleLang
