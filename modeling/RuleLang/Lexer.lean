import RuleLang.Lexeme.Basic
import RuleLang.Token

/-!
# Lexing

A source text falls into tokens without gaps: blanks and comments are tokens as well, and what fits
no other kind becomes an `error` token. The list ends with one empty `eof` token.

## Main definitions

* `LexError` — a malformed token.
* `Lexed` — the tokens of a text and the errors among them.
* `lex` — the tokens of a whole text.
* `lexFrom` — the tokens from a byte offset on, with positions in the whole text.
-/

namespace RuleLang

structure LexError where
  fault : Fault
  span : Span
  deriving DecidableEq, Repr

def LexError.message (e : LexError) : String :=
  e.fault.message

/-- A token, and what is wrong with it. -/
structure Scanned where
  token : Token
  fault : Option Fault
  deriving DecidableEq, Repr

def Scanned.error? (s : Scanned) : Option LexError :=
  s.fault.map fun fault => ⟨fault, s.token.span⟩

/-- The tokens of a text that starts at a position. The first `skip` characters belong to a token
that is already read. -/
def scan (mode : Mode) (p : Position) : Nat → List Char → List Scanned
  | _, [] => [⟨⟨.eof, [], p⟩, none⟩]
  | skip + 1, _ :: rest => scan mode p skip rest
  | 0, c :: rest =>
    let (lexeme, mode) := Lexeme.next mode c rest
    let text := (c :: rest).take lexeme.length
    ⟨⟨lexeme.kind, text, p⟩, lexeme.fault⟩ ::
      scan mode (p.advance text) (lexeme.length - 1) rest

structure Lexed where
  tokens : List Token
  errors : List LexError
  deriving DecidableEq, Repr

def Lexed.ofScanned (scanned : List Scanned) : Lexed :=
  ⟨scanned.map Scanned.token, scanned.filterMap Scanned.error?⟩

def lex (source : List Char) : Lexed :=
  .ofScanned (scan .normal .origin 0 source)

/-- Reading always restarts outside consequences. An offset inside a character moves on to the next
character, an offset beyond the text to its end. -/
def lexFrom (source : List Char) (offset : Nat) : Lexed :=
  .ofScanned (scan .normal (Position.origin.advance (Text.takeBytes offset source)) 0
    (Text.dropBytes offset source))

end RuleLang
