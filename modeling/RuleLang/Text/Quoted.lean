import RuleLang.Text.Printable

/-!
# Quoted text

Text in quotes, as tree dumps and messages show it: a character that would be misread or not seen
is escaped.

## Main definitions

* `escapeChar` — the form of one character between double quotes.
* `quote` — a text between double quotes.
* `escapeLone` — the form of a character that stands for itself between single quotes.
-/

namespace RuleLang.Text

/-- A code point in lower-case hexadecimal digits. -/
def hexDigits (n : Nat) : List Char :=
  Nat.toDigits 16 n

def escapeChar (c : Char) : List Char :=
  if c = '"' then ['\\', '"']
  else if c = '\\' then ['\\', '\\']
  else if c = '\n' then ['\\', 'n']
  else if c = '\r' then ['\\', 'r']
  else if c = '\t' then ['\\', 't']
  else if c = '\x00' then ['\\', '0']
  else if isPrintable c then [c]
  else ['\\', 'u', '\x7b'] ++ hexDigits c.toNat ++ ['\x7d']

/-- A text in double quotes. -/
def quote (text : List Char) : List Char :=
  '"' :: text.flatMap escapeChar ++ ['"']

/-- Like `escapeChar`, with the single quote escaped as well. -/
def escapeLone (c : Char) : List Char :=
  if c = '\x27' then ['\\', '\x27'] else escapeChar c

end RuleLang.Text
