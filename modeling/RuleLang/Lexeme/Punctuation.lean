import RuleLang.Lexeme.Word

/-!
# Punctuation

Punctuation tokens have one or two characters, and two are preferred to one. `!.` counts as one
token only in front of a name.

## Main definitions

* `punctuation?` — the punctuation that opens a text, and its length.
-/

namespace RuleLang.Lexeme

/-- Punctuation of two characters. -/
def doublePunctuation : List ((Char × Char) × Kind) := [
  (('=', '='), .eqEq), (('!', '='), .neq), (('<', '='), .ltEq), (('>', '='), .gtEq),
  (('&', '&'), .ampAmp), (('|', '|'), .pipePipe), (('+', '+'), .plusPlus),
  (('-', '-'), .minusMinus), (('+', '='), .plusEq), (('-', '='), .minusEq),
  (('*', '='), .starEq), (('-', '>'), .arrow), ((':', ':'), .colonColon),
  ((':', '='), .colonEq), (('.', '.'), .dotDot), (('#', '#'), .hashHash)]

/-- Punctuation of one character. -/
def singlePunctuation : List (Char × Kind) := [
  ('(', .lParen), (')', .rParen), ('\x7b', .lBrace), ('\x7d', .rBrace), ('[', .lBracket),
  (']', .rBracket), (';', .semicolon), (',', .comma), ('.', .dot), (':', .colon),
  ('?', .question), ('@', .at), ('#', .hash), ('=', .eq), ('<', .lt), ('>', .gt), ('&', .amp),
  ('|', .pipe), ('^', .caret), ('~', .tilde), ('!', .bang), ('+', .plus), ('-', .minus),
  ('*', .star), ('%', .percent)]

def double? : List Char → Option Kind
  | '!' :: '.' :: c :: _ => if isWordStart c then some .bangDot else none
  | a :: b :: _ => doublePunctuation.lookup (a, b)
  | _ => none

/-- The kind and the length of the punctuation that opens a text. -/
def punctuation? (text : List Char) : Option (Kind × Nat) :=
  match double? text with
  | some kind => some (kind, 2)
  | none => (text.head?.bind fun c => singlePunctuation.lookup c).map fun kind => (kind, 1)

end RuleLang.Lexeme
