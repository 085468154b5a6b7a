import RuleLang.Kind
import RuleLang.Text.Blank

/-!
# Literals

Decimal and hexadecimal numbers, fractions and exponents, all with ASCII digits. Letters and
digits that follow directly belong to the number: type suffixes such as `10L` and time spans such
as `1h30m`.

A string literal is closed by the quote that opened it, on the same line. A backslash protects the
character after it, but not a line break.

## Main definitions

* `numberLength` — the length of the number that opens a text, and its kind.
* `stringRest` — how far a literal reaches after its opening quote, and whether it is closed.
* `stringLength` — the same for the whole literal.
-/

namespace RuleLang.Lexeme

def isHexDigit (c : Char) : Bool :=
  c.isDigit || ('a' ≤ c && c ≤ 'f') || ('A' ≤ c && c ≤ 'F')

/-- The length of a fraction: a point with a digit after it, and all digits that follow. -/
def fractionLength : List Char → Nat
  | '.' :: cs =>
    match (cs.takeWhile Char.isDigit).length with
    | 0 => 0
    | n => n + 1
  | _ => 0

/-- The length of an exponent: `e` or `E`, a sign or none, and at least one digit. -/
def exponentLength : List Char → Nat
  | e :: cs =>
    if e == 'e' || e == 'E' then
      let sign := if cs.head? == some '+' || cs.head? == some '-' then 1 else 0
      match ((cs.drop sign).takeWhile Char.isDigit).length with
      | 0 => 0
      | n => 1 + sign + n
    else 0
  | [] => 0

/-- The length of the number without what is suffixed to it. -/
def digitsLength (text : List Char) : Nat × Kind :=
  match text with
  | '0' :: x :: cs =>
    if x == 'x' || x == 'X' then
      (2 + (cs.takeWhile fun c => isHexDigit c || c == '_').length, .intLit)
    else decimal text
  | _ => decimal text
where
  decimal (text : List Char) : Nat × Kind :=
    let whole := (text.takeWhile fun c => c.isDigit || c == '_').length
    let fraction := fractionLength (text.drop whole)
    let exponent := exponentLength (text.drop (whole + fraction))
    (whole + fraction + exponent, if fraction == 0 && exponent == 0 then .intLit else .floatLit)

/-- The length and the kind of a number. -/
def numberLength (text : List Char) : Nat × Kind :=
  let (n, kind) := digitsLength text
  (n + ((text.drop n).takeWhile Char.isAlphanum).length, kind)

/-! ## String literals -/

open Text

/-- The characters after the opening quote that belong to the literal, and whether the last of them
closes it. An open literal stops before the end of its line. -/
def stringRest (quote : Char) : List Char → Nat × Bool
  | [] => (0, false)
  | '\\' :: [] => (1, false)
  | '\\' :: escaped :: cs =>
    if isLineBreak escaped then (1, false)
    else
      let (n, closed) := stringRest quote cs
      (n + 2, closed)
  | c :: cs =>
    if isLineBreak c then (0, false)
    else if c == quote then (1, true)
    else
      let (n, closed) := stringRest quote cs
      (n + 1, closed)

def stringLength (quote : Char) (afterQuote : List Char) : Nat × Bool :=
  let (n, closed) := stringRest quote afterQuote
  (n + 1, closed)

end RuleLang.Lexeme
