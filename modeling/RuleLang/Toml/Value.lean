/-!
# TOML values

## Main definitions

* `Key`, `Value` — what a TOML document holds.
-/

namespace RuleLang.Toml

abbrev Key := List Char

inductive Value where
  | boolean (value : Bool)
  | integer (value : Int)
  /-- A number with a fraction or an exponent, an infinity or a NaN, as it is written. -/
  | float (literal : List Char)
  /-- A date, a time or both, as it is written. -/
  | moment (literal : List Char)
  | string (text : List Char)
  | array (items : List Value)
  | table (fields : List (Key × Value))
  deriving Repr

/-- Characters that stand for themselves in strings and comments: no control characters but tabs. -/
def isPlain (c : Char) : Bool :=
  c == '\t' || (0x20 ≤ c.toNat && c.toNat != 0x7f)

/-- The blanks within a line. -/
def isSpace (c : Char) : Bool :=
  c == ' ' || c == '\t'

end RuleLang.Toml
