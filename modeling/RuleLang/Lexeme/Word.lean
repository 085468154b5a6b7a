import RuleLang.Kind
import RuleLang.Text.Numeric

/-!
# Words

A word starts with a letter, `_` or `$` and goes on with letters, digits, `_` and `$`. Some keywords
are words joined by hyphens, such as `lock-on-active`: a word is read across hyphens as far as the
longest keyword that starts with it.

## Main definitions

* `isWordStart`, `isWordPart` — the characters of words.
* `wordLength` — the length and the kind of the word that opens a text.
-/

namespace RuleLang.Lexeme

open Text

def isWordStart (c : Char) : Bool :=
  isAlphabetic c || c == '_' || c == '$'

def isWordPart (c : Char) : Bool :=
  isAlphanumeric c || c == '_' || c == '$'

/-- The length of the word characters that open a text. -/
def plainWordLength (text : List Char) : Nat :=
  (text.takeWhile isWordPart).length

/-- The lengths at which the word may end: after its first part, and after each further part that a
hyphen joins to it. Each part after a hyphen starts with a letter. The first argument counts the
characters before `rest`, and `inPart` tells whether the last of them belongs to a part. -/
def joinedLengths (n : Nat) : List Char → List Nat
  | [] => [n]
  | c :: rest =>
    if isWordPart c then joinedLengths (n + 1) rest
    else if c == '-' && rest.head?.any isAlphabetic then n :: joinedLengths (n + 1) rest
    else [n]

/-- The longest joined word that is a keyword, else the first part alone as an identifier. -/
def wordLength (text : List Char) : Nat × Kind :=
  let keyword? (n : Nat) : Option (Nat × Kind) :=
    (Kind.ofKeyword? (text.take n)).map fun k => (n, k)
  ((joinedLengths 0 text).reverse.findSome? keyword?).getD (plainWordLength text, .ident)

end RuleLang.Lexeme
