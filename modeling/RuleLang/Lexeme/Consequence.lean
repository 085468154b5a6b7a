import RuleLang.Lexeme.Literal
import RuleLang.Lexeme.Trivia
import RuleLang.Lexeme.Word

/-!
# The end of a consequence

The consequence of a rule is code of another language and is not read as tokens. It ends at the
first word `end` that is not nested in brackets, stands outside strings and comments, and either
opens the consequence, opens its line, or follows `;` or `}`. An `end` before `(`, `.`, `[` or `=`
is a name in that code and ends nothing.

## Main definitions

* `Scan` — what the text read so far tells about a word `end` that comes next.
* `consequenceLength?` — the characters before the closing `end`.
-/

namespace RuleLang.Lexeme

open Text

/-- What matters of the consequence text read so far. -/
structure Scan where
  /-- Opening minus closing brackets. -/
  depth : Int
  /-- The last character that is neither blank nor comment. -/
  last : Option Char
  /-- A line ended since that character. -/
  lineEnded : Bool
  deriving DecidableEq, Repr, Inhabited

namespace Scan

def initial : Scan := ⟨0, none, false⟩

/-- A word `end` at this point may close the consequence. -/
def atBoundary (s : Scan) : Bool :=
  s.depth ≤ 0 && (s.last.isNone || s.lineEnded || s.last == some ';' || s.last == some '}')

/-- After text that counts, with `c` its last character. -/
def sawCode (s : Scan) (c : Char) : Scan :=
  { s with last := some c, lineEnded := false }

end Scan

/-- The word that opens the text. -/
def wordAt (text : List Char) : List Char :=
  text.takeWhile isWordPart

/-- The text goes on in a way that makes the word before it a name. -/
def usesAsName (after : List Char) : Bool :=
  (trimStart after).head?.any fun c => c == '(' || c == '.' || c == '[' || c == '='

/-- The text opens with a word `end` that closes the consequence. -/
def closesHere (s : Scan) (text : List Char) : Bool :=
  text.head?.any isWordStart && wordAt text == ['e', 'n', 'd'] && s.atBoundary &&
    !usesAsName (text.drop (wordAt text).length)

/-- One step over the first piece of a text: a blank, a comment, a string, a word or a single
character. Returns the characters of the piece after its first, and the new state. -/
def stepConsequence (s : Scan) (c : Char) (rest : List Char) : Nat × Scan :=
  if isLineBreak c then (0, { s with lineEnded := true })
  else if isBlank c then (0, s)
  else if startsLineComment (c :: rest) then (lineCommentLength rest, s)
  else if startsBlockComment (c :: rest) then ((blockCommentLength (c :: rest)).1 - 1, s)
  else if c == '"' || c == '\x27' then ((stringRest c rest).1, s.sawCode c)
  else if c == '(' || c == '\x7b' || c == '[' then
    (0, { s with depth := s.depth + 1 }.sawCode c)
  else if c == ')' || c == '\x7d' || c == ']' then
    (0, { s with depth := s.depth - 1 }.sawCode c)
  else if isWordStart c then
    ((rest.takeWhile isWordPart).length, s.sawCode ((wordAt (c :: rest)).getLastD c))
  else (0, s.sawCode c)

/-- The characters before the closing `end`. The first `skip` characters belong to a piece that is
already read, and `before` characters precede the text. -/
def findEnd (s : Scan) (before : Nat) : Nat → List Char → Option Nat
  | _, [] => none
  | skip + 1, _ :: rest => findEnd s (before + 1) skip rest
  | 0, c :: rest =>
    if closesHere s (c :: rest) then some before
    else
      let (skip, s) := stepConsequence s c rest
      findEnd s (before + 1) skip rest

def consequenceLength? (text : List Char) : Option Nat :=
  findEnd .initial 0 0 text

end RuleLang.Lexeme
