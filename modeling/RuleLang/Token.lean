import RuleLang.Kind
import RuleLang.Text.Position

/-!
# Tokens

A token is a piece of the source text with its kind and the position of its first character.

## Main definitions

* `Token` — kind, text and position.
* `Token.span` — the bytes of the source that the token covers.
-/

namespace RuleLang

structure Token where
  kind : Kind
  text : List Char
  position : Position
  deriving DecidableEq, Repr, Inhabited

namespace Token

def span (t : Token) : Span :=
  ⟨t.position.offset, t.position.offset + Text.byteLength t.text⟩

def isTrivia (t : Token) : Bool :=
  t.kind.isTrivia

end Token

end RuleLang
