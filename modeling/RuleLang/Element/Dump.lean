import RuleLang.Element
import RuleLang.Text.Quoted

/-!
# Tree dumps

A tree as indented lines, one for each element: kind and byte range, and for a token its text in
quotes.

## Main definitions

* `DumpStyle` — the indentation, and whether trivia is shown.
* `Element.dumpLines`, `Element.dump` — the dump as lines and as one text.
-/

namespace RuleLang

structure DumpStyle where
  /-- Show blanks and comments. -/
  trivia : Bool := true
  /-- Blanks for each level. -/
  indent : Nat := 2
  deriving DecidableEq, Repr, Inhabited

namespace Element

/-- The line of one element. -/
def Placed.line (indent : Nat) (p : Placed) : List Char :=
  List.replicate (p.depth * indent) ' ' ++ p.element.kind.name.toList ++ ['@'] ++
    p.span.describe.toList ++
    match p.element with
    | .token _ text => ' ' :: Text.quote text
    | .node _ _ => []

def dumpLines (style : DumpStyle) (root : Element) : List (List Char) :=
  (root.elements.filter fun p => style.trivia || !p.element.isTrivia).map
    (Placed.line style.indent)

def dump (style : DumpStyle) (root : Element) : List Char :=
  (root.dumpLines style).flatMap (· ++ ['\n'])

end Element

end RuleLang
