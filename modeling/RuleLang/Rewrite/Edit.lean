import RuleLang.Failure
import RuleLang.Fragment
import RuleLang.Text.Quoted

/-!
# Edits

A change that is asked of a tree: an element is deleted or gives way to new content.

## Main definitions

* `Replacement` — new content: an unread text, a node, or a token.
* `Action`, `Edit` — what to do, and where.
* `Action.describe` — how messages show an action.
-/

namespace RuleLang

inductive Replacement where
  /-- A text that is put in unread, under the kind of the node that it replaces. -/
  | text (text : List Char)
  | node (element : Element)
  | token (kind : Kind) (text : List Char)
  deriving Repr

namespace Replacement

/-- The text that the replacement puts in. -/
def content : Replacement → List Char
  | .text t => t
  | .node e => e.text
  | .token _ t => t

/-- The most characters that messages show of a replacement. -/
def shown : Nat := 40

/-- The start of the text in quotes. -/
def summary (r : Replacement) : List Char :=
  let text := r.content
  Text.quote (if shown < text.length then text.take shown ++ ['.', '.', '.'] else text)

end Replacement

inductive Action where
  | replace (replacement : Replacement)
  | delete
  deriving Repr

def Action.describe : Action → String
  | .replace r => "replace with " ++ String.ofList r.summary
  | .delete => "delete"

structure Edit where
  handle : Handle
  action : Action
  deriving Repr

end RuleLang
