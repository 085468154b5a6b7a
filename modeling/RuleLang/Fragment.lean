import RuleLang.Failure
import RuleLang.Parser

/-!
# Fragments

Pieces of a rule file that are read on their own, to be put into a tree later.

## Main definitions

* `Fragment.read` — the node of a fragment, or why the text is none.
* `Fragment.verbatim` — a node that holds a text unread.
-/

namespace RuleLang

namespace FragmentKind

/-- The production that reads the fragment. -/
def production : FragmentKind → Production
  | .pattern => .pattern
  | .constraint => .constraint
  | .expression => .expr
  | .attribute => .attribute
  | .rule => .ruleDecl

/-- The kind of node that the fragment has to be; an expression may be of any. -/
def expected? : FragmentKind → Option Kind
  | .pattern => some .pattern
  | .constraint => some .constraint
  | .expression => none
  | .attribute => some .attribute
  | .rule => some .ruleDecl

end FragmentKind

namespace Fragment

/-- Reads a text that has to be one fragment without errors. -/
def read (fragment : FragmentKind) (source : List Char) : Except FragmentFault Element :=
  let lexed := lex source
  match lexed.errors with
  | e :: _ => .error (.malformed e.fault)
  | [] =>
    let reading := fragment.production.read none lexed.tokens
    if reading.ahead.current != .eof then .error (.leftover reading.ahead.current)
    else
      match reading.recorded.find? fun e => !e.isWarning with
      | some e => .error (.ungrammatical e.complaint)
      | none =>
        match reading.elements.find? Element.isNode with
        | some node =>
          if fragment.expected?.all fun k => node.kind == k then .ok node
          else .error (.notProduced fragment)
        | none => .error (.notProduced fragment)

/-- A node of one token. -/
def ofToken (kind tokenKind : Kind) (text : List Char) : Element :=
  .node kind [.token tokenKind text]

/-- A node that holds a text unread. -/
def verbatim (kind : Kind) (text : List Char) : Element :=
  ofToken kind .verbatim text

end Fragment

end RuleLang
