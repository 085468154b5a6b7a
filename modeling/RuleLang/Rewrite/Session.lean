import RuleLang.Document
import RuleLang.Rewrite.Batch

/-!
# Sessions

Trees that are made one after another, each with an identity that no tree before it had.

## Main definitions

* `Session` — the trees made so far.
* `Session.parse`, `Session.apply`, `Session.replace` — the ways to make one more.
-/

namespace RuleLang

structure Session where
  trees : Array SyntaxTree := #[]
  /-- The identity of the next tree. -/
  nextId : TreeId := 0

namespace Session

def tree? (s : Session) (slot : Nat) : Option SyntaxTree :=
  s.trees[slot]?

/-- Adds a tree that was made with the next identity, or a tree that the session holds already. -/
def add (s : Session) (t : SyntaxTree) : Session :=
  ⟨s.trees.push t, if t.id = s.nextId then s.nextId + 1 else s.nextId⟩

/-- Reads a source as a new tree. -/
def parse (s : Session) (config : ParserConfig) (sourceId : String) (source : List Char) :
    Except Failure (Document × Session) :=
  (Document.read config s.nextId sourceId source).map fun d => (d, s.add d.tree)

/-- Applies a batch to a tree of the session. -/
def apply (s : Session) (config : RewriteConfig) (tree : SyntaxTree) (edits : List Edit) :
    Except Failure (Rewritten × Session) :=
  (tree.apply config s.nextId edits).map fun r => (r, s.add r.tree)

/-- Applies a single edit to a tree of the session. -/
def replace (s : Session) (tree : SyntaxTree) (handle : Handle) (action : Action) :
    Except Failure (SyntaxTree × Session) :=
  (tree.replace s.nextId handle action).map fun t => (t, s.add t)

/-- The first slot that holds a tree. -/
def slotOf? (s : Session) (id : TreeId) : Option Nat :=
  s.trees.findIdx? fun t => t.id = id

end Session

end RuleLang
