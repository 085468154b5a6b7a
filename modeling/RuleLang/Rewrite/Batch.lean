import RuleLang.Config
import RuleLang.Rewrite.Edit
import RuleLang.Tree.SyntaxTree

/-!
# Rewriting

A batch of edits is applied to a tree at once. Of two edits of one element the first wins; an edit
inside the target of another is dropped. What no edit reaches is kept as it is.

## Main definitions

* `Batch.settle` — which edits are carried out and which are dropped.
* `Stamped.rebuild` — the tree with the edits carried out.
* `SyntaxTree.apply`, `SyntaxTree.replace` — the outcome of a batch, and of a single edit.
-/

namespace RuleLang

open Stamped

/-- Why an edit is dropped. -/
inductive DropReason where
  | sameElement
  | enclosed
  deriving DecidableEq, Repr

def DropReason.describe : DropReason → String
  | .sameElement => "another edit of the same element came first"
  | .enclosed => "an edit of an enclosing element wins"

/-- An edit with the place of its target. -/
structure Targeted where
  place : Place
  edit : Edit
  deriving Repr

structure Dropped where
  target : Targeted
  reason : DropReason
  deriving Repr

namespace Dropped

def message (d : Dropped) : String :=
  "dropped edit (" ++ d.target.edit.action.describe ++ ") of " ++
    d.target.place.element.kind.name ++ " at " ++ d.target.place.span.describe ++ ": " ++
    d.reason.describe

def diagnostic (sourceId : String) (map : LineMap) (d : Dropped) : Diagnostic :=
  .ofKind .warning .rewriteConflict d.message (.ofSpan sourceId map d.target.place.span)

end Dropped

/-! ## Settling a batch -/

namespace Batch

/-- The targets of the edits, or the failure of the first handle that leads nowhere. -/
def resolve (index : TreeIndex) (edits : List Edit) : Except Failure (List Targeted) :=
  edits.mapM fun e => (index.resolve e.handle).map fun p => ⟨p, e⟩

/-- The first edit of every element, and the later ones; `seen` holds the handles met before. -/
def splitRepeated (seen : List Handle) : List Targeted → List Targeted × List Targeted
  | [] => ([], [])
  | t :: ts =>
    if seen.contains t.edit.handle then
      let (unique, repeated) := splitRepeated seen ts
      (unique, t :: repeated)
    else
      let (unique, repeated) := splitRepeated (t.edit.handle :: seen) ts
      (t :: unique, repeated)

/-- A node above the target is a target itself. -/
def isEnclosed (index : TreeIndex) (targets : List Handle) (t : Targeted) : Bool :=
  t.place.above.any fun n =>
    (index.places[n]?.bind fun p => index.handleOf? p.identity).any targets.contains

structure Settled where
  accepted : List Targeted
  dropped : List Dropped
  deriving Repr

def settle (index : TreeIndex) (targeted : List Targeted) : Settled :=
  let (unique, repeated) := splitRepeated [] targeted
  let targets := unique.map fun t => t.edit.handle
  let (enclosed, accepted) := unique.partition (isEnclosed index targets)
  ⟨accepted, repeated.map (⟨·, .sameElement⟩) ++ enclosed.map (⟨·, .enclosed⟩)⟩

end Batch

/-! ## Rebuilding -/

/-- New content with its stamps. A text is stamped anew at every place that it is put in. -/
inductive Content where
  | nothing
  | text (text : List Char)
  | element (element : Stamped)
  deriving Repr

/-- What to do with which places. -/
structure Plan where
  /-- The new contents, the latest first: it wins where two are for one place. -/
  contents : List (Identity × Content)
  /-- The nodes above the places with new contents. -/
  touched : List Identity
  deriving Repr

namespace Plan

def content? (p : Plan) (i : Identity) : Option Content :=
  p.contents.lookup i

/-- The content of an action, stamped from `supply` on, and the supply after it. -/
def stamp (supply : Nat) : Action → Content × Nat
  | .delete => (.nothing, supply)
  | .replace (.text t) => (.text t, supply)
  | .replace (.token k t) => (.element (.token supply k t), supply + 1)
  | .replace (.node e) =>
    let (e, supply) := Stamped.ofElement supply e
    (.element e, supply)

/-- The plan of the accepted edits, and the supply after stamping their contents. -/
def ofAccepted (index : TreeIndex) (supply : Nat) (accepted : List Targeted) : Plan × Nat :=
  accepted.foldl
    (fun (plan, supply) t =>
      let (content, supply) := stamp supply t.edit.action
      let above := t.place.above.filterMap fun n => index.places[n]?.map Place.identity
      (⟨(t.place.identity, content) :: plan.contents, above ++ plan.touched⟩, supply))
    (⟨[], []⟩, supply)

/-- The number of places with new contents. -/
def count (p : Plan) : Nat :=
  (p.contents.map Prod.fst).eraseDups.length

end Plan

namespace Stamped

/-- A text put in unread for an element. -/
def ofText (supply : Nat) (old : Stamped) (text : List Char) : Stamped × Nat :=
  if old.isNode then
    (.node supply old.kind [.token (supply + 1) .verbatim text], supply + 2)
  else (.token supply .verbatim text, supply + 1)

/-- What an element gives way to. -/
def substitute (supply : Nat) (old : Stamped) : Content → List Stamped × Nat
  | .nothing => ([], supply)
  | .text t =>
    let (new, supply) := ofText supply old t
    ([new], supply)
  | .element new => ([new], supply)

mutual

/-- Carries out the plan below an element. Only the nodes above new content are made anew. -/
def rebuild (plan : Plan) (offset supply : Nat) : Stamped → Stamped × Nat
  | .token s k t => (.token s k t, supply)
  | .node s k cs =>
    if plan.touched.contains ⟨s, offset⟩ then
      let (cs, supply) := rebuildAll plan offset supply cs
      (.node supply k cs, supply + 1)
    else (.node s k cs, supply)

def rebuildAll (plan : Plan) (offset supply : Nat) : List Stamped → List Stamped × Nat
  | [] => ([], supply)
  | e :: es =>
    let (new, supply) :=
      match plan.content? ⟨e.stamp, offset⟩ with
      | some content => substitute supply e content
      | none =>
        let (e, supply) := rebuild plan offset supply e
        ([e], supply)
    let (rest, supply) := rebuildAll plan (offset + e.width) supply es
    (new ++ rest, supply)

end

/-- New content for a whole tree: its root stays a compilation unit. -/
def asRoot (supply : Nat) : Content → Stamped × Nat
  | .nothing => (.node supply .compilationUnit [], supply + 1)
  | .text t => (.node supply .compilationUnit [.token (supply + 1) .verbatim t], supply + 2)
  | .element (.node s .compilationUnit cs) => (.node s .compilationUnit cs, supply)
  | .element e => (.node supply .compilationUnit [e], supply + 1)

/-- Carries out the plan on a whole tree. -/
def rewrite (plan : Plan) (supply : Nat) (root : Stamped) : Stamped × Nat :=
  match plan.content? ⟨root.stamp, 0⟩ with
  | some content => asRoot supply content
  | none => rebuild plan 0 supply root

end Stamped

/-! ## Outcomes -/

structure Rewritten where
  tree : SyntaxTree
  /-- A warning for every dropped edit, by offset. -/
  diagnostics : List Diagnostic
  applied : Nat
  dropped : Nat
  deriving Repr

namespace Rewritten

def text (r : Rewritten) : List Char :=
  r.tree.text

end Rewritten

namespace SyntaxTree

/-- Applies a batch. The new tree has the given identity; an empty batch leaves the tree itself. -/
def apply (config : RewriteConfig) (id : TreeId) (tree : SyntaxTree) (edits : List Edit) :
    Except Failure Rewritten :=
  if edits.isEmpty then .ok ⟨tree, [], 0, 0⟩
  else
    let index := tree.index
    (Batch.resolve index edits).map fun targeted =>
      let settled := Batch.settle index targeted
      let (plan, supply) := Plan.ofAccepted index tree.supply settled.accepted
      let (root, supply) := tree.root.rewrite plan supply
      let map := LineMap.ofSource tree.text
      let diagnostics :=
        if config.reportConflicts then
          Diagnostic.sort (settled.dropped.map (Dropped.diagnostic tree.sourceId map))
        else []
      ⟨⟨id, tree.sourceId, root, supply⟩, diagnostics, plan.count, settled.dropped.length⟩

/-- Applies a single edit. -/
def replace (id : TreeId) (tree : SyntaxTree) (handle : Handle) (action : Action) :
    Except Failure SyntaxTree :=
  (tree.apply {} id [⟨handle, action⟩]).map Rewritten.tree

end SyntaxTree

end RuleLang
