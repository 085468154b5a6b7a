import RuleLang.Tree.Builder

/-!
# Checkpoints

A mark says where a node may be opened later, but not which node was open when the mark was made. A
builder that counts its calls tells both: a checkpoint is a mark with its time, and an open node has
a time as well.

## Main definitions

* `Checkpoint` — a mark and its time.
* `ClockedBuilder` — a builder that counts its calls.
* `ClockedBuilder.isLive` — the innermost open node was open already when a checkpoint was made.
* `ClockedBuilder.startAt` — opens a node at a live checkpoint, and fails at any other.
-/

namespace RuleLang

/-- A mark, and how many calls there were before it. -/
structure Checkpoint where
  mark : Nat
  time : Nat

structure ClockedBuilder where
  tree : TreeBuilder := {}
  /-- How many calls there were before each open node was opened, the innermost node first. -/
  opened : List Nat := []
  /-- How many calls there were. -/
  now : Nat := 0

namespace ClockedBuilder

def checkpoint (b : ClockedBuilder) : Checkpoint :=
  ⟨b.tree.mark, b.now⟩

def apply (b : ClockedBuilder) (call : TreeBuilder.Call) : Option ClockedBuilder :=
  (b.tree.apply call).map fun tree =>
    let opened :=
      match call with
      | .start _ | .startAt _ _ => b.now :: b.opened
      | .token _ _ => b.opened
      | .finish => b.opened.tail
    ⟨tree, opened, b.now + 1⟩

/-- The innermost open node was open already when the checkpoint was made. -/
def isLive (b : ClockedBuilder) (c : Checkpoint) : Bool :=
  b.opened.head?.all fun time => time < c.time

/-- Opens a node at a checkpoint. That the checkpoint is live does not say that its mark can be
used: a node that was opened at an earlier mark may have taken in what stood before it. Both are
asked for. -/
def startAt (b : ClockedBuilder) (c : Checkpoint) (kind : Kind) : Option ClockedBuilder :=
  if b.isLive c then b.apply (.startAt c.mark kind) else none

/-- Adds tokens, one call each. -/
def tokens (b : ClockedBuilder) (ts : List Token) : Option ClockedBuilder :=
  ts.foldlM (fun b t => b.apply (.token t.kind t.text)) b

/-! ## What the calls do -/

/-- The same state with a node opened at a mark. -/
def opening (b : ClockedBuilder) (kind : Kind) (mark : Nat) : ClockedBuilder :=
  ⟨{ b.tree with openNodes := (kind, mark) :: b.tree.openNodes }, b.now :: b.opened, b.now + 1⟩

variable {b : ClockedBuilder} {c : Checkpoint} {kind : Kind}
  {rest : List (Kind × Nat)}

theorem isLive_iff : b.isLive c = true ↔ ∀ time ∈ b.opened.head?, time < c.time := by
  cases h : b.opened.head? <;> simp [isLive, h]

/-- At a live checkpoint whose mark can be used a node is opened. -/
theorem startAt_eq (hlive : b.isLive c = true) (hmark : b.tree.canStartAt c.mark = true)
    (kind : Kind) : b.startAt c kind = some (b.opening kind c.mark) := by
  simp [startAt, hlive, apply, TreeBuilder.apply, hmark, opening]

/-- Tokens are added in any state. -/
theorem tokens_eq (b : ClockedBuilder) (ts : List Token) :
    b.tokens ts =
      some ⟨{ b.tree with elements := (ts.map Element.ofToken).reverse ++ b.tree.elements },
        b.opened, b.now + ts.length⟩ := by
  induction ts generalizing b with
  | nil => rfl
  | cons t ts ih =>
    change tokens ⟨{ b.tree with elements := .ofToken t :: b.tree.elements }, b.opened, b.now + 1⟩ ts
      = _
    rw [ih]
    simp [Nat.add_right_comm, Nat.add_assoc]

/-- What was added since the innermost node was opened becomes its children. -/
theorem apply_finish {group base : List Element}
    (hopen : b.tree.openNodes = (kind, base.length) :: rest)
    (helements : b.tree.elements = group ++ base) :
    b.apply .finish =
      some ⟨⟨.node kind group.reverse :: base, rest⟩, b.opened.tail, b.now + 1⟩ := by
  simp [apply, TreeBuilder.apply, hopen, helements]

end ClockedBuilder

end RuleLang
