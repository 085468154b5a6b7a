import RuleLang.Diff.Script
import RuleLang.Text.Lines

/-!
# Unified diffs

The difference between two texts by lines: hunks of changed lines with some lines of context.

## Main definitions

* `Diff.Block`, `Diff.blocks` — kept and changed lines in turn.
* `Diff.hunks` — the blocks near changes.
* `Diff.unified` — the text of a diff.
-/

namespace RuleLang.Diff

abbrev Line := List Char

/-- Lines that others take the place of, with the places that are noted of the first step on either
side. -/
structure Change where
  removed : List Line := []
  /-- The place in the new text at which lines are removed. -/
  newPlace : Nat := 0
  added : List Line := []
  /-- The place in the old text at which lines are added. -/
  oldPlace : Nat := 0
  deriving DecidableEq, Repr

inductive Block where
  | same (lines : List Line)
  | changed (change : Change)
  deriving DecidableEq, Repr

namespace Block

/-- The lines before the change. -/
def old : Block → List Line
  | .same lines => lines
  | .changed change => change.removed

/-- The lines after the change. -/
def new : Block → List Line
  | .same lines => lines
  | .changed change => change.added

def isChanged : Block → Bool
  | .same _ => false
  | .changed _ => true

end Block

/-- Puts a step that changes lines before a change. -/
def Change.consStep : Step Line → Change → Change
  | .keep _, change => change
  | .remove l place, change => { change with removed := l :: change.removed, newPlace := place }
  | .add ls place, change => { change with added := ls ++ change.added, oldPlace := place }

/-- Puts a step before blocks. -/
def consStep : Step Line → List Block → List Block
  | .keep l, .same ls :: blocks => .same (l :: ls) :: blocks
  | .keep l, blocks => .same [l] :: blocks
  | step, .changed change :: blocks => .changed (change.consStep step) :: blocks
  | step, blocks => .changed (Change.consStep step {}) :: blocks

/-- The blocks of a script; changed blocks have kept lines between them. -/
def blocks (script : Script Line) : List Block :=
  script.foldr consStep []

/-- A block with the places at which it starts. -/
structure Placed where
  block : Block
  oldStart : Nat
  newStart : Nat

/-- Places blocks one after another. One that only removes or only adds lines starts on the other
side at the place that is noted of it. -/
def place (oldStart newStart : Nat) : List Block → List Placed
  | [] => []
  | b :: bs =>
    let rest := place (oldStart + b.old.length) (newStart + b.new.length) bs
    match b with
    | .same _ => ⟨b, oldStart, newStart⟩ :: rest
    | .changed change =>
      ⟨b, if change.removed.isEmpty then change.oldPlace else oldStart,
        if change.added.isEmpty then change.newPlace else newStart⟩ :: rest

namespace Placed

/-- The first `n` lines of kept lines. -/
def takeSame (n : Nat) (p : Placed) : Placed :=
  match p.block with
  | .same lines => { p with block := .same (lines.take n) }
  | .changed _ => p

/-- The last `n` lines of kept lines. -/
def lastSame (n : Nat) (p : Placed) : Placed :=
  match p.block with
  | .same lines =>
    let skipped := lines.length - n
    ⟨.same (lines.drop skipped), p.oldStart + skipped, p.newStart + skipped⟩
  | .changed _ => p

end Placed

abbrev Hunk := List Placed

/-- Cuts blocks in two at long runs of kept lines, of which `context` lines stay on either side.
`pending` is the hunk so far, newest first. -/
def cutHunks (context : Nat) (pending : List Placed) : List Placed → List Hunk
  | [] => if pending.any fun p => p.block.isChanged then [pending.reverse] else []
  | p :: ps =>
    if !p.block.isChanged && 2 * context < p.block.old.length then
      (p.takeSame context :: pending).reverse :: cutHunks context [p.lastSame context] ps
    else cutHunks context (p :: pending) ps

/-- Changes the first element of a list. -/
def mapHead {α : Type} (f : α → α) : List α → List α
  | [] => []
  | a :: as => f a :: as

/-- The hunks of a diff. -/
def hunks (context : Nat) (bs : List Block) : List Hunk :=
  let placed := mapHead (Placed.lastSame context) (place 0 0 bs)
  cutHunks context [] (mapHead (Placed.takeSame context) placed.reverse).reverse

/-! ## Text -/

/-- The lines from one place up to another: the first line and their number; the number one is left
out, and an empty range names the line before it. -/
def range (start stop : Nat) : String :=
  let length := stop - start
  if length = 1 then toString (start + 1)
  else toString (if length = 0 then start else start + 1) ++ "," ++ toString length

/-- A line with its mark. -/
def markLine (mark : Char) (line : Line) : List Char :=
  if line.getLast?.any Text.isLineBreak then mark :: line
  else mark :: line ++ "\n\\ No newline at end of file\n".toList

def renderBlock : Block → List Char
  | .same lines => lines.flatMap (markLine ' ')
  | .changed change =>
    change.removed.flatMap (markLine '-') ++ change.added.flatMap (markLine '+')

/-- The ranges of a hunk, from the start of its first block to the end of its last. -/
def Hunk.header (hunk : Hunk) : String :=
  match hunk.head?, hunk.getLast? with
  | some first, some last =>
    "@@ -" ++ range first.oldStart (last.oldStart + last.block.old.length) ++
      " +" ++ range first.newStart (last.newStart + last.block.new.length) ++ " @@\n"
  | _, _ => ""

def Hunk.render (hunk : Hunk) : List Char :=
  hunk.header.toList ++ hunk.flatMap fun p => renderBlock p.block

/-- The diff of two texts under their names, with three lines of context. Texts without a difference
have an empty diff. -/
def unified (oldName newName : String) (old new : List Char) : List Char :=
  match hunks 3 (blocks (Script.between (Text.lines old) (Text.lines new))) with
  | [] => []
  | hs => ("--- " ++ oldName ++ "\n+++ " ++ newName ++ "\n").toList ++ hs.flatMap Hunk.render

end RuleLang.Diff
