/-!
# Edit scripts

How one list becomes another with as few insertions and deletions as possible. Of the shortest
scripts one is found by a search from both ends, which cuts the lists in two where the ends meet;
then inserted runs are joined and slid down as far as they go.

A removal or an addition has a place in the list that it takes nothing from, which the search notes.
A run that slides along kept elements takes its place along with it, but where additions and
removals change their order their places stay as they were noted.

## Main definitions

* `Step`, `Script` — what is done with each element, in order.
* `Script.meet?` — a point that a shortest script passes.
* `Script.shortest` — a shortest script.
* `Script.Slide` — an inserted run on its way up or down.
* `Script.settle` — the script with inserted runs moved to their places.
* `Script.between` — the script that is shown.
-/

namespace RuleLang

inductive Step (α : Type) where
  | keep (a : α)
  /-- Removes an element, at a place in the new list. -/
  | remove (a : α) (place : Nat)
  /-- Adds a run of elements, at a place in the old list. -/
  | add (run : List α) (place : Nat)
  deriving DecidableEq, Repr

abbrev Script (α : Type) := List (Step α)

namespace Script

variable {α : Type} [DecidableEq α]

/-! ## The search -/

/-- How many elements two lists have in common at the front. -/
def common : List α → List α → Nat
  | a :: as, b :: bs => if a = b then common as bs + 1 else 0
  | _, _ => 0

theorem take_common (as bs : List α) : as.take (common as bs) = bs.take (common as bs) := by
  induction as generalizing bs with
  | nil => simp [common]
  | cons a as ih =>
    cases bs with
    | nil => simp [common]
    | cons b bs =>
      simp only [common]
      split
      · next h => simp [h, ih]
      · simp

/-- Where paths with one edit more start to run, below the highest diagonal: from the higher
neighbour by an insertion, or from the lower by a deletion, whichever reaches further. -/
def stepsBelow : List Nat → List Nat
  | upper :: lower :: rest =>
    (if lower < upper then upper else lower + 1) :: stepsBelow (lower :: rest)
  | reaches => reaches

/-- Where paths with one edit more start to run, from the highest diagonal to the lowest. -/
def steps : List Nat → List Nat
  | [] => [0]
  | upper :: rest => (upper + 1) :: stepsBelow (upper :: rest)

/-- The paths with `edits` edits that reach furthest, from the highest diagonal to the lowest: each
with its diagonal, the place in the old list where its last run starts, and where it ends. -/
def reach (old new : List α) (edits : Nat) (previous : List Nat) : List (Int × Nat × Nat) :=
  (steps previous).zipIdx.map fun (x, i) =>
    let diagonal : Int := (edits : Int) - 2 * i
    let y := ((x : Int) - diagonal).toNat
    (diagonal, x, x + common (old.drop x) (new.drop y))

/-- The place that the path on a diagonal reaches. -/
def reached (edits : Int) (reaches : List Nat) (diagonal : Int) : Nat :=
  if diagonal.natAbs ≤ edits then reaches.getD ((edits - diagonal) / 2).toNat 0 else 0

/-- A point that a shortest script passes, as places in both lists. Paths from the front and from the
back take one edit more in each round; they meet where together they cover the old list. -/
def meet? (old new : List α) : Nat → Nat → List Nat → List Nat → Option (Nat × Nat)
  | 0, _, _, _ => none
  | rounds + 1, edits, front, back =>
    let delta : Int := (old.length : Int) - new.length
    let odd := delta % 2 != 0
    let forward := reach old new edits front
    let frontMeets := forward.find? fun (diagonal, _, stop) =>
      odd && (diagonal - delta).natAbs < edits &&
        old.length ≤ stop + reached ((edits : Int) - 1) back (delta - diagonal)
    match frontMeets with
    | some (diagonal, start, _) => some (start, ((start : Int) - diagonal).toNat)
    | none =>
      let front := forward.map fun (_, _, stop) => stop
      let backward := reach old.reverse new.reverse edits back
      let backMeets := backward.find? fun (diagonal, _, stop) =>
        !odd && (diagonal - delta).natAbs ≤ edits &&
          old.length ≤ stop + reached edits front (delta - diagonal)
      match backMeets with
      | some (diagonal, _, stop) =>
        some (old.length - stop, new.length - ((stop : Int) - diagonal).toNat)
      | none => meet? old new rounds (edits + 1) front (backward.map fun (_, _, stop) => stop)

/-- Everything removed, then everything added, in lists that start at the given places. -/
def replaceAll (oldPlace newPlace : Nat) (old new : List α) : Script α :=
  old.map (.remove · newPlace) ++ (if new.isEmpty then [] else [.add new oldPlace])

/-- A shortest script for lists that start at the given places. The fuel exceeds the length of both
lists together. -/
def shortest : Nat → Nat → Nat → List α → List α → Script α
  | 0, oldPlace, newPlace, old, new => replaceAll oldPlace newPlace old new
  | fuel + 1, oldPlace, newPlace, old, new =>
    let head := common old new
    let oldPlace := oldPlace + head
    let newPlace := newPlace + head
    let old' := old.drop head
    let new' := new.drop head
    let tail := common old'.reverse new'.reverse
    let oldMiddle := old'.take (old'.length - tail)
    let newMiddle := new'.take (new'.length - tail)
    let middle :=
      if oldMiddle.isEmpty || newMiddle.isEmpty then
        replaceAll oldPlace newPlace oldMiddle newMiddle
      else
        match meet? oldMiddle newMiddle ((oldMiddle.length + newMiddle.length + 1) / 2 + 1) 0 [] []
            with
        | some (x, y) =>
          shortest fuel oldPlace newPlace (oldMiddle.take x) (newMiddle.take y) ++
            shortest fuel (oldPlace + x) (newPlace + y) (oldMiddle.drop x) (newMiddle.drop y)
        | none => replaceAll oldPlace newPlace oldMiddle newMiddle
    (old.take head).map .keep ++ middle ++ (old'.drop (old'.length - tail)).map .keep

/-! ## Settling insertions -/

/-- Among steps without a kept element, the insertions before the deletions. The first two arguments
are the insertions and deletions since the last kept element, newest first. -/
def gather (added removed : Script α) : Script α → Script α
  | [] => added.reverse ++ removed.reverse
  | .add run place :: script => gather (.add run place :: added) removed script
  | .remove a place :: script => gather added (.remove a place :: removed) script
  | .keep a :: script => added.reverse ++ removed.reverse ++ .keep a :: gather [] [] script

/-- A script that is cut in two at an inserted run. -/
structure Slide (α : Type) where
  /-- The steps before the run, newest first. -/
  above : Script α := []
  /-- The inserted run; it may be missing. -/
  run : List α := []
  /-- The place of the run in the old list. -/
  place : Nat := 0
  below : Script α := []

namespace Slide

/-- Moves the run up: past deletions, past kept elements that equal its last element, and together
with insertions, of which the first gives the place. -/
def up : Script α → List α → Nat → Script α → Slide α
  | [], run, place, below => ⟨[], run, place, below⟩
  | .remove a noted :: above, run, place, below => up above run place (.remove a noted :: below)
  | .add earlier noted :: above, run, _, below => up above (earlier ++ run) noted below
  | .keep a :: above, run, place, below =>
    if run.getLast? = some a then up above (a :: run.dropLast) (place - 1) (.keep a :: below)
    else ⟨.keep a :: above, run, place, below⟩

/-- Moves the run down: past deletions, past kept elements that equal its first element, and together
with insertions. -/
def down (above : Script α) (run : List α) (place : Nat) : Script α → Slide α
  | [] => ⟨above, run, place, []⟩
  | .remove a noted :: below => down (.remove a noted :: above) run place below
  | .add later _ :: below => down above (run ++ later) place below
  | .keep a :: below =>
    if run.head? = some a then down (.keep a :: above) (run.tail ++ [a]) (place + 1) below
    else ⟨above, run, place, .keep a :: below⟩

/-- A run that meets an element that it cannot pass has found its place; then no run is left to
move. -/
def halt (s : Slide α) : Slide α :=
  if s.below.isEmpty then s else { above := s.below.reverse ++ .add s.run s.place :: s.above }

/-- Takes the next step of the script into account, when nothing is left below. -/
def push (s : Slide α) (step : Step α) : Slide α :=
  match s.run, step with
  | [], .add run place =>
    let s := up s.above run place []
    (down s.above s.run s.place s.below).halt
  | [], step => { above := step :: s.above }
  | run, step => (down s.above run s.place [step]).halt

/-- The steps in order. -/
def toScript (s : Slide α) : Script α :=
  s.above.reverse ++ (if s.run.isEmpty then [] else [.add s.run s.place]) ++ s.below

end Slide

/-- The script with inserted runs moved to their places. -/
def settle (script : Script α) : Script α :=
  (script.foldl Slide.push {}).toScript

/-- The script that leads from one list to another. -/
def between (old new : List α) : Script α :=
  settle (gather [] [] (shortest (old.length + new.length + 1) 0 0 old new))

end Script

end RuleLang
