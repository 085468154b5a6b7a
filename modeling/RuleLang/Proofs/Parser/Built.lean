import RuleLang.Proofs.Grammar.Builds
import RuleLang.Proofs.Parser.Bounded

/-!
# Trees are built by calls in order

A file and every kind of fragment are read with calls to a tree builder, and no call is out of
order, whatever the tokens are: a node is opened at a checkpoint only while the node around it was
open already when the checkpoint was made, and a node is closed only if one is open. In the end one
tree is built, and it is the tree that reading makes.

## Main definitions

* `Building.file?`, `Building.fragment?` — the calls for a file and for a fragment.

## Main statements

* `Building.one_root` — all calls are in order, and one root is built.
-/

namespace RuleLang

open Grammar

namespace Building

/-- Before the first token, with nothing built. -/
def start (tokens : List Token) (limit : Option Nat) : Building :=
  ⟨.start tokens limit, {}⟩

/-- The calls for a file. -/
def file? (tokens : List Token) (limit : Option Nat) : Option Building :=
  let w := start tokens limit
  assemble Production.body (nestingBound tokens) .compilationUnit w.builder.checkpoint w

/-- The calls for a fragment. It stands in a unit of its own. Where tokens are left over, the unit
is given up and stays open. -/
def fragment? (fragment : FragmentKind) (tokens : List Token) : Option Building := do
  let w ← (start tokens none).apply (.start .compilationUnit)
  let w ← assemble Production.body (nestingBound tokens) fragment.production w.builder.checkpoint w
  if w.reading.ahead.current != .eof then some w
  else (w.take Reading.takeTrivia).bind (close .compilationUnit)

/-! ## All calls are in order -/

variable {tokens : List Token} {limit : Option Nat}

theorem holds_start (tokens : List Token) (limit : Option Nat) :
    (start tokens limit).Holds true (start tokens limit).builder.checkpoint :=
  ⟨⟨[], rfl, rfl⟩, nofun, nofun, fun _ => rfl⟩

/-- What is built without a node left open is one tree, if reading made one node. -/
theorem Grows.finish? {w : Building} {k : Kind} {children : List Element}
    (h : (start tokens limit).Grows w) (hgroup : w.reading.group = [.node k children]) :
    w.builder.tree.openNodes = [] ∧ w.builder.tree.finish? = some (.node k children) := by
  have helements := h.elements [] rfl
  rw [hgroup] at helements
  exact ⟨h.openNodes, by rw [TreeBuilder.finish?, helements]; rfl⟩

/-- A file is read as one node. -/
theorem exists_group_read_compilationUnit (tokens : List Token) (limit : Option Nat) :
    ∃ children, (Production.compilationUnit.read limit tokens).group = [.node .compilationUnit children] ∧
      (parseTokens tokens limit).1 = .node .compilationUnit children := by
  have hread := Production.read?_eq_read (p := .compilationUnit) rfl limit tokens
  obtain ⟨u, -, -, hgroup⟩ := reads_compilationUnit (reads_of_enter hread)
  refine ⟨u.takeTrivia.group.reverse, hgroup, ?_⟩
  simp [parseTokens, Reading.elements, hgroup, Reading.start]

/-- The calls for a file lead where reading leads, with no node left open. -/
theorem exists_file (tokens : List Token) (limit : Option Nat) :
    ∃ b, file? tokens limit = some ⟨Production.compilationUnit.read limit tokens, b⟩ ∧
      (start tokens limit).Grows ⟨Production.compilationUnit.read limit tokens, b⟩ :=
  assemble_of_enter nests_body (Production.read?_eq_read rfl limit tokens)
    ((holds_start tokens limit).weaken rfl)

/-- The calls for a fragment up to its last significant token lead where reading leads, with the
unit around it left open. -/
theorem exists_inside (fragment : FragmentKind) (tokens : List Token) :
    ∃ b, assemble Production.body (nestingBound tokens) fragment.production ⟨0, 1⟩
        ⟨.start tokens none, (start tokens none).builder.opening .compilationUnit 0⟩ =
        some ⟨fragment.production.read none tokens, b⟩ ∧
      Grows ⟨.start tokens none, (start tokens none).builder.opening .compilationUnit 0⟩
        ⟨fragment.production.read none tokens, b⟩ := by
  have hawaits : fragment.production.awaits = false :=
    Production.awaits_ofEntry (some fragment)
  have hcontinues : fragment.production.continues = false := by
    cases fragment <;> rfl
  refine assemble_of_enter nests_body (Production.read?_eq_read hawaits none tokens) ?_
  rw [hcontinues]
  exact (holds_start tokens none).opening ⟨0, 1⟩ rfl .compilationUnit

theorem fragment?_eq {fragment : FragmentKind} {w : Building}
    (h : assemble Production.body (nestingBound tokens) fragment.production ⟨0, 1⟩
      ⟨.start tokens none, (start tokens none).builder.opening .compilationUnit 0⟩ = some w) :
    fragment? fragment tokens =
      if w.reading.ahead.current != .eof then some w
      else (w.take Reading.takeTrivia).bind (close .compilationUnit) := by
  change Option.bind (assemble Production.body (nestingBound tokens) fragment.production ⟨0, 1⟩
    ⟨.start tokens none, (start tokens none).builder.opening .compilationUnit 0⟩)
    (fun w => if w.reading.ahead.current != .eof then some w
      else (w.take Reading.takeTrivia).bind (close .compilationUnit)) = _
  rw [h, Option.bind_some]

/-- A fragment that is read to the end of the input is built as one unit. -/
theorem exists_fragment_of_eof {fragment : FragmentKind}
    (h : (fragment.production.read none tokens).ahead.current = .eof) :
    ∃ w, fragment? fragment tokens = some w ∧ (start tokens none).Grows w ∧
      w.reading.group =
        [.node .compilationUnit (fragment.production.read none tokens).takeTrivia.elements] := by
  obtain ⟨b, hb, hgrows⟩ := exists_inside fragment tokens
  obtain ⟨b', hb', hgrows'⟩ := exists_take (b := b)
    (fragment.production.read none tokens).takes_takeTrivia
  obtain ⟨b'', hb'', hgrows''⟩ := (holds_start tokens none).close (hgrows.trans hgrows')
  refine ⟨_, ?_, hgrows'', rfl⟩
  rw [fragment?_eq hb, if_neg (by simpa using h), hb', Option.bind_some]
  exact hb''

/-- Where tokens are left over, the unit around the fragment is all that is open. -/
theorem exists_fragment_of_leftover {fragment : FragmentKind}
    (h : (fragment.production.read none tokens).ahead.current ≠ .eof) :
    ∃ w, fragment? fragment tokens = some w ∧
      w.reading = fragment.production.read none tokens ∧
      w.builder.tree.openNodes = [(.compilationUnit, 0)] := by
  obtain ⟨b, hb, hgrows⟩ := exists_inside fragment tokens
  exact ⟨_, by rw [fragment?_eq hb, if_pos (by simpa using h)], rfl, hgrows.openNodes⟩

/-- All calls for a file are in order: they end with no node open and with one root, which is the
tree of the file. All calls for a fragment are in order. If it is read to the end of the input, they
end with no node open and with one root as well, a unit of what was read; if tokens are left over,
the unit is all that is open. -/
theorem one_root (tokens : List Token) (limit : Option Nat) :
    (∃ w, file? tokens limit = some w ∧
      w.reading = Production.compilationUnit.read limit tokens ∧
      w.builder.tree.openNodes = [] ∧
      w.builder.tree.finish? = some (parseTokens tokens limit).1) ∧
    ∀ fragment : FragmentKind, ∃ w, fragment? fragment tokens = some w ∧
      let reading := fragment.production.read none tokens
      if reading.ahead.current = .eof then
        w.builder.tree.openNodes = [] ∧
        w.builder.tree.finish? = some (.node .compilationUnit reading.takeTrivia.elements)
      else w.reading = reading ∧ w.builder.tree.openNodes = [(.compilationUnit, 0)] := by
  refine ⟨?_, fun fragment => ?_⟩
  · obtain ⟨b, hfile, hgrows⟩ := exists_file tokens limit
    obtain ⟨children, hgroup, hroot⟩ := exists_group_read_compilationUnit tokens limit
    exact ⟨_, hfile, rfl, hroot ▸ hgrows.finish? hgroup⟩
  · dsimp only
    split
    case isTrue heof =>
      obtain ⟨w, hw, hgrows, hgroup⟩ := exists_fragment_of_eof heof
      exact ⟨w, hw, hgrows.finish? hgroup⟩
    case isFalse hleft => exact exists_fragment_of_leftover hleft

end Building

end RuleLang
