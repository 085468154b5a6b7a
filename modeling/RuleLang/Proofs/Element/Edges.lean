import Mathlib.Data.List.DropRight
import RuleLang.Element.Trivia
import RuleLang.Proofs.Element.Graded

/-!
# The edges of nodes

The first and the last token of a node, and the trivia at its edges.

## Main definitions

* `StartsSignificant`, `EndsSignificant` — leaves without trivia at their start, at their end.
* `Element.AllNodes` — a property of all nodes of some elements.
* `Element.innerNodes` — the nodes of a tree that are no root and no declaration.
* `Element.leading`, `Element.trailing` — the trivia that an element starts and ends with.
* `Divided` — trivia that is divided at its first line break.
-/

namespace RuleLang

open Element

/-! ## Leaves -/

/-- The first leaf, if there is one, is significant. -/
def StartsSignificant (ls : List Leaf) : Prop :=
  ∀ l, ls.head? = some l → l.isTrivia = false

/-- The last leaf, if there is one, is significant. -/
def EndsSignificant (ls : List Leaf) : Prop :=
  ∀ l, ls.getLast? = some l → l.isTrivia = false

namespace StartsSignificant

variable {xs ys : List Leaf}

theorem left (h : StartsSignificant (xs ++ ys)) : StartsSignificant xs := by
  intro l hl
  exact h l (by rw [List.head?_append, hl, Option.some_or])

end StartsSignificant

namespace EndsSignificant

variable {xs ys : List Leaf} {l : Leaf}

theorem nil : EndsSignificant [] := nofun

theorem concat (h : l.isTrivia = false) : EndsSignificant (xs ++ [l]) := by
  intro m hm
  obtain rfl : l = m := by simpa using hm
  exact h

theorem right (hys : EndsSignificant ys) (hne : ys ≠ []) : EndsSignificant (xs ++ ys) := by
  intro l hl
  obtain ⟨m, hm⟩ := Option.isSome_iff_exists.1 (List.getLast?_isSome.2 hne)
  rw [List.getLast?_append, hm, Option.some_or] at hl
  exact hys l (hm.trans hl)

theorem append (hxs : EndsSignificant xs) (hys : EndsSignificant ys) :
    EndsSignificant (xs ++ ys) := by
  by_cases hne : ys = []
  · rwa [hne, List.append_nil]
  · exact hys.right hne

/-- The trivia after a significant leaf. -/
theorem rtakeWhile_append (hxs : EndsSignificant xs) (hys : ∀ l ∈ ys, l.isTrivia = true) :
    (xs ++ ys).rtakeWhile Leaf.isTrivia = ys := by
  have hnil : xs.reverse.takeWhile Leaf.isTrivia = [] := by
    rcases List.eq_nil_or_concat' xs with rfl | ⟨xs, l, rfl⟩
    · rfl
    · have hl : l.isTrivia = false := hxs l (by simp)
      rw [List.reverse_concat, List.takeWhile_cons_of_neg (by simp [hl])]
  rw [List.rtakeWhile, List.reverse_append, List.takeWhile_append_of_pos (by simpa using hys), hnil,
    List.append_nil, List.reverse_reverse]

end EndsSignificant

/-- The trivia before a significant leaf. -/
theorem takeWhile_append_of_significant {xs : List Leaf} (h : ∃ l ∈ xs, l.isTrivia = false)
    (ys : List Leaf) :
    (xs ++ ys).takeWhile Leaf.isTrivia = xs.takeWhile Leaf.isTrivia := by
  rw [List.takeWhile_append, if_neg]
  intro hlength
  obtain ⟨l, hl, hs⟩ := h
  rw [← (List.takeWhile_prefix Leaf.isTrivia).eq_of_length hlength] at hl
  rw [List.mem_takeWhile_imp hl] at hs
  cases hs

/-- Trivia is divided at its first line break, which still belongs to the left side. -/
def Divided (left right : List Leaf) : Prop :=
  left = throughNewline (left ++ right) ∧ right = afterNewline (left ++ right)

theorem divided (ls : List Leaf) : Divided (throughNewline ls) (afterNewline ls) := by
  rw [Divided, throughNewline_append_afterNewline]
  exact ⟨rfl, rfl⟩

/-! ## Elements -/

namespace Element

/-- The node ends with a significant token, if it has a token. A `then` clause without action also
holds the trivia after its `then`. -/
def EndsInside (e : Element) : Prop :=
  EndsSignificant e.leaves ∨ e.kind = .thenClause ∧ .node .actionBlock [] ∈ e.children

/-- The nodes of a tree apart from its root, its declarations and the error nodes between them. -/
def innerNodes (root : Element) : List Element :=
  root.children.flatMap fun e =>
    if e.kind.isTopLevelDecl || e.kind == .error then nodesOf e.children else e.nodes

/-- The trivia that an element starts with. -/
def leading (e : Element) : List Leaf :=
  e.leaves.takeWhile Leaf.isTrivia

/-- The trivia that an element ends with. -/
def trailing (e : Element) : List Leaf :=
  e.leaves.rtakeWhile Leaf.isTrivia

theorem leavesOf_tokens (ts : List Token) : leavesOf (ts.map ofToken) = ts.map Token.leaf := by
  induction ts with
  | nil => rfl
  | cons t ts ih =>
    rw [List.map_cons, leavesOf_cons, ih]
    rfl

theorem exists_of_significant_ne_nil {e : Element} (h : e.significant ≠ []) :
    ∃ l ∈ e.leaves, l.isTrivia = false := by
  obtain ⟨l, hl⟩ := List.exists_mem_of_ne_nil _ h
  obtain ⟨hl, hs⟩ := List.mem_filter.1 hl
  exact ⟨l, hl, by simpa using hs⟩

/-! ## All nodes -/

/-- All nodes at or below the elements have a property. -/
def AllNodes (Q : Element → Prop) (es : List Element) : Prop :=
  ∀ n ∈ nodesOf es, Q n

variable {Q : Element → Prop} {xs ys : List Element}

theorem AllNodes.nil : AllNodes Q [] := nofun

theorem allNodes_append : AllNodes Q (xs ++ ys) ↔ AllNodes Q xs ∧ AllNodes Q ys := by
  simp only [AllNodes, mem_nodesOf, List.mem_append]
  grind

theorem allNodes_cons {e : Element} : AllNodes Q (e :: xs) ↔ AllNodes Q [e] ∧ AllNodes Q xs :=
  @allNodes_append Q [e] xs

theorem allNodes_reverse : AllNodes Q xs.reverse ↔ AllNodes Q xs := by
  simp only [AllNodes, mem_nodesOf, List.mem_reverse]

theorem allNodes_node {k : Kind} {cs : List Element} :
    AllNodes Q [.node k cs] ↔ Q (.node k cs) ∧ AllNodes Q cs := by
  simp [AllNodes, nodesOf, nodes]

/-- Tokens are no nodes. -/
theorem allNodes_tokens (ts : List Token) : AllNodes Q (ts.map ofToken) := by
  intro n hn
  obtain ⟨e, he, hn⟩ := mem_nodesOf.1 hn
  obtain ⟨t, -, rfl⟩ := List.mem_map.1 he
  cases hn

end Element

end RuleLang
