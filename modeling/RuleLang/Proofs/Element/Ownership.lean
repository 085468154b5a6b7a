import Mathlib.Data.List.DropRight
import RuleLang.Element.Trivia
import RuleLang.Proofs.Element.Everywhere

/-!
# Trivia has one owner

The owner of trivia is found from both sides: from the node before it going forward, and from the
node after it going back, and each side looks for the dividing line break itself. Both arrive at the
same place, so what lies between two siblings belongs to one of them, and nothing to both. A
declaration keeps its trivia inside, before and after what it declares.

## Main definitions

* `Sited.child` — a child of a node, among its siblings.
* `Element.Edges` — a list without the trivia at both of its ends.
* `Element.OwnsTriviaOnce` — what trivia belongs to, for all nodes of a tree.

## Main statements

* `Element.ownsTriviaOnce` — trivia has one owner in every tree.
-/

namespace RuleLang

namespace Element

/-! ## Runs of trivia -/

section Runs

variable {gap es : List Element}

/-- A run of trivia ends with the first element that is none. -/
theorem triviaRun_append (hgap : ∀ e ∈ gap, e.isTrivia = true)
    (hes : ∀ e, es.head? = some e → e.isTrivia = false) : triviaRun (gap ++ es) = leavesOf gap := by
  have hstop : es.takeWhile isTrivia = [] := by
    cases es with
    | nil => rfl
    | cons e es => exact List.takeWhile_cons_of_neg (by simp [hes e rfl])
  rw [triviaRun, List.takeWhile_append_of_pos hgap, hstop, List.append_nil]

theorem leavesOf_reverse (hgap : ∀ e ∈ gap, e.isTrivia = true) :
    leavesOf gap.reverse = (leavesOf gap).reverse := by
  induction gap with
  | nil => rfl
  | cons e gap ih =>
    obtain ⟨k, t, rfl⟩ : ∃ k t, e = .token k t := by
      cases e with
      | token k t => exact ⟨k, t, rfl⟩
      | node k cs => exact absurd (hgap _ List.mem_cons_self) Bool.false_ne_true
    rw [List.reverse_cons, leavesOf_append, ih fun e he => hgap e (List.mem_cons_of_mem _ he)]
    simp

theorem isTrivia_of_isNode {e : Element} (h : e.isNode = true) : e.isTrivia = false := by
  cases e with
  | token k t => cases h
  | node k cs => rfl

end Runs

/-! ## Edges -/

/-- A list of children falls into the trivia at its start, what is left, and the trivia at its
end. -/
structure Edges (children front middle back : List Element) : Prop where
  split : children = front ++ middle ++ back
  front : ∀ e ∈ front, e.isTrivia = true
  back : ∀ e ∈ back, e.isTrivia = true
  ne_nil : middle ≠ []
  head : ∀ e, middle.head? = some e → e.isTrivia = false
  last : ∀ e, middle.getLast? = some e → e.isTrivia = false

theorem exists_edges {children : List Element} (h : ∃ e ∈ children, e.isTrivia = false) :
    ∃ front middle back, Edges children front middle back := by
  obtain ⟨e, he, hsignificant⟩ := h
  have hrest : children.dropWhile isTrivia ≠ [] := by
    intro hnil
    have := List.dropWhile_eq_nil_iff.1 hnil e he
    simp [hsignificant] at this
  obtain ⟨d, rest, hd⟩ := List.exists_cons_of_ne_nil hrest
  have hfirst : d.isTrivia = false := by
    have := List.head?_dropWhile_not isTrivia children
    simpa [hd] using this
  have hmiddle : (d :: rest).rdropWhile isTrivia ≠ [] := by
    intro hnil
    have := List.rdropWhile_eq_nil_iff.1 hnil d List.mem_cons_self
    simp [hfirst] at this
  refine ⟨children.takeWhile isTrivia, (d :: rest).rdropWhile isTrivia,
    (d :: rest).rtakeWhile isTrivia, ?_, fun e he => List.mem_takeWhile_imp he,
    fun e he => List.mem_rtakeWhile_imp he, hmiddle, ?_, ?_⟩
  · rw [List.append_assoc, List.rdropWhile_append_rtakeWhile, ← hd, List.takeWhile_append_dropWhile]
  · intro e he
    obtain ⟨more, hmore⟩ := List.rdropWhile_prefix (p := isTrivia) (l := d :: rest)
    obtain ⟨c, cs, hc⟩ := List.exists_cons_of_ne_nil hmiddle
    rw [hc, List.cons_append, List.cons.injEq] at hmore
    rw [hc, List.head?_cons, Option.some.injEq] at he
    rw [← he, hmore.1, hfirst]
  · intro e he
    have := List.rdropWhile_last_not isTrivia (d :: rest) hmiddle
    rw [List.getLast?_eq_some_getLast hmiddle, Option.some.injEq] at he
    simpa [he] using this

namespace Edges

variable {children front middle back : List Element}

theorem triviaRun_front (h : Edges children front middle back) :
    triviaRun children = leavesOf front := by
  rw [h.split, List.append_assoc]
  refine triviaRun_append h.front fun e he => h.head e ?_
  rwa [List.head?_append_of_ne_nil _ h.ne_nil] at he

theorem triviaRun_back (h : Edges children front middle back) :
    (triviaRun children.reverse).reverse = leavesOf back := by
  have hback : ∀ e ∈ back.reverse, e.isTrivia = true := by simpa using h.back
  rw [h.split, List.reverse_append, triviaRun_append hback, leavesOf_reverse h.back,
    List.reverse_reverse]
  intro e he
  refine h.last e ?_
  rwa [List.head?_reverse, List.getLast?_append_of_ne_nil _ h.ne_nil] at he

/-- What is left is not all trivia. -/
theorem all_isTrivia (h : Edges children front middle back) : children.all isTrivia = false := by
  obtain ⟨e, middle', hmiddle⟩ := List.exists_cons_of_ne_nil h.ne_nil
  have hhead := h.head e (by rw [hmiddle]; rfl)
  rw [h.split, hmiddle]
  simp [hhead]

end Edges

end Element

open Element

/-! ## Siblings -/

namespace Sited

/-- A child of a node, between the children `front` and `back`. -/
def child (parent : Sited) (front : List Element) (e : Element) (back : List Element) : Sited :=
  ⟨parent.offset + widthOf front, front.reverse, e, back⟩

variable {parent : Sited} {front gap back : List Element} {m n : Element}

/-- The node before some trivia has it through the first line break. -/
theorem trailingTrivia_child (hm : m.kind.isTopLevelDecl = false)
    (hgap : ∀ e ∈ gap, e.isTrivia = true) (hn : n.isNode = true) :
    (parent.child front m (gap ++ n :: back)).trailingTrivia = throughNewline (leavesOf gap) := by
  have hrun : triviaRun (gap ++ n :: back) = leavesOf gap :=
    triviaRun_append hgap fun e he => Option.some.inj he ▸ isTrivia_of_isNode hn
  simp [trailingTrivia, child, hm, hrun]

/-- The node after some trivia has what follows the first line break. -/
theorem leadingTrivia_child (hm : m.isNode = true) (hgap : ∀ e ∈ gap, e.isTrivia = true)
    (hn : n.kind.isTopLevelDecl = false) :
    (parent.child (front ++ m :: gap) n back).leadingTrivia = afterNewline (leavesOf gap) := by
  have hsignificant := isTrivia_of_isNode hm
  have hrun : triviaRun (gap.reverse ++ m :: front.reverse) = leavesOf gap.reverse :=
    triviaRun_append (by simpa using hgap) fun e he => Option.some.inj he ▸ hsignificant
  rw [leavesOf_reverse hgap] at hrun
  simp [leadingTrivia, child, hn, hrun, hsignificant]

/-- The first node has all trivia before it. -/
theorem leadingTrivia_child_first (hgap : ∀ e ∈ gap, e.isTrivia = true)
    (hn : n.kind.isTopLevelDecl = false) :
    (parent.child gap n back).leadingTrivia = leavesOf gap := by
  have hrun : triviaRun (gap.reverse ++ []) = leavesOf gap.reverse :=
    triviaRun_append (by simpa using hgap) nofun
  rw [List.append_nil, leavesOf_reverse hgap] at hrun
  have hall : gap.all isTrivia = true := List.all_eq_true.2 hgap
  simp [leadingTrivia, child, hn, hrun, hall]

/-! ## Nodes of a tree -/

theorem child_mem_sitesOf {offset : Nat} {before : List Element} (hn : n.isNode = true) :
    (⟨offset + widthOf front, front.reverse ++ before, n, back⟩ : Sited) ∈
      sitesOf offset before (front ++ n :: back) := by
  induction front generalizing offset before with
  | nil =>
    cases n with
    | token k t => cases hn
    | node k cs => simp [sitesOf, sites]
  | cons e front ih =>
    rw [List.cons_append, sitesOf, widthOf_cons, ← Nat.add_assoc, List.reverse_cons,
      List.append_assoc]
    exact List.mem_append_right _ ih

mutual

/-- Every child that is a node stands among the nodes of the tree, next to its siblings. -/
theorem child_mem_sites (hn : n.isNode = true)
    (hsplit : parent.element.children = front ++ n :: back) :
    ∀ (e : Element) {offset : Nat} {before after : List Element},
      parent ∈ e.sites offset before after →
        parent.child front n back ∈ e.sites offset before after
  | .token _ _, _, _, _, h => by simp [sites] at h
  | .node k cs, offset, before, after, h => by
    rw [sites, List.mem_cons] at h ⊢
    rcases h with rfl | h
    · obtain rfl : cs = front ++ n :: back := hsplit
      have hmem : (⟨offset + widthOf front, front.reverse ++ [], n, back⟩ : Sited) ∈
          sitesOf offset [] (front ++ n :: back) := child_mem_sitesOf hn
      rw [List.append_nil] at hmem
      exact .inr hmem
    · exact .inr (child_mem_sites_of_sitesOf hn hsplit cs h)

theorem child_mem_sites_of_sitesOf (hn : n.isNode = true)
    (hsplit : parent.element.children = front ++ n :: back) :
    ∀ (es : List Element) {offset : Nat} {before : List Element},
      parent ∈ sitesOf offset before es → parent.child front n back ∈ sitesOf offset before es
  | [], _, _, h => by simp [sitesOf] at h
  | e :: es, _, _, h => by
    rw [sitesOf, List.mem_append] at h ⊢
    exact h.imp (child_mem_sites hn hsplit e) (child_mem_sites_of_sitesOf hn hsplit es)

end

theorem child_mem_sited {root : Element} (h : parent ∈ root.sited) (hn : n.isNode = true)
    (hsplit : parent.element.children = front ++ n :: back) :
    parent.child front n back ∈ root.sited :=
  child_mem_sites hn hsplit root h

mutual

theorem map_element_sites : ∀ (e : Element) {offset : Nat} {before after : List Element},
    (e.sites offset before after).map element = e.nodes
  | .token _ _, _, _, _ => by simp [sites, nodes]
  | .node _ cs, _, _, _ => by simp [sites, nodes, map_element_sitesOf cs]

theorem map_element_sitesOf : ∀ (es : List Element) {offset : Nat} {before : List Element},
    (sitesOf offset before es).map element = nodesOf es
  | [], _, _ => by simp [sitesOf, nodesOf]
  | e :: es, _, _ => by simp [sitesOf, nodesOf, map_element_sites e, map_element_sitesOf es]

end

end Sited

/-! ## Owners -/

namespace Element

/-- No trivia is owned twice, and none between two nodes or before the first one is left over. -/
structure OwnsTriviaOnce (root : Element) : Prop where
  nodes : root.sited.map Sited.element = root.nodes
  /-- Two nodes with only trivia between them share it out, unless one of them is a declaration. -/
  between : ∀ parent ∈ root.sited, ∀ front m gap n back,
    parent.element.children = front ++ m :: (gap ++ n :: back) →
    m.isNode = true → n.isNode = true → (∀ e ∈ gap, e.isTrivia = true) →
    m.kind.isTopLevelDecl = false → n.kind.isTopLevelDecl = false →
    ∃ left ∈ root.sited, ∃ right ∈ root.sited,
      left = parent.child front m (gap ++ n :: back) ∧
      right = parent.child (front ++ m :: gap) n back ∧
      left.trailingTrivia ++ right.leadingTrivia = leavesOf gap
  /-- A node that only trivia precedes has all of it. -/
  first : ∀ parent ∈ root.sited, ∀ gap n back, parent.element.children = gap ++ n :: back →
    n.isNode = true → (∀ e ∈ gap, e.isTrivia = true) → n.kind.isTopLevelDecl = false →
    ∃ s ∈ root.sited, s = parent.child gap n back ∧ s.leadingTrivia = leavesOf gap
  /-- A declaration has the trivia at its two ends, which do not meet. -/
  declaration : ∀ s ∈ root.sited, s.element.kind.isTopLevelDecl = true →
    (∃ e ∈ s.element.children, e.isTrivia = false) →
    ∃ front middle back, Edges s.element.children front middle back ∧
      s.leadingTrivia = leavesOf front ∧ s.trailingTrivia = leavesOf back ∧
      s.element.text = s.leadingTrivia.flatMap Leaf.text ++ middle.flatMap text ++
        s.trailingTrivia.flatMap Leaf.text

theorem Edges.text {e : Element} {front middle back : List Element}
    (h : Edges e.children front middle back) : e.text =
      (leavesOf front).flatMap Leaf.text ++ middle.flatMap Element.text ++
        (leavesOf back).flatMap Leaf.text := by
  have hmiddle : (leavesOf middle).flatMap Leaf.text = middle.flatMap Element.text := by
    rw [leavesOf_eq_flatMap, List.flatMap_assoc]
    rfl
  cases e with
  | token k t =>
    have := h.split
    simp [children, h.ne_nil] at this
  | node k cs =>
    have hsplit : cs = front ++ middle ++ back := h.split
    rw [Element.text, leaves_node, hsplit, leavesOf_append, leavesOf_append, List.flatMap_append,
      List.flatMap_append, hmiddle]

/-- In every tree trivia has one owner. -/
theorem ownsTriviaOnce (root : Element) : OwnsTriviaOnce root where
  nodes := Sited.map_element_sites root
  between := by
    intro parent hparent front m gap n back hsplit hm hn hgap hmdecl hndecl
    have hright : parent.element.children = (front ++ m :: gap) ++ n :: back := by
      rw [hsplit, List.append_assoc, List.cons_append]
    refine ⟨_, Sited.child_mem_sited hparent hm hsplit, _, Sited.child_mem_sited hparent hn hright,
      rfl, rfl, ?_⟩
    rw [Sited.trailingTrivia_child hmdecl hgap hn, Sited.leadingTrivia_child hm hgap hndecl,
      throughNewline_append_afterNewline]
  first := by
    intro parent hparent gap n back hsplit hn hgap hdecl
    exact ⟨_, Sited.child_mem_sited hparent hn hsplit, rfl,
      Sited.leadingTrivia_child_first hgap hdecl⟩
  declaration := by
    intro s _ hdecl hsignificant
    obtain ⟨front, middle, back, hedges⟩ := exists_edges hsignificant
    have hleading : s.leadingTrivia = leavesOf front := by
      rw [Sited.leadingTrivia, if_pos hdecl, hedges.triviaRun_front]
    have htrailing : s.trailingTrivia = leavesOf back := by
      rw [Sited.trailingTrivia, if_pos hdecl, hedges.all_isTrivia, if_neg Bool.false_ne_true,
        hedges.triviaRun_back]
    exact ⟨front, middle, back, hedges, hleading, htrailing, by
      rw [hleading, htrailing, hedges.text]⟩

/-- The comment behind a condition belongs to it, the comment on a line of its own to the next. -/
theorem ownsTriviaOnce_comments :
    ∃ left ∈ (node .whenClause [node .pattern [], .token .commentLine ['/', '/'],
        .token .newline ['\n'], .token .commentLine ['/', '/', 'b'], .token .newline ['\n'],
        node .pattern []]).sited,
      ∃ right ∈ (node .whenClause [node .pattern [], .token .commentLine ['/', '/'],
        .token .newline ['\n'], .token .commentLine ['/', '/', 'b'], .token .newline ['\n'],
        node .pattern []]).sited,
      left.trailingTrivia = [⟨.commentLine, ['/', '/']⟩, ⟨.newline, ['\n']⟩] ∧
      right.leadingTrivia = [⟨.commentLine, ['/', '/', 'b']⟩, ⟨.newline, ['\n']⟩] ∧
      left.trailingTrivia ++ right.leadingTrivia =
        [⟨.commentLine, ['/', '/']⟩, ⟨.newline, ['\n']⟩, ⟨.commentLine, ['/', '/', 'b']⟩,
          ⟨.newline, ['\n']⟩] := by
  obtain ⟨left, hleft, right, hright, rfl, rfl, h⟩ := (ownsTriviaOnce (node .whenClause
    [node .pattern [], .token .commentLine ['/', '/'], .token .newline ['\n'],
      .token .commentLine ['/', '/', 'b'], .token .newline ['\n'], node .pattern []])).between
    _ List.mem_cons_self [] (node .pattern [])
    [.token .commentLine ['/', '/'], .token .newline ['\n'],
      .token .commentLine ['/', '/', 'b'], .token .newline ['\n']] (node .pattern []) []
    rfl rfl rfl (List.all_eq_true.1 rfl) rfl rfl
  exact ⟨_, hleft, _, hright, rfl, rfl, h⟩

end Element

end RuleLang
