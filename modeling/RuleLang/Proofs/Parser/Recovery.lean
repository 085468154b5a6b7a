import RuleLang.Proofs.Grammar.MendsRules
import RuleLang.Proofs.Parser.Capped
import RuleLang.Proofs.Parser.Sealed

/-!
# Recovery is bounded and never silent

Whatever is wrong with a text, an error node of its tree passes over tokens that belong to one
declaration, and an error that is not later than the first of them is recorded for that declaration.
So a text without errors has no error nodes.

## Main definitions

* `MendedAll` — in a list of declarations, all error nodes have their error.

## Main statements

* `Grammar.Reads.mended_strayTokens` — tokens that start no declaration are reported.
* `ReadsAll.mended` — declarations are mended one by one.
* `error_nodes_reported` — the error nodes of the tree of a text.
-/

namespace RuleLang

open Grammar Production Element

/-! ## Single declarations -/

theorem declarationAt_cases (k : Kind) :
    (declarationAt k).isInside = true ∨
      declarationAt k = .strayTokens ∧ k.isDeclarationStart = false := by
  cases k <;> first | exact .inl rfl | exact .inr ⟨rfl, rfl⟩

theorem exists_node_declarationAt (k : Kind) :
    ∃ kind g, body (declarationAt k) = .node kind g := by
  unfold declarationAt
  split <;> exact ⟨_, _, rfl⟩

namespace Grammar

variable {s t : Reading} {n : Nat}

/-- Out of step, the tokens up to the next declaration and the rest of their line become an error
node. -/
theorem mended_strayNode {first start : Nat} (hs : s.Mended first start) (hgroup : s.group = [])
    (hrecovering : s.recovering = true) (hne : s.ahead.current ≠ .eof)
    (hstart : s.ahead.current.isDeclarationStart = false) {stops : Kind → Bool}
    (hstops : ∀ k : Kind, k.isDeclarationStart = true → stops k = true) :
    Reading.Mended first start
      { ((s.bumps 1).bumps ((s.bumps 1).ahead.countUntil stops)).takeLineTrivia with
        group := [.node .error
          ((s.bumps 1).bumps ((s.bumps 1).ahead.countUntil stops)).takeLineTrivia.group.reverse] } := by
  have hfirst := Reading.passes_bumps (Ahead.passesOver_one hstart)
  have hothers := Reading.passes_bumps
    (Ahead.passesOver_countUntil hstops (s.bumps 1).ahead)
  have hline := Reading.passes_takeLineTrivia
    ((s.bumps 1).bumps ((s.bumps 1).ahead.countUntil stops))
  obtain ⟨u, hu, hsignificant⟩ := Ahead.exists_significant Nat.one_pos hne
  refine hs.errorNode hgroup ((hfirst.trans hothers).trans hline)
    ⟨u, List.mem_append_left _ (List.mem_append_left _ hu), hsignificant⟩
    (((hs.bumps 1).bumps _).takeTokens _) ?_
  rw [Reading.takeLineTrivia, errors_takeTokens, Reading.errors_bumps, Reading.errors_bumps]
  exact hs.reported hrecovering

/-- Tokens that start no declaration are complained about before they are made an error node. -/
theorem Reads.mended_strayTokens {first start : Nat} (h : Reads body (.call .strayTokens) s t)
    (hs : s.Mended first start) (hne : s.ahead.current ≠ .eof)
    (hstart : s.ahead.current.isDeclarationStart = false) : t.Mended first start := by
  obtain ⟨depth, hd⟩ := exists_enter_of_reads h
  cases depth with
  | zero => cases hd
  | succ depth =>
    let s₀ : Reading := { s with entered := s.entered + 1, group := [] }
    have hs₀ : s₀.Mended first (start + widthOf s.group.reverse) :=
      ⟨hs.fresh.limit, hs.fresh.ordered, hs.fresh.covers, hs.fresh.reported, hs.fresh.group⟩
    let c := Complaint.expectedDeclaration s.ahead.current
    have hahead : (s₀.complain c).ahead = s.ahead := Reading.ahead_complain _ _
    have hrecovering : (s₀.complain c).recovering = true := by
      rw [Reading.recovering_complain, Bool.or_eq_true]
      exact .inr rfl
    have hstops (k : Kind) (hk : k.isDeclarationStart = true) :
        (k == .eof || k.isDeclarationStart) = true := by
      rw [hk, Bool.or_true]
    have hnode := mended_strayNode (hs₀.complain c) (Reading.group_complain _ _) hrecovering
      (by rwa [hahead]) (by rwa [hahead]) hstops
    rw [← Option.some.inj hd]
    refine hs.joined hnode ?_
    rw [Reading.takeLineTrivia, errors_takeTokens, Reading.errors_bumps, Reading.errors_bumps]
    exact (Reads.complain c s₀ : Reads body (.complain c) s₀ _).errors_subset

/-- A declaration adds one child, which is mended from its own start on. -/
theorem Reads.mended_declaration (h : Reads body (.call (declarationAt s.ahead.current)) s t)
    (hne : s.ahead.current ≠ .eof) (hs : Reading.Mended n n { s with group := [] }) :
    ∃ child, t.group = child :: s.group ∧
      Reading.Mended n n { t with group := [child] } := by
  obtain ⟨kind, g, hbody⟩ := exists_node_declarationAt s.ahead.current
  cases h with
  | call h =>
    rw [hbody] at h
    cases h with
    | group h => cases h with
      | @enclose _ _ _ u h =>
        refine ⟨.node kind u.group.reverse, rfl, ?_⟩
        have halone : Reads body (.call (declarationAt s.ahead.current)) { s with group := [] }
            { u with group := [.node kind u.group.reverse] } :=
          .call (hbody ▸ .group (s := { s with entered := s.entered + 1, group := [] })
            (.enclose h))
        rcases declarationAt_cases s.ahead.current with hinside | ⟨hstray, hstart⟩
        · exact halone.mended hinside hs
        · exact Reads.mended_strayTokens (hstray ▸ halone) hs hne hstart

end Grammar

/-! ## Declarations, one after the other -/

/-- In a list of declarations all error nodes have their error, each within its declaration. -/
def MendedAll (errors : List SyntaxError) (es : List Element) : Prop :=
  ∀ before e after, es = before ++ e :: after →
    Everywhere (IsMended errors (widthOf before)) (widthOf before) [e]

theorem MendedAll.mono {errors errors' : List SyntaxError} {es : List Element}
    (h : MendedAll errors es) (hsub : errors ⊆ errors') : MendedAll errors' es :=
  fun before e after he => (h before e after he).mono fun _ _ hm => hm.mono hsub

theorem MendedAll.concat {errors : List SyntaxError} {es : List Element} {e : Element}
    (h : MendedAll errors es)
    (he : Everywhere (IsMended errors (widthOf es)) (widthOf es) [e]) :
    MendedAll errors (es ++ [e]) := by
  intro before x after hsplit
  rcases List.eq_nil_or_concat' after with rfl | ⟨after, y, rfl⟩
  · obtain ⟨rfl, rfl⟩ := List.append_singleton_inj.1 hsplit
    exact he
  · rw [← List.cons_append, ← List.append_assoc] at hsplit
    exact h before x after (List.append_singleton_inj.1 hsplit).1

/-- Between two declarations. -/
structure Reading.Between (s : Reading) : Prop where
  limit : s.limit = none
  covers : ∃ text, Covers (widthOf s.elements) text s.ahead
  mended : MendedAll s.errors s.elements

/-- Declarations are mended one by one. -/
theorem ReadsAll.between {s t : Reading} (h : ReadsAll s t) (hs : s.Between) : t.Between := by
  induction h with
  | nil => exact ⟨hs.limit, hs.covers, hs.mended⟩
  | @cons s u t hne hfirst _ ih =>
    apply ih
    have hstart : Reading.Mended (widthOf s.elements) (widthOf s.elements)
        { s with entered := s.entered + 1, recovering := false, group := [] } :=
      ⟨hs.limit, Nat.le_refl _, by simpa using hs.covers, nofun, everywhere_nil⟩
    obtain ⟨child, hgroup, hu⟩ := Reads.mended_declaration
      (s := { s with entered := s.entered + 1, recovering := false }) hfirst hne hstart
    have helements : u.elements = s.elements ++ [child] := by
      simp [Reading.elements, hgroup]
    refine ⟨hu.limit, ?_, ?_⟩
    · simpa [helements, widthOf_append] using hu.covers
    · rw [helements]
      exact (hs.mended.mono hfirst.errors_subset).concat hu.group

/-- Trivia after the last declaration is no error node. -/
theorem Reading.Between.takeTrivia {s : Reading} (h : s.Between) :
    MendedAll s.errors s.takeTrivia.elements := by
  have htokens (es : List Element) (h : MendedAll s.errors es) (ts : List Token) :
      MendedAll s.errors (es ++ ts.map Element.ofToken) := by
    induction ts generalizing es with
    | nil => simpa using h
    | cons t ts ih =>
      have := ih _ (h.concat (everywhere_token.2 (isMended_token t.kind t.text)))
      simpa [Element.ofToken] using this
  rw [Reading.takeTrivia_eq]
  simpa [Reading.elements] using htokens _ h.mended _

/-! ## The tree of a text -/

theorem mendedAll_parse (source : List Char) :
    MendedAll (parse source).syntaxErrors (parse source).root.children := by
  obtain ⟨t, ht⟩ := exists_readsAll (lex source).tokens
  have hbetween : t.Between :=
    ht.between ⟨rfl, ⟨source, covers_lex source⟩, fun before e after he => by
      simp [Reading.elements, Reading.unit] at he⟩
  have hsub : t.errors ⊆ t.takeTrivia.recorded := by
    intro e he
    rw [Reading.recorded, List.mem_reverse, Reading.takeTrivia, errors_takeTokens]
    exact he
  rw [parse_eq, parseTokens_eq_of_reads ht]
  exact hbetween.takeTrivia.mono hsub

/-- An error node belongs to a child of the root that has an error in time. -/
theorem reported_of_mem {source : List Char} {p : Placed} (hp : p ∈ (parse source).root.elements)
    {cs : List Element} (he : p.element = .node .error cs) :
    PassedOver cs ∧
      ∃ before child after, (parse source).root.children = before ++ child :: after ∧
        p ∈ child.preorder 1 (widthOf before) ∧
        Reported (parse source).syntaxErrors (widthOf before)
          (p.offset + widthOf (cs.takeWhile Element.isTrivia)) := by
  obtain ⟨children, hroot⟩ := exists_root (lex source).tokens
  have hparse : (parse source).root = .node .compilationUnit children := hroot
  rw [hparse, elements, preorder, List.mem_cons] at hp
  rcases hp with rfl | hp
  · cases he
  · obtain ⟨before, child, after, hsplit, hp⟩ := mem_preorderOf hp
    rw [Nat.zero_add (widthOf before)] at hp
    have hsplit : (parse source).root.children = before ++ child :: after := by
      rw [hparse]
      exact hsplit
    have hmended := mendedAll_parse source before child after hsplit
    obtain ⟨hover, hreported⟩ := hmended 1 p (by simpa [preorderOf] using hp) cs he
    exact ⟨hover, before, child, after, hsplit, hp, hreported⟩

/-- Every error node, of any text and under any cap on errors, holds nothing but tokens, some of them
significant and none that opens a declaration. Without the cap, the child of the root that contains it
has an error, no mere warning, that is recorded between its own start and the first significant token
of the error node. So a text without errors has no error nodes. -/
theorem error_nodes_reported (source : List Char) (limit : Option Nat) :
    (∀ p ∈ (parse source limit).root.elements, ∀ cs, p.element = .node .error cs →
      PassedOver cs ∧
        ∃ before child after, (parse source limit).root.children = before ++ child :: after ∧
          p ∈ child.preorder 1 (widthOf before) ∧
          Reported (parse source).syntaxErrors (widthOf before)
            (p.offset + widthOf (cs.takeWhile Element.isTrivia))) ∧
    (IsClean (parse source).syntaxErrors →
      ∀ p ∈ (parse source limit).root.elements, ∀ cs, p.element ≠ .node .error cs) := by
  rw [root_parse]
  refine ⟨fun p hp cs he => reported_of_mem hp he, fun hclean p hp cs he => ?_⟩
  obtain ⟨-, _, _, _, -, -, e, he, hwarning, -⟩ := reported_of_mem hp he
  rw [hclean e he] at hwarning
  cases hwarning

end RuleLang
