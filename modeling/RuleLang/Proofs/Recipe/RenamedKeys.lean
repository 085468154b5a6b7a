import RuleLang.Proofs.Grammar.NeutralRules
import RuleLang.Proofs.Grammar.Outside
import RuleLang.Proofs.Recipe.AgendaGroup
import RuleLang.Proofs.Rewrite.Outcome

/-!
# Reading back renamed keys

The recipe for agenda groups renames the key of each attribute `agenda-group`. The text that it makes
of a source, well-formed or not, is read as the tree of the source with these keys renamed: neither
the scanner nor a decision of the grammar tells the keywords apart. Then nothing is left to be done.

## Main definitions

* `Element.rekeyed` — an element with the new key in each attribute that has the old one.

## Main statements

* `parse_renamed` — a text with some keywords renamed is read as a tree of the same outline.
* `Recipe.agendaGroup_reads_back` — what the recipe makes of a source is read as the tree with the new
  keys, and needs no second run.
-/

namespace RuleLang

open Stamped Element Grammar Lexeme

namespace Element

/-! ## Attributes with the new key -/

/-- The new key. -/
def ruleflowKey : Element :=
  .token .ruleflowGroupKw "ruleflow-group".toList

/-- The children of an attribute, with the new key if the first token that is not trivia is the old
one. -/
def withNewKey : List Element → List Element
  | [] => []
  | e :: es =>
    if e.isSignificant then (if e.kind == .agendaGroupKw then ruleflowKey else e) :: es
    else e :: withNewKey es

mutual

/-- The element with the new key in each attribute that has the old one, and all else as it is. -/
def rekeyed : Element → Element
  | .token k t => .token k t
  | .node k cs => .node k (if k == .attribute then withNewKey (rekeyedOf cs) else rekeyedOf cs)

def rekeyedOf : List Element → List Element
  | [] => []
  | e :: es => e.rekeyed :: rekeyedOf es

end

theorem agendaKeyAt?_cons (e : Element) (es : List Element) :
    agendaKeyAt? (e :: es) =
      if e.isSignificant then (if e.kind == .agendaGroupKw then some 0 else none)
      else (agendaKeyAt? es).map (· + 1) := by
  simp only [agendaKeyAt?, List.findIdx?_cons]
  split
  · simp [Option.filter]
  · cases es.findIdx? isSignificant with
    | none => rfl
    | some n => simp [Option.filter, apply_ite (Option.map (· + 1))]

/-- With the new key, no attribute has the old one. -/
theorem agendaKeyAt?_withNewKey (cs : List Element) : agendaKeyAt? (withNewKey cs) = none := by
  induction cs with
  | nil => rfl
  | cons e es ih =>
    rw [withNewKey]
    split
    · rename_i hsignificant
      split
      · exact agendaKeyAt?_cons ruleflowKey es
      · rename_i hkind
        rw [agendaKeyAt?_cons, if_pos hsignificant, if_neg hkind]
    · rename_i hsignificant
      rw [agendaKeyAt?_cons, if_neg hsignificant, ih]
      rfl

/-- The marked child gives way to the new key. -/
theorem changedAll_agendaKeyAt? (cs : List Element) :
    agendaChoice.marking.changedAll (.at (agendaKeyAt? cs)) cs = withNewKey cs := by
  induction cs with
  | nil => rfl
  | cons e es ih =>
    rw [agendaKeyAt?_cons, withNewKey]
    split
    · split
      · exact ChildChoice.changedAll_some [] e es
      · exact ChildChoice.changedAll_none (e :: es)
    · rw [← ih]
      cases agendaKeyAt? es with
      | none => rw [Option.map_none, ChildChoice.changedAll_none, ChildChoice.changedAll_none]
      | some n => exact ChildChoice.changedAll_succ e es n

theorem outlineOf_withNewKey (cs : List Element) : outlineOf (withNewKey cs) = outlineOf cs := by
  induction cs with
  | nil => rfl
  | cons e es ih =>
    rw [withNewKey]
    split
    · rename_i hsignificant
      cases e with
      | token k t =>
        rw [outlineOf, outlineOf]
        split <;> rfl
      | node => cases hsignificant
    · rw [outlineOf, outlineOf, ih]

theorem renamed_withNewKey {cs : List Element}
    (h : ∀ l ∈ leavesOf cs, l.kind = .agendaGroupKw → l.text = agendaPart ++ groupPart) :
    List.Forall₂ Leaf.Renamed (leavesOf cs) (leavesOf (withNewKey cs)) := by
  have hrefl (ls : List Leaf) : List.Forall₂ Leaf.Renamed ls ls :=
    List.forall₂_same.2 fun _ _ => .inl rfl
  induction cs with
  | nil => exact .nil
  | cons e es ih =>
    rw [leavesOf_cons] at h
    rw [withNewKey]
    split
    · rename_i hsignificant
      split
      · rename_i hkind
        cases e with
        | token k t =>
          obtain rfl : k = .agendaGroupKw := beq_iff_eq.1 hkind
          obtain rfl : t = agendaPart ++ groupPart := h ⟨_, t⟩ (by simp) rfl
          have hnew : "ruleflow-group".toList = ruleflowPart ++ groupPart := by decide +kernel
          rw [leavesOf_cons, leavesOf_cons, ruleflowKey, hnew, leaves_token, leaves_token]
          exact .cons (.inr ⟨rfl, rfl⟩) (hrefl _)
        | node => cases hsignificant
      · exact hrefl _
    · rw [leavesOf_cons, leavesOf_cons]
      exact List.rel_append (hrefl _) (ih fun l hl => h l (List.mem_append_right _ hl))

/-! ## All attributes -/

mutual

/-- Without attributes there is nothing to be renamed. -/
theorem rekeyed_of_none : (e : Element) → AllNodes (fun n => n.kind ≠ .attribute) [e] →
    e.rekeyed = e
  | .token _ _, _ => rfl
  | .node k cs, h => by
    obtain ⟨hk, hcs⟩ := allNodes_node.1 h
    have hk : (k == .attribute) = false := beq_eq_false_iff_ne.2 hk
    rw [rekeyed, hk, rekeyedOf_of_none cs hcs]
    rfl

theorem rekeyedOf_of_none : (es : List Element) → AllNodes (fun n => n.kind ≠ .attribute) es →
    rekeyedOf es = es
  | [], _ => rfl
  | e :: es, h => by
    obtain ⟨he, hes⟩ := allNodes_cons.1 h
    rw [rekeyedOf, rekeyed_of_none e he, rekeyedOf_of_none es hes]

end

theorem rekeyed_attribute {cs : List Element} (h : AttributesApart [.node .attribute cs]) :
    (node .attribute cs).rekeyed = .node .attribute (withNewKey cs) := by
  rw [rekeyed, rekeyedOf_of_none cs ((allNodes_node.1 h).1 rfl)]
  rfl

theorem rekeyed_clause {k : Kind} {cs : List Element} (hk : agendaChoice.hides k = true)
    (h : AttributesApart [.node k cs]) : (node k cs).rekeyed = .node k cs := by
  refine rekeyed_of_none _ (allNodes_node.2 ⟨?_, (allNodes_node.1 h).1 ?_⟩)
  · rintro (rfl : k = .attribute)
    cases hk
  · cases k <;> first | rfl | cases hk

theorem rekeyed_node {k : Kind} (hk : k ≠ .attribute) (cs : List Element) :
    (node k cs).rekeyed = .node k (rekeyedOf cs) := by
  rw [rekeyed, beq_eq_false_iff_ne.2 hk]
  rfl

mutual

theorem outline_rekeyed : (e : Element) → e.rekeyed.outline = e.outline
  | .token _ _ => rfl
  | .node k cs => by
    rw [rekeyed, outline, outline]
    split
    · rw [outlineOf_withNewKey, outlineOf_rekeyed cs]
    · rw [outlineOf_rekeyed cs]

theorem outlineOf_rekeyed : (es : List Element) → outlineOf (rekeyedOf es) = outlineOf es
  | [] => rfl
  | e :: es => by rw [rekeyedOf, outlineOf, outlineOf, outline_rekeyed e, outlineOf_rekeyed es]

end

mutual

/-- The keys are renamed, and no other token is. -/
theorem renamed_rekeyed : (e : Element) → AttributesApart [e] →
    (∀ l ∈ e.leaves, l.kind = .agendaGroupKw → l.text = agendaPart ++ groupPart) →
    List.Forall₂ Leaf.Renamed e.leaves e.rekeyed.leaves
  | .token k t, _, _ => .cons (.inl rfl) .nil
  | .node k cs, hapart, htext => by
    rw [leaves_node] at htext
    by_cases hk : k = .attribute
    · subst hk
      rw [rekeyed_attribute hapart, leaves_node, leaves_node]
      exact renamed_withNewKey htext
    · rw [rekeyed_node hk, leaves_node, leaves_node]
      exact renamed_rekeyedOf cs (allNodes_node.1 hapart).2 htext

theorem renamed_rekeyedOf : (es : List Element) → AttributesApart es →
    (∀ l ∈ leavesOf es, l.kind = .agendaGroupKw → l.text = agendaPart ++ groupPart) →
    List.Forall₂ Leaf.Renamed (leavesOf es) (leavesOf (rekeyedOf es))
  | [], _, _ => .nil
  | e :: es, hapart, htext => by
    obtain ⟨he, hes⟩ := allNodes_cons.1 hapart
    rw [leavesOf_cons] at htext
    obtain ⟨htexte, htextes⟩ := List.forall_mem_append.1 htext
    rw [rekeyedOf, leavesOf_cons, leavesOf_cons]
    exact List.rel_append (renamed_rekeyed e he htexte) (renamed_rekeyedOf es hes htextes)

end

mutual

/-- The marked keys give way to the new one. -/
theorem changed_agendaChoice : (e : Element) → AttributesApart [e] →
    agendaChoice.marking.changed .outside e = [e.rekeyed]
  | .token _ _, _ => rfl
  | .node k cs, h => by
    by_cases hk : k = .attribute
    · rw [Marking.changed, ChildChoice.decide_of_kind (q := agendaChoice) hk]
      subst hk
      rw [rekeyed_attribute h]
      exact congrArg (fun cs => [node .attribute cs]) (changedAll_agendaKeyAt? cs)
    cases hhides : agendaChoice.hides k with
    | true => rw [Marking.changed, ChildChoice.decide_of_hides hk hhides, rekeyed_clause hhides h]
    | false =>
      rw [Marking.changed, ChildChoice.decide_node hk hhides, rekeyed_node hk]
      exact congrArg (fun cs => [node k cs]) (changedAll_agendaChoice cs (allNodes_node.1 h).2)

theorem changedAll_agendaChoice : (es : List Element) → AttributesApart es →
    agendaChoice.marking.changedAll (fun _ => .outside) es = rekeyedOf es
  | [], _ => rfl
  | e :: es, h => by
    obtain ⟨he, hes⟩ := allNodes_cons.1 h
    rw [Marking.changedAll, changed_agendaChoice e he, changedAll_agendaChoice es hes]
    rfl

end

mutual

/-- No key is left to be renamed. -/
theorem marks_rekeyed (index : Nat) : (e : Element) → AttributesApart [e] →
    agendaChoice.marking.marks .outside index e.rekeyed = []
  | .token _ _, _ => rfl
  | .node k cs, h => by
    by_cases hk : k = .attribute
    · have hkey : (node k cs).rekeyed = .node k (withNewKey cs) := by
        subst hk
        exact rekeyed_attribute h
      have hnone : agendaChoice.child? (withNewKey cs) = none := agendaKeyAt?_withNewKey cs
      rw [hkey, Marking.marks, ChildChoice.decide_of_kind (q := agendaChoice) hk, hnone]
      exact ChildChoice.marksOfAll_none _ _
    rw [rekeyed_node hk, Marking.marks]
    cases hhides : agendaChoice.hides k with
    | true => rw [ChildChoice.decide_of_hides hk hhides]
    | false =>
      rw [ChildChoice.decide_node hk hhides]
      exact marksOfAll_rekeyed (index + 1) cs (allNodes_node.1 h).2

theorem marksOfAll_rekeyed (index : Nat) : (es : List Element) → AttributesApart es →
    agendaChoice.marking.marksOfAll (fun _ => .outside) index (rekeyedOf es) = []
  | [], _ => rfl
  | e :: es, h => by
    obtain ⟨he, hes⟩ := allNodes_cons.1 h
    rw [rekeyedOf, Marking.marksOfAll, marks_rekeyed index e he, marksOfAll_rekeyed _ es hes]
    rfl

end

end Element

/-! ## Reading the text -/

/-- A text with some keywords renamed is read as a tree of the same outline, with the tokens
renamed. -/
theorem parse_renamed {source : List Char} {limit : Option Nat} {ls : List Leaf}
    (h : List.Forall₂ Leaf.Renamed (parse source limit).root.leaves ls) (limit' : Option Nat) :
    (parse (textOf ls) limit').root.outline = (parse source limit).root.outline ∧
      (parse (textOf ls) limit').root.leaves = ls := by
  have hsource : textOf (parse source limit).root.leaves = source := text_parse source limit
  have hold := map_leaf_lex source limit
  have hnew : (lex (textOf ls)).tokens.map Token.leaf = ls ++ [⟨.eof, []⟩] :=
    lex_renamed h (hsource.symm ▸ hold)
  have htokens : Ahead.Renamed (lex source).tokens (lex (textOf ls)).tokens := by
    have hall : List.Forall₂ Leaf.Renamed ((lex source).tokens.map Token.leaf)
        ((lex (textOf ls)).tokens.map Token.leaf) := by
      rw [hold, hnew]
      exact List.rel_append h (.cons (.inl rfl) .nil)
    rwa [List.forall₂_map_left_iff, List.forall₂_map_right_iff] at hall
  obtain ⟨t, ht, htroot⟩ := exists_reads_parse source limit
  obtain ⟨u, hu, huroot⟩ := exists_reads_parse (textOf ls) limit'
  have hstart : Reading.Renamed (.start (lex source).tokens limit)
      (.start (lex (textOf ls)).tokens limit') := ⟨htokens, rfl, rfl⟩
  obtain ⟨u', hu', hrenamed⟩ := ht.renamed (.call _) hstart
  obtain rfl := hu.unique hu'
  have houtline := hrenamed.group
  rw [htroot, huroot] at houtline
  exact ⟨(List.cons.inj houtline).1,
    List.append_cancel_right ((map_leaf_lex (textOf ls) limit').symm.trans hnew)⟩

/-- The text of the tree with the new keys is read as this tree. -/
theorem parse_rekeyed (source : List Char) (limit limit' : Option Nat) :
    (parse (parse source limit).root.rekeyed.text limit').root =
      (parse source limit).root.rekeyed := by
  have hsource : textOf (parse source limit).root.leaves = source := text_parse source limit
  have hlex : (lex (textOf (parse source limit).root.leaves)).tokens.map Token.leaf =
      (parse source limit).root.leaves ++ [⟨.eof, []⟩] := by
    rw [hsource]
    exact map_leaf_lex source limit
  obtain ⟨houtline, hleaves⟩ := parse_renamed
    (renamed_rekeyed _ (attributesApart_parse source limit) (text_of_lex hlex)) limit'
  rw [show (parse source limit).root.rekeyed.text =
    textOf (parse source limit).root.rekeyed.leaves from rfl]
  exact eq_of_outline _ (houtline.trans (outline_rekeyed _).symm) hleaves

/-! ## The recipe -/

namespace Recipe

/-- One visit and one batch on the tree of any source, well-formed or not. All edits are carried out,
and give the tree of the source with the key of each attribute `agenda-group` renamed. The text is
read as this very tree. Then no attribute has the old key, and a second visit asks for nothing. -/
theorem agendaGroup_reads_back (config : RewriteConfig) (id newId : TreeId) (sourceId : String)
    (source : List Char) (limit limit' : Option Nat) :
    let before := SyntaxTree.ofElement id sourceId (parse source limit).root
    ∃ r, before.apply config newId (agendaGroup.visit before) = .ok r ∧
      r.applied = (agendaGroup.visit before).length ∧ r.dropped = 0 ∧ r.diagnostics = [] ∧
      r.tree.element = (parse source limit).root.rekeyed ∧
      (parse r.text limit').root = (parse source limit).root.rekeyed ∧
      ∀ id' sourceId',
        agendaGroup.visit (SyntaxTree.ofElement id' sourceId' (parse r.text limit').root) = [] := by
  intro before
  obtain ⟨s, cs, hroot⟩ := SyntaxTree.exists_root_ofElement id sourceId source limit
  have hnodup := SyntaxTree.nodup_ofElement id sourceId source limit
  have hbefore : before.element = (parse source limit).root := erase_stampFrom 0 _ _
  have hapart := attributesApart_parse source limit
  obtain ⟨r, hok, helement, happlied, hdropped, hdiagnostics⟩ :=
    agendaChoice.marking.exists_apply config newId .outside hroot hnodup
      (ChildChoice.decide_outside _)
  rw [← visit_agendaGroup hnodup] at hok happlied
  rw [hbefore, changed_agendaChoice _ hapart] at helement
  have helement : r.tree.element = (parse source limit).root.rekeyed := (List.cons.inj helement).1
  have hparse : (parse r.text limit').root = (parse source limit).root.rekeyed := by
    have htext : r.text = (parse source limit).root.rekeyed.text := by
      rw [← helement]
      rfl
    rw [htext]
    exact parse_rekeyed source limit limit'
  refine ⟨r, hok, happlied, hdropped, hdiagnostics, helement, hparse, fun id' sourceId' => ?_⟩
  have hafter : (SyntaxTree.ofElement id' sourceId' (parse r.text limit').root).element =
      (parse source limit).root.rekeyed := (erase_stampFrom 0 _ _).trans hparse
  rw [visit_agendaGroup (SyntaxTree.nodup_ofElement id' sourceId' r.text limit'), Marking.edits,
    hafter, marks_rekeyed 0 _ hapart]
  rfl

/-- Only the key of the attribute is renamed, in a rule that lacks its `when`. -/
example :
    (parse "rule R agenda-group \"g\" A(agenda-group) then agenda-group end".toList).root.rekeyed.text
      = "rule R ruleflow-group \"g\" A(agenda-group) then agenda-group end".toList := by
  decide +kernel

end Recipe

end RuleLang
