import RuleLang.Proofs.Recipe.RespelledText
import RuleLang.Proofs.Recipe.SpelledJoins
import RuleLang.Proofs.Rewrite.MarkedWalk
import RuleLang.Proofs.Tree.Identity
import RuleLang.Recipe.LhsLogical

/-!
# Words for the symbols between conditions

The recipe for `&&` and `||` between conditions walks a tree and asks for one edit at each symbol
that joins conditions. Carried out, these edits give the tree with words for the symbols.

The words are bare, without blanks around them. A word that touches a name, a number or another word
runs together with it: the text of `A()&&B()` becomes `A()andB()`, which is a second pattern of the
name `andB`. Nothing else can go wrong when the text is read again.

The recipe passes over patterns. A pattern may have conditions of its own, in the source of its
facts: the symbols between these stay, and no others.

## Main definitions

* `joinMarking` — the symbols that join conditions, marked to give way to words.
* `Element.joins` — the symbols that join conditions.
* `Element.hiddenJoins` — those of them that stand in a pattern, a test or a consequence.

## Main statements

* `Recipe.visit_lhsLogical` — the recipe asks for the edits for these marks.
* `Recipe.exists_apply_lhsLogical` — a batch of these edits gives the tree with words.
* `Recipe.lhsLogical_reads_back` — what the recipe makes of a source without errors is read as the
  tree that it made, exactly if no word runs together with its neighbours.
* `Element.joins_spelled` — what the tree with words is left with.
* `Recipe.joins_lhsLogical` — what one visit and one batch leave behind, for every text.
-/

namespace RuleLang

open Stamped

/-! ## The marks -/

/-- What the recipe puts in the place of a symbol. -/
def Kind.joinEdit (k : Kind) : Action :=
  .replace (.token (Leaf.word k).kind (Leaf.word k).text)

/-- Symbols that join the conditions right below a node are to give way to words. What is known of
an element is the kind of the node right above it. -/
def joinMarking : Marking Kind where
  decide parent
    | .token k _ => if parent.joinsIn k then .act k.joinEdit else .keep
    | .node k _ => if k.hidesJoins then .keep else .into fun _ => k

theorem decide_token (parent k : Kind) (t : List Char) :
    joinMarking.decide parent (.token k t) =
      if parent.joinsIn k then .act k.joinEdit else .keep := rfl

theorem decide_node (parent k : Kind) (cs : List Element) :
    joinMarking.decide parent (.node k cs) =
      if k.hidesJoins then .keep else .into fun _ => k := rfl

mutual

theorem changed_joinMarking (parent : Kind) :
    (e : Element) → joinMarking.changed parent e = [e.spelled parent]
  | .token k t => by
    rw [Marking.changed, decide_token, Element.spelled, Leaf.spelled]
    cases parent.joinsIn k <;> rfl
  | .node k cs => by
    rw [Marking.changed, decide_node, Element.spelled_node]
    cases k.hidesJoins <;> simp [changedAll_joinMarking k cs]

theorem changedAll_joinMarking (parent : Kind) :
    (es : List Element) →
      joinMarking.changedAll (fun _ => parent) es = es.map (Element.spelled parent)
  | [] => rfl
  | e :: es => by
    rw [Marking.changedAll, changed_joinMarking parent e, changedAll_joinMarking parent es]
    rfl

end

namespace Recipe

/-! ## The calls -/

namespace LhsLogical

theorem enter_visitor (v : Visit) (s : Unit) :
    visitor.enter v s =
      if v.place.element.kind.hidesJoins then react [] .skipChildren else react [] := by
  simp only [visitor, Visitor.ofHooks, Visitor.runHooks]
  generalize v.place.element.kind = k
  cases k <;> rfl

theorem leavesQuietly : LeavesQuietly visitor := by
  intro v s
  simp only [visitor, Visitor.ofHooks, Visitor.runHooks]
  generalize v.place.element.kind = k
  cases k <;> rfl

/-- The visited token joins the conditions right below the node above it. -/
def joins (v : Visit) : Bool :=
  (v.place.above.head?.bind fun n => v.index.places[n]?).any fun p =>
    p.element.kind.joinsIn v.place.element.kind

theorem onOperator_eq {v : Visit} {parent keyword k : Kind} (hk : v.place.element.kind = k)
    (hjoins : ∀ p : Kind, p.joinsIn k = (p == parent)) (hword : k.joinWord = keyword) :
    onOperator parent keyword v () =
      react (if joins v then v.editHere v.place.element.kind.joinEdit else []) := by
  rw [onOperator, joins, hk]
  simp only [hjoins, Kind.joinEdit, Leaf.word, hword]

theorem token_visitor (v : Visit) (s : Unit) :
    visitor.token v s =
      react (if joins v then v.editHere v.place.element.kind.joinEdit else []) := by
  have hcall : visitor.token v s =
      if v.place.element.kind = .ampAmp then onOperator .lhsAnd .andKw v ()
      else if v.place.element.kind = .pipePipe then onOperator .lhsOr .orKw v ()
      else react [] := by
    simp only [visitor, Visitor.ofHooks, Visitor.runHooks]
    generalize v.place.element.kind = k
    cases k <;> rfl
  rw [hcall]
  split
  · rename_i hk
    exact onOperator_eq hk (fun p => by simp [Kind.joinsIn]) rfl
  · rename_i hamp
    split
    · rename_i hk
      exact onOperator_eq hk (fun p => by simp [Kind.joinsIn]) rfl
    · rename_i hpipe
      have hjoins (p : Kind) : p.joinsIn v.place.element.kind = false := by
        rw [Kind.joinsIn, beq_eq_false_iff_ne.2 hamp, beq_eq_false_iff_ne.2 hpipe]
        simp
      have hnone : joins v = false := by
        simp only [joins, hjoins, Option.any_false]
      rw [hnone]
      rfl

/-! ## The walk -/

variable {tree : SyntaxTree}

/-- The node right above is of a kind that joins conditions like `parent`, if at all. -/
def Below (tree : SyntaxTree) (above : List Nat) (parent : Kind) : Prop :=
  ∀ k, (above.head?.bind fun n => tree.index.places[n]?).any (fun p => p.element.kind.joinsIn k) =
    parent.joinsIn k

theorem below_root (tree : SyntaxTree) : Below tree [] .compilationUnit :=
  fun _ => rfl

theorem below_node {index offset s : Nat} {above : List Nat} {k : Kind} {cs : List Stamped}
    (h : tree.root.places[index]? = some ⟨offset, .node s k cs, above⟩) :
    Below tree (index :: above) k := by
  intro k'
  simp [SyntaxTree.index, h, Stamped.kind]

/-- The visitor decides on elements as the marking does. -/
theorem directs (hnodup : (tree.root.places.map Place.identity).Nodup) :
    joinMarking.Directs tree (fun parent above => Below tree above parent) visitor where
  leave := leavesQuietly
  token := by
    intro parent index offset s above k t hbelow hplace
    have hhandle := TreeIndex.handleOf?_identity (i := tree.index)
      (by simpa [SyntaxTree.index] using hnodup) (by simpa [SyntaxTree.index] using hplace)
    have hjoins : joins ⟨tree.index, ⟨offset, .token s k t, above⟩⟩ = parent.joinsIn k := hbelow k
    rw [token_visitor, hjoins, Marking.marks, decide_token]
    cases parent.joinsIn k with
    | false => rfl
    | true =>
      rw [if_pos rfl, Visit.editHere, Visit.edit, hhandle]
      rfl
  node := by
    intro parent index offset s above k cs hbelow h
    have henter := enter_visitor ⟨tree.index, ⟨offset, .node s k cs, above⟩⟩ ()
    rw [Marking.marks, decide_node]
    cases hk : k.hidesJoins with
    | true => exact .inl (henter.trans (if_pos hk))
    | false =>
      exact .inr ⟨_, if_neg (Bool.eq_false_iff.1 rfl), fun _ => below_node h.here,
        henter.trans (if_neg (Bool.eq_false_iff.1 hk))⟩

end LhsLogical

variable {tree : SyntaxTree}

/-- The recipe asks for the edits for the marks. -/
theorem visit_lhsLogical (hnodup : (tree.root.places.map Place.identity).Nodup) :
    lhsLogical.visit tree = joinMarking.edits .compilationUnit tree :=
  (LhsLogical.directs hnodup).edits_walk (LhsLogical.below_root tree)

/-- A batch of the edits of the recipe gives the tree with words. -/
theorem exists_apply_lhsLogical {s : Nat} {cs : List Stamped} (config : RewriteConfig)
    (newId : TreeId) (hroot : tree.root = .node s .compilationUnit cs)
    (hnodup : (tree.root.places.map Place.identity).Nodup) :
    ∃ r, tree.apply config newId (lhsLogical.visit tree) = .ok r ∧
      r.tree.element = tree.element.spelled .compilationUnit ∧
      r.applied = (lhsLogical.visit tree).length ∧ r.dropped = 0 ∧ r.diagnostics = [] := by
  rw [visit_lhsLogical hnodup]
  have hdecide (a : Action) :
      joinMarking.decide .compilationUnit tree.element ≠ .act a := by
    rw [SyntaxTree.element, hroot, erase, decide_node]
    simp [Kind.hidesJoins]
  obtain ⟨r, hok, helement, hcounts⟩ :=
    joinMarking.exists_apply config newId .compilationUnit hroot hnodup hdecide
  rw [changed_joinMarking, List.singleton_inj] at helement
  exact ⟨r, hok, helement, hcounts⟩

end Recipe

/-! ## Reading back -/

mutual

/-- The leaves of a tree with words for symbols are those of the tree, with words for symbols. -/
theorem respelled_leaves (parent : Kind) :
    (e : Element) → List.Forall₂ Leaf.Respelled e.leaves (e.spelled parent).leaves
  | .token k t => by
    rw [Element.spelled, Element.leaves_token]
    exact .cons (Leaf.respelled_spelled ⟨k, t⟩ parent) .nil
  | .node k cs => by
    rw [Element.spelled_node, Element.leaves_node, Element.leaves_node]
    cases k.hidesJoins with
    | true => exact List.forall₂_same.2 fun l _ => .inl rfl
    | false => exact respelled_leavesOf k cs

theorem respelled_leavesOf (parent : Kind) :
    (es : List Element) →
      List.Forall₂ Leaf.Respelled (Element.leavesOf es)
        (Element.leavesOf (es.map (Element.spelled parent)))
  | [] => .nil
  | e :: es => List.rel_append (respelled_leaves parent e) (respelled_leavesOf parent es)

end

/-- A source without errors, with words for the symbols that join conditions: if the words are read
where they stand, the whole is read as the tree with these words. -/
theorem parse_spelled_of_lexes {source : List Char} (hclean : IsClean (parse source).syntaxErrors)
    (h : Lexes .normal ((parse source).root.spelled .compilationUnit).leaves) :
    (parse ((parse source).root.spelled .compilationUnit).text).root =
        (parse source).root.spelled .compilationUnit ∧
      (parse ((parse source).root.spelled .compilationUnit).text).lexErrors = [] ∧
      IsClean (parse ((parse source).root.spelled .compilationUnit).text).syntaxErrors := by
  refine parse_of_lexes h fun init' e' he' hinit' => ?_
  rw [parse_eq source] at hclean hinit' ⊢
  obtain ⟨e, hended, htext⟩ := (covers_lex source).ended
  have he : e.leaf = ⟨.eof, []⟩ := by rw [Token.leaf, hended.kind, htext]
  exact parseTokens_spelled hended hclean (he'.trans he.symm) hinit'

/-- A source without errors, with words for the symbols that join conditions, is read as the tree
with these words exactly if the words stand apart from their neighbours. -/
theorem parse_spelled_iff {source : List Char} (hlex : (parse source).lexErrors = [])
    (hclean : IsClean (parse source).syntaxErrors) :
    ((parse ((parse source).root.spelled .compilationUnit).text).root =
          (parse source).root.spelled .compilationUnit ∧
        (parse ((parse source).root.spelled .compilationUnit).text).lexErrors = [] ∧
        IsClean (parse ((parse source).root.spelled .compilationUnit).text).syntaxErrors) ↔
      Detached [] (parse source).root.leaves
        ((parse source).root.spelled .compilationUnit).leaves := by
  rw [← lexes_respelled_iff (lexes_parse hlex) (respelled_leaves .compilationUnit _)]
  refine ⟨fun ⟨hroot, hlex, _⟩ => ?_, parse_spelled_of_lexes hclean⟩
  have := lexes_parse hlex
  rwa [hroot] at this

namespace Recipe

/-- One visit and one batch on the tree of a source without errors. All edits are carried out, and
the result is the tree with words for the symbols that join conditions. Its text is read as this
very tree, again without errors, exactly if no word runs together with its neighbours. -/
theorem lhsLogical_reads_back (config : RewriteConfig) (id newId : TreeId) (sourceId : String)
    {source : List Char} (hlex : (parse source).lexErrors = [])
    (hclean : IsClean (parse source).syntaxErrors) :
    let before := SyntaxTree.ofElement id sourceId (parse source).root
    ∃ r, before.apply config newId (lhsLogical.visit before) = .ok r ∧
      r.tree.element = before.element.spelled .compilationUnit ∧
      r.applied = (lhsLogical.visit before).length ∧ r.dropped = 0 ∧ r.diagnostics = [] ∧
      (((parse r.text).root = r.tree.element ∧ (parse r.text).lexErrors = [] ∧
          IsClean (parse r.text).syntaxErrors) ↔
        Detached [] before.element.leaves r.tree.element.leaves) := by
  intro before
  obtain ⟨s, cs, hroot⟩ := SyntaxTree.exists_root_ofElement id sourceId source none
  have hnodup := SyntaxTree.nodup_ofElement id sourceId source none
  obtain ⟨r, hok, helement, happlied, hdropped, hdiagnostics⟩ :=
    @exists_apply_lhsLogical before s cs config newId hroot hnodup
  have hbefore : before.element = (parse source).root := erase_stampFrom 0 _ _
  refine ⟨r, hok, helement, happlied, hdropped, hdiagnostics, ?_⟩
  rw [show r.text = r.tree.element.text from rfl, helement, hbefore]
  exact parse_spelled_iff hlex hclean

/-- In `A()&&B()` the word runs together with the name behind it. -/
theorem lhsLogical_reads_back_tight :
    ∃ r, (SyntaxTree.ofElement 0 "" (parse "rule R when A()&&B() then end".toList).root).apply {} 1
        (lhsLogical.visit (.ofElement 0 "" (parse "rule R when A()&&B() then end".toList).root)) =
          .ok r ∧
      r.text = "rule R when A()andB() then end".toList ∧
      ¬ ((parse r.text).root = r.tree.element ∧ (parse r.text).lexErrors = [] ∧
        IsClean (parse r.text).syntaxErrors) := by
  have hclean : IsClean (parse "rule R when A()&&B() then end".toList).syntaxErrors :=
    List.all_eq_true.1 (by decide +kernel)
  obtain ⟨r, hok, helement, -, -, -, hiff⟩ :=
    lhsLogical_reads_back {} 0 1 "" (by decide +kernel) hclean
  refine ⟨r, hok, ?_, ?_⟩
  · rw [show r.text = r.tree.element.text from rfl, helement]
    decide +kernel
  · rw [hiff, helement]
    decide +kernel

end Recipe

/-! ## The symbols that stay -/

namespace Element

mutual

/-- The symbols that join conditions, right below a node of kind `parent` and further below. -/
def joins (parent : Kind) : Element → List Leaf
  | .token k t => if parent.joinsIn k then [⟨k, t⟩] else []
  | .node k cs => joinsOf k cs

def joinsOf (parent : Kind) : List Element → List Leaf
  | [] => []
  | e :: es => e.joins parent ++ joinsOf parent es

end

mutual

/-- The symbols that join conditions within a node that the recipe passes over. -/
def hiddenJoins : Element → List Leaf
  | .token _ _ => []
  | .node k cs => if k.hidesJoins then joinsOf k cs else hiddenJoinsOf cs

def hiddenJoinsOf : List Element → List Leaf
  | [] => []
  | e :: es => e.hiddenJoins ++ hiddenJoinsOf es

end

/-- No word joins conditions as a symbol does. -/
theorem joins_ofLeaf_spelled (parent : Kind) (l : Leaf) :
    joins parent (.ofLeaf (l.spelled parent)) = [] := by
  cases hj : parent.joinsIn l.kind with
  | false => simp [Leaf.spelled_of_not hj, Element.ofLeaf, joins, hj]
  | true =>
    have hword : parent.joinsIn (Leaf.word l.kind).kind = false := by
      simp only [Kind.joinsIn, Bool.or_eq_true, Bool.and_eq_true, beq_iff_eq] at hj
      rcases hj with ⟨rfl, hk⟩ | ⟨rfl, hk⟩ <;> rw [hk] <;> rfl
    simp [Leaf.spelled, hj, Element.ofLeaf, joins, hword]

mutual

/-- With words for the symbols that join conditions, those in nodes that are passed over are left. -/
theorem joins_spelled (parent : Kind) : (e : Element) →
    (e.spelled parent).joins parent = e.hiddenJoins
  | .token k t => by
    rw [spelled, joins_ofLeaf_spelled, hiddenJoins]
  | .node k cs => by
    rw [spelled_node, joins, hiddenJoins]
    cases k.hidesJoins with
    | true => rfl
    | false => exact joinsOf_spelled k cs

theorem joinsOf_spelled (parent : Kind) : (es : List Element) →
    joinsOf parent (es.map (spelled parent)) = hiddenJoinsOf es
  | [] => rfl
  | e :: es => by
    rw [List.map_cons, joinsOf, hiddenJoinsOf, joins_spelled parent e, joinsOf_spelled parent es]

end

end Element

namespace Recipe

/-- One visit and one batch on the tree of any text leave behind the symbols between conditions that
stand in a pattern, a test or a consequence, and no others. -/
theorem joins_lhsLogical (config : RewriteConfig) (id newId : TreeId) (sourceId : String)
    (source : List Char) (limit : Option Nat) :
    let before := SyntaxTree.ofElement id sourceId (parse source limit).root
    ∃ r, before.apply config newId (lhsLogical.visit before) = .ok r ∧
      r.applied = (lhsLogical.visit before).length ∧ r.dropped = 0 ∧ r.diagnostics = [] ∧
      r.tree.element.joins .compilationUnit = before.element.hiddenJoins := by
  intro before
  obtain ⟨s, cs, hroot⟩ := SyntaxTree.exists_root_ofElement id sourceId source limit
  obtain ⟨r, hok, helement, hcounts⟩ := @exists_apply_lhsLogical before s cs config newId hroot
    (SyntaxTree.nodup_ofElement id sourceId source limit)
  obtain ⟨happlied, hdropped, hdiagnostics⟩ := hcounts
  refine ⟨r, hok, happlied, hdropped, hdiagnostics, ?_⟩
  rw [helement]
  exact Element.joins_spelled .compilationUnit before.element

/-- The conditions of an accumulation stand in a pattern, and so does the `&&` between them. -/
theorem joins_lhsLogical_accumulate :
    let source := "rule R when $n : Number() from accumulate( A() && B(), count(1) ) then end"
    let before := SyntaxTree.ofElement 0 "" (parse source.toList).root
    ∃ r, before.apply {} 1 (lhsLogical.visit before) = .ok r ∧
      r.tree.element.joins .compilationUnit = [⟨.ampAmp, ['&', '&']⟩] := by
  obtain ⟨r, hok, -, -, -, hjoins⟩ := joins_lhsLogical {} 0 1 ""
    "rule R when $n : Number() from accumulate( A() && B(), count(1) ) then end".toList none
  refine ⟨r, hok, hjoins.trans ?_⟩
  decide +kernel

end Recipe

end RuleLang
