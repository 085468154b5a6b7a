import RuleLang.Proofs.Grammar.YieldsTests

/-!
# Conditions are read as their nodes

Nothing separates one conditional element from the next, so each has to end where the next begins:
no kind that a conditional element starts with goes on with another one. Within a chain an operand
ends at a connective, or where the chain does. Conditions are therefore read at three ranks, each
with the kinds that may come after them.

## Main definitions

* `Follow.followers` — what may come after a condition of a rank.
* `Clause.Readable` — a node is read as a condition of a rank.

## Main statements

* `Clause.readable_shape` — each conditional element is read as its node, at its rank.
* `Clause.yields_tree` — a rule with conditional elements is read as its tree.
-/

namespace RuleLang

open Grammar Element Ahead Follow Clause

/-! ## What comes after a condition -/

namespace Follow

/-- The connectives that join operands of a rank above this. -/
def connectives : Nat → List Kind
  | 0 => [.orKw, .pipePipe]
  | 1 => [.andKw, .ampAmp]
  | _ => []

/-- What may come after a condition of a rank. -/
def followers : Nat → List Kind
  | 0 => [.rParen, .thenKw] ++ clauses
  | n + 1 => connectives n ++ followers n

end Follow

/-! ## Patterns -/

namespace Test

theorem gives_constraint (t : Test) :
    Gives (.call .constraint) (At closers) [.node .constraint [t.shape]] := by
  refine .call (.inner (t.gives_expr.unless_seq fun a ha => ?_).yields (t.starts_shape []))
  obtain ⟨l, hl, ks, hks⟩ := t.kindsOf_shape []
  rw [hks] at ha
  have hsecond := ha.nth_one
  have hne : l ≠ .colon ∧ l ≠ .colonEq := by
    constructor <;> (rintro rfl; revert hl; decide)
  simp [hsecond, hne]

theorem first_constraints (t : Test) (ts : List Test) :
    First t.left.leaf.kind (constraintShapes (t :: ts)) := by
  have hstarts := (t.starts_shape []).node .constraint
  cases ts <;> exact (hstarts _).first

/-- Comparisons with commas between them. -/
theorem yields_constraints (t : Test) (ts : List Test) :
    Yields (.call .constraints) (At [.rParen]) (spaced (constraintShapes (t :: ts))) := by
  induction ts generalizing t with
  | nil =>
    have hone := (t.gives_constraint.mono fun a (ha : At [.rParen] a) =>
      List.mem_cons_of_mem _ ha)
    exact .call (hone.seq_nil (.absent (by decide))).led
  | cons d ts ih =>
    have hmore : Gives (eat .comma (.call .constraints)) (At [.rParen])
        (Kind.comma.leaf.element :: spaced (constraintShapes (d :: ts))) :=
      .eat Kind.comma.leaf rfl (ih d)
    exact .call (t.gives_constraint.led.seq hmore.led fun a ha =>
      ha.at_of_first (Starts.leaf (l := Kind.comma.leaf) rfl _).first.blank (by decide))

end Test

namespace Clause

variable (binding : Option Identifier) (query : Bool) (type : Identifier)
  (constraints : List Test)

theorem gives_qualifiedName :
    Gives (.call .qualifiedName) (At [.lParen]) [.node .qualifiedName [type.leaf.element]] := by
  have hparts : Yields (.call .nameParts) (At [.lParen]) [] :=
    .call (Yields.skip.not_when fun a ha => by simp [isAt, ha.ne (k := .dot) (by decide)])
  have hname : Gives (inner .qualifiedName (bump >> .call .nameParts)) (At [.lParen])
      [.node .qualifiedName [type.leaf.element]] :=
    .inner (Gives.seq_nil (.bump type.leaf rfl) hparts).yields (.leaf (l := type.leaf) rfl [])
  refine .call (hname.when fun a ha => ?_)
  rw [Ahead.atName, ha.current_of_first ((Starts.leaf (l := type.leaf) rfl []).node _ []).first]
  rfl

/-- The parenthesis at the end. -/
theorem gives_close (next : Ahead → Prop) :
    Gives (expect .rParen) next [Kind.rParen.leaf.element] :=
  .expect Kind.rParen.leaf rfl .skip

theorem first_close : First .rParen [Kind.rParen.leaf.element] :=
  (Starts.leaf (l := Kind.rParen.leaf) rfl []).first

/-- The end of a pattern. -/
theorem gives_rParen :
    Gives (.seq (expect .rParen) (.seq (whenAt .overKw (.call .window))
      (whenAt .fromKw (.call .source)))) (At (followers 2)) [Kind.rParen.leaf.element] :=
  (gives_close _).seq_nil (Yields.seq_nil (.absent (by decide)) (.absent (by decide)))

/-- The comparisons of a pattern in parentheses. -/
theorem gives_arguments {g : Rule} {next : Ahead → Prop}
    (h : Gives g next [Kind.rParen.leaf.element]) :
    Gives (.seq (expect .lParen (.seq (whenAt .rParen .skip (.call .constraints))
      recoverInParens)) g) next
      (Kind.lParen.leaf.element :: spaced (constraintShapes constraints ++
        [Kind.rParen.leaf.element])) := by
  have hitems : Yields (whenAt .rParen .skip (.call .constraints)) (At [.rParen])
      (spaced (constraintShapes constraints)) := by
    cases constraints with
    | nil => exact Yields.skip.when fun a ha => by simpa [isAt, At] using ha.at
    | cons t ts =>
      refine (t.yields_constraints ts).not_at fun a ha => ?_
      rw [ha.current_of_first (t.first_constraints ts).spaced]
      exact fun h => absurd (h ▸ t.left.kind_mem_terms) (by decide)
  have hopen : Gives (expect .lParen (.seq (whenAt .rParen .skip (.call .constraints))
      recoverInParens)) (At [.rParen]) (Kind.lParen.leaf.element ::
        spaced (constraintShapes constraints)) :=
    Gives.expect Kind.lParen.leaf rfl (hitems.seq_nil (.ifRecovering .skip))
  have hall := hopen.seq h.led fun a ha => ha.at_of_first first_close.blank (by decide)
  rw [spaced_append]
  exact hall

theorem gives_binding {next : Ahead → Prop} (v : Identifier) :
    Gives (.call .binding) next [spread .binding [v.leaf.element, Kind.colon.leaf.element]] := by
  have hname : Gives bump (fun _ => True) [v.leaf.element] := .bump v.leaf rfl
  have hcolon : Gives bump next [Kind.colon.leaf.element] := .bump Kind.colon.leaf rfl
  exact .call (.inner (.take_two hname.yields hcolon.led fun _ _ => trivial)
    (.leaf (l := v.leaf) rfl _))

/-- A pattern without a binding starts with an identifier and a parenthesis, or with a mark. -/
theorem kindsOf_unboundParts :
    ∃ k l ks, kindsOf (unboundParts query type constraints) = k :: l :: ks ∧
      (k = .ident → l ≠ .colon) := by
  have hname (es : List Element) :
      kindsOf (.node .qualifiedName [type.leaf.element] :: es) = .ident :: kindsOf es :=
    (kindsOf_node _ _ _).trans (congrArg (· ++ _) (kindsOf_token rfl type.text []))
  cases query with
  | true =>
    exact ⟨.question, .ident, _, (kindsOf_token rfl _ _).trans (congrArg _ (hname _)), nofun⟩
  | false =>
    exact ⟨.ident, .lParen, _, (hname _).trans (congrArg _ (kindsOf_token rfl _ _)),
      fun _ => by decide⟩

theorem starts_unboundParts :
    ∃ k ∈ [Kind.question, .ident],
      Starts k ((unboundParts query type constraints).intersperse Leaf.blank.element) := by
  cases query with
  | true =>
    exact ⟨.question, by decide, (Starts.leaf (l := Kind.question.leaf) rfl []).intersperse _⟩
  | false =>
    exact ⟨.ident, by decide, ((Starts.leaf (l := type.leaf) rfl []).node _ []).intersperse _⟩

theorem starts_pattern :
    ∃ k ∈ [Kind.question, .ident],
      Starts k ((patternParts binding query type constraints).intersperse Leaf.blank.element) := by
  cases binding with
  | none => exact starts_unboundParts query type constraints
  | some v =>
    exact ⟨.ident, by decide, ((Starts.leaf (l := v.leaf) rfl _).node .binding []).intersperse _⟩

theorem gives_pattern :
    Gives (.call .pattern) (At (followers 2))
      [spread .pattern (patternParts binding query type constraints)] := by
  have htype : First .ident (.node .qualifiedName [type.leaf.element] :: Kind.lParen.leaf.element ::
      (constraintShapes constraints ++ [Kind.rParen.leaf.element])) :=
    ((Starts.leaf (l := type.leaf) rfl []).node _ _).first
  have hnamed := (gives_qualifiedName type).seq (gives_arguments constraints gives_rParen).led
    fun a ha => ha.at_of_first (Starts.leaf (l := Kind.lParen.leaf) rfl _).first.blank (by decide)
  have hunbound := Gives.optional_seq (l := Kind.question.leaf) rfl query
    (intersperse_cons _ _ ▸ hnamed) htype (by decide)
  obtain ⟨_, -, hstarts⟩ := starts_pattern binding query type constraints
  refine .call (.inner (Gives.yields ?_) hstarts)
  cases binding with
  | none =>
    refine hunbound.unless_seq fun a ha => ?_
    obtain ⟨k, l, ks, hks, hkl⟩ := kindsOf_unboundParts query type constraints
    rw [kindsOf_intersperse, ← unboundParts, hks] at ha
    have hcurrent : a.current = k := ha.current
    have hsecond : a.nth 1 = l := ha.nth_one
    simpa [isAt, hcurrent, hsecond] using hkl
  | some v =>
    have hbinding : Gives (when (fun a => a.isAt .ident && a.nth 1 == .colon) (.call .binding))
        (fun _ => True) [spread .binding [v.leaf.element, Kind.colon.leaf.element]] := by
      refine (gives_binding v).when fun a ha => ?_
      have hkinds : kindsOf [spread .binding [v.leaf.element, Kind.colon.leaf.element]] =
          [.ident, .colon] := by
        rw [spread, kindsOf_node, kindsOf_intersperse]
        rfl
      rw [hkinds] at ha
      have hcurrent : a.current = .ident := ha.current
      have hsecond : a.nth 1 = .colon := ha.nth_one
      simp [isAt, hcurrent, hsecond]
    rw [patternParts, Option.map_some, Option.toList_some, List.singleton_append, intersperse_cons,
      spaced_eq (by simp [unboundParts])]
    exact hbinding.seq hunbound.led fun _ _ => trivial

end Clause

/-! ## Ranks -/

namespace Clause

/-- What reads conditions of a rank and above. -/
def production : Nat → Production
  | 0 => .lhsOr
  | 1 => .lhsAnd
  | _ => .lhsUnary

/-- A node that is read as a condition of a rank. -/
structure Readable (n : Nat) (e : Element) : Prop where
  starts : ∃ k ∈ clauses, Starts k [e]
  gives : Gives (.call (production n)) (At (followers n)) [e]

end Clause

namespace Junction

/-- A connective comes next. -/
def comes : Junction → Ahead → Bool
  | .either => Conditions.isOr
  | .both => Conditions.isAnd

/-- What reads the further operands of a chain. -/
def rest : Junction → Production
  | .either => .lhsOrRest
  | .both => .lhsAndRest

/-- A connective, an operand and the further ones. -/
def linked (j : Junction) : Rule :=
  bump >> .call (production (j.rank + 1)) >> .call j.rest

theorem body_production (j : Junction) :
    (production j.rank).body =
      innerGroup (.call (production (j.rank + 1)) >> when j.comes (.enclose j.kind j.linked)) := by
  cases j <;> rfl

theorem body_rest (j : Junction) : j.rest.body = when j.comes j.linked := by
  cases j <;> rfl

theorem link_mem (j : Junction) (symbol : Bool) :
    (j.link symbol).kind ∈ connectives j.rank := by
  cases j <;> cases symbol <;> decide

theorem isSolid_link (j : Junction) (symbol : Bool) : (j.link symbol).kind.isSolid = true := by
  cases j <;> cases symbol <;> decide

theorem comes_link {j : Junction} (symbol : Bool) {a : Ahead}
    (h : a.current = (j.link symbol).kind) : j.comes a = true := by
  cases j <;> cases symbol <;> simp only [comes, Conditions.isOr, Conditions.isAnd, isAt, h] <;> rfl

theorem comes_eq_false {j : Junction} {a : Ahead} (h : At (followers j.rank) a) :
    j.comes a = false := by
  rw [At] at h
  cases j <;> simp only [comes, Conditions.isOr, Conditions.isAnd, isAt] <;>
    generalize a.current = k at h <;> revert k <;> decide

end Junction

namespace Clause

variable {n m : Nat} {e : Element}

theorem followers_subset (n : Nat) : followers n ⊆ followers (n + 1) :=
  List.subset_append_right _ _

theorem clauses_subset : ∀ n, clauses ++ [.rParen, .thenKw] ⊆ followers n
  | 0 => by decide
  | n + 1 => List.Subset.trans (clauses_subset n) (followers_subset n)

namespace Readable

theorem loosen (h : Readable (n + 1) e) : Readable n e := by
  obtain ⟨k, hk, hstarts⟩ := h.starts
  refine ⟨h.starts, ?_⟩
  have hjoined (j : Junction) (h : Readable (j.rank + 1) e) :
      Gives (.call (production j.rank)) (At (followers j.rank)) [e] := by
    refine .call (j.body_production ▸ .innerGroup (Yields.seq_nil ?_ ?_) hstarts)
    · exact (h.gives.mono fun _ ha => followers_subset _ ha).yields
    · exact Yields.skip.not_when fun a ha => Junction.comes_eq_false ha.at
  match n with
  | 0 => exact hjoined .either h
  | 1 => exact hjoined .both h
  | _ + 2 => exact h.gives

theorem mono (h : Readable m e) (hnm : n ≤ m) : Readable n e := by
  induction hnm with
  | refl => exact h
  | step _ ih => exact ih h.loosen

theorem first_mem (h : Readable n e) (es : List Element) :
    ∃ k ∈ clauses, First k (e :: es) := by
  obtain ⟨k, hk, hstarts⟩ := h.starts
  exact ⟨k, hk, (hstarts.append es).first⟩

/-! ### Conditions that stand by themselves -/

section

variable {k kind : Kind} {g body : Rule} {choose : Ahead → Rule} {l : Leaf} {es : List Element}

/-- The first token decides what reads the condition. -/
theorem of_look (hunary : Conditions.lhsUnary = .look choose) (hk : k ∈ clauses)
    (hchoose : ∀ a : Ahead, a.current = k → choose a = g) (h : Gives g (At (followers 2)) [e])
    (he : Starts k [e]) : Readable 2 e := by
  have hlook : Gives Conditions.lhsUnary (At (followers 2)) [e] :=
    hunary ▸ h.look fun a ha => hchoose a (ha.current_of_first he.first)
  exact ⟨⟨k, hk, he⟩, .call hlook⟩

/-- A condition that starts with a token of its own. -/
theorem of_keyword (hunary : Conditions.lhsUnary = .look choose) (hl : l.kind ∈ clauses)
    (hchoose : ∀ a : Ahead, a.current = l.kind → choose a = inner kind (bump >> body))
    (h : Yields body (At (followers 2)) (spaced es)) :
    Readable 2 (spread kind (l.element :: es)) := by
  have hsolid : l.kind.isSolid = true := by
    revert hl
    generalize l.kind = k
    revert k
    decide
  exact of_look hunary hl hchoose (.spread hsolid h) (.spread hsolid kind es)

end

theorem absent (h : Readable 2 e) : Readable 2 (spread .lhsNot [Kind.notKw.leaf.element, e]) :=
  of_keyword rfl (by decide) (fun a ha => by rw [ha]; rfl) h.gives.led

theorem present (h : Readable 2 e) :
    Readable 2 (spread .lhsExists [Kind.existsKw.leaf.element, e]) :=
  of_keyword rfl (by decide) (fun a ha => by rw [ha]; rfl) h.gives.led

theorem eval (t : Test) :
    Readable 2 (spread .lhsEval
      [Kind.evalKw.leaf.element, Kind.lParen.leaf.element, t.shape, Kind.rParen.leaf.element]) := by
  have htest := t.gives_expr.led.seq (gives_close (At (followers 2))).led fun a ha =>
    ha.at_of_first first_close.blank (by decide)
  exact of_keyword rfl (by decide) (fun a ha => by rw [ha]; rfl)
    (Gives.expect Kind.lParen.leaf rfl htest).led

/-! ### Conditions one after the other -/

theorem isStart_of_mem {k : Kind} (h : k ∈ clauses) : Conditions.isStart k = true := by
  revert k
  decide

/-- After a condition comes the next one, or what comes after all of them. -/
theorem at_followers {es : List Element} {ks : List Kind} {a : Ahead}
    (hes : ∀ e ∈ es, Readable n e) (hks : ks ⊆ [.rParen, .thenKw])
    (ha : Begins (kindsOf (spaced es)) (At ks) a) : At (followers n) a := by
  have hsubset := clauses_subset n
  cases es with
  | nil => exact hsubset (List.mem_append_right _ (hks ha.at))
  | cons e es =>
    obtain ⟨k, hk, hfirst⟩ := (hes e List.mem_cons_self).first_mem es
    exact ha.at_of_first hfirst.spaced (hsubset (List.mem_append_left _ hk))

/-- What reads conditions up to a parenthesis reads those of a rank. -/
theorem yields_items {q : Production} {es : List Element}
    (hq : q.body = when (fun a => Conditions.isStart a.current)
      (.call (production n) >> .ifRecovering .skip (.call q)))
    (hes : ∀ e ∈ es, Readable n e) : Yields (.call q) (At [.rParen]) (spaced es) := by
  induction es with
  | nil =>
    refine .call (hq ▸ Yields.skip.not_when fun a ha => ?_)
    rw [List.mem_singleton.1 ha.at]
    rfl
  | cons e es ih =>
    obtain ⟨he, hes⟩ := List.forall_mem_cons.1 hes
    have hmore : Yields (.ifRecovering .skip (.call q)) (At [.rParen]) (spaced es) :=
      .ifRecovering (ih hes)
    refine .call (hq ▸ Yields.when (he.gives.led.seq hmore fun a ha =>
      at_followers hes (by decide) ha) fun a ha => ?_)
    obtain ⟨k, hk, hfirst⟩ := he.first_mem (spaced es)
    rw [ha.current_of_first hfirst.blank]
    exact isStart_of_mem hk

theorem all {es : List Element} (hes : ∀ e ∈ es, Readable 0 e) :
    Readable 2 (spread .lhsForall (Kind.forallKw.leaf.element :: Kind.lParen.leaf.element ::
      (es ++ [Kind.rParen.leaf.element]))) := by
  have hitems : Yields (.call .forallItems) (At [.rParen]) (spaced es) := yields_items rfl hes
  have hclosed := hitems.seq (gives_close (At (followers 2))).led fun a ha =>
    ha.at_of_first first_close.blank (by decide)
  refine of_keyword rfl (by decide) (fun a ha => by rw [ha]; rfl) ?_
  have hopen := (Gives.expect Kind.lParen.leaf rfl hclosed).led
  rw [spaced, List.flatMap_cons, ← spaced, spaced_append]
  exact hopen

/-- The first token in the parentheses decides what is read there. -/
theorem of_parens {g : Rule} {k : Kind} {choose : Ahead → Rule}
    (hparens : Conditions.lhsParen = inner .lhsParen (bump >> .look choose >> expect .rParen))
    (hchoose : ∀ a : Ahead, a.current = k → choose a = g) (h : Gives g (At [.rParen]) [e])
    (he : First k [e]) :
    Readable 2 (spread .lhsParen [Kind.lParen.leaf.element, e, Kind.rParen.leaf.element]) := by
  have hinside : Yields (.look choose >> expect .rParen) (At (followers 2))
      (spaced [e, Kind.rParen.leaf.element]) :=
    (h.look fun a ha => hchoose a (ha.current_of_first he)).led.seq
      (gives_close (At (followers 2))).led fun a ha => ha.at_of_first first_close.blank (by decide)
  have hall : Gives (.call .lhsParen) (At (followers 2)) _ :=
    .call (hparens ▸ Gives.spread (l := Kind.lParen.leaf) rfl hinside)
  exact of_look rfl (by decide) (fun a ha => by rw [ha]; rfl) hall
    (Starts.spread (l := Kind.lParen.leaf) rfl _ _)

theorem paren (h : Readable 0 e) :
    Readable 2 (spread .lhsParen [Kind.lParen.leaf.element, e, Kind.rParen.leaf.element]) := by
  obtain ⟨k, hk, hfirst⟩ := h.first_mem []
  refine of_parens rfl (fun a ha => ?_) (h.gives.mono fun a ha => ?_) hfirst
  · rw [ha]
    fin_cases hk <;> rfl
  · rw [At, List.mem_singleton.1 ha]
    decide

/-- What a condition in parentheses is read as where it needs a rank. -/
theorem shapeFrom {rank needed : Nat} (h : Readable rank e) (hneeded : needed ≤ 2) :
    Readable needed (Clause.shapeFrom needed rank e) := by
  rw [Clause.shapeFrom]
  split
  · exact (h.mono (Nat.zero_le rank)).paren.mono hneeded
  · exact h.mono (by omega)

/-- Operands after a connective, in parentheses. -/
theorem group {es : List Element} (j : Junction) (hes : ∀ e ∈ es, Readable 2 e) :
    Readable 2 (spread .lhsParen [Kind.lParen.leaf.element, spread j.kind (j.word.element :: es),
      Kind.rParen.leaf.element]) := by
  have hitems : Yields (.call .prefixOperands) (At [.rParen]) (spaced es) := yields_items rfl hes
  cases j with
  | either =>
    exact of_parens rfl (fun a ha => by rw [ha]; rfl) (.spread rfl hitems)
      (Starts.spread (l := Kind.orKw.leaf) rfl _ _).first
  | both =>
    exact of_parens rfl (fun a ha => by rw [ha]; rfl) (.spread rfl hitems)
      (Starts.spread (l := Kind.andKw.leaf) rfl _ _).first

end Readable

/-! ### Chains -/

section

variable {j : Junction} {es : List Element}

theorem gives_linked (h : Readable (j.rank + 1) e)
    (hes : Yields (.call j.rest) (At (followers j.rank)) (spaced es))
    (hnext : es = [] ∨ ∃ k ∈ connectives j.rank, First k es) (symbol : Bool) :
    Gives j.linked (At (followers j.rank)) ((j.link symbol).element :: spaced (e :: es)) := by
  have hoperands := h.gives.led.seq hes fun a ha => by
    rcases hnext with rfl | ⟨k, hk, hfirst⟩
    · exact followers_subset _ ha.at
    · exact ha.at_of_first hfirst.spaced (List.mem_append_left _ hk)
  exact .bump_seq (j.link symbol) (j.isSolid_link symbol) hoperands

/-- The first token of a chain after its first operand is a connective. -/
theorem first_links (more : List (Bool × Clause)) :
    shapesOfLinks j more = [] ∨ ∃ k ∈ connectives j.rank, First k (shapesOfLinks j more) := by
  cases more with
  | nil => exact .inl rfl
  | cons p more =>
    exact .inr ⟨_, j.link_mem p.1, (Starts.leaf (j.isSolid_link p.1) _).first⟩

/-- Further operands of a chain. -/
theorem yields_links (more : List (Bool × Clause))
    (hmore : ∀ p ∈ more, Readable p.2.rank p.2.shape) :
    Yields (.call j.rest) (At (followers j.rank)) (spaced (shapesOfLinks j more)) := by
  induction more with
  | nil =>
    exact .call (j.body_rest ▸ Yields.skip.not_when fun a ha => Junction.comes_eq_false ha.at)
  | cons p more ih =>
    obtain ⟨symbol, c⟩ := p
    obtain ⟨hc, hmore⟩ := List.forall_mem_cons.1 hmore
    have hj : j.rank + 1 ≤ 2 := by cases j <;> decide
    have hlinked := gives_linked (hc.shapeFrom hj) (ih hmore) (first_links more) symbol
    refine .call (j.body_rest ▸ Yields.when hlinked.led fun a ha => ?_)
    exact Junction.comes_link symbol
      (ha.current_of_first (Starts.leaf (j.isSolid_link symbol) _).first.blank)

/-- An operand with a connective after it, and what comes with that. -/
theorem Readable.joined {symbol : Bool} (h : Readable (j.rank + 1) e)
    (hes : Yields j.linked (At (followers j.rank)) (spaced es))
    (hfirst : First (j.link symbol).kind es) : Readable j.rank (spread j.kind (e :: es)) := by
  obtain ⟨k, hk, hstarts⟩ := h.starts
  refine ⟨⟨k, hk, (hstarts.intersperse es).node j.kind []⟩, .call ?_⟩
  have hnode : Becomes (.enclose j.kind j.linked) (At (followers j.rank)) [e] (spaced es)
      [spread j.kind (e :: es)] := by
    rw [spread, intersperse_cons]
    exact .enclose (hes [e])
  have hrest : Becomes (when j.comes (.enclose j.kind j.linked)) (At (followers j.rank)) [e]
      (spaced es) [spread j.kind (e :: es)] :=
    hnode.when fun a ha => Junction.comes_link symbol (ha.current_of_first hfirst.spaced)
  have hall := (h.gives.yields []).seq hrest fun a ha =>
    ha.begins.at_of_first hfirst.spaced (List.mem_append_left _ (j.link_mem symbol))
  refine j.body_production ▸ .innerGroup_of_becomes hall (hstarts.append _) ?_
  rw [spread, intersperse_cons]
  simp

/-- A chain of two operands and further ones. -/
theorem Readable.chain {first second : Element} (hfirst : Readable (j.rank + 1) first)
    (hsecond : Readable (j.rank + 1) second) (symbol : Bool) (more : List (Bool × Clause))
    (hmore : ∀ p ∈ more, Readable p.2.rank p.2.shape) :
    Readable j.rank (spread j.kind
      (first :: (j.link symbol).element :: second :: shapesOfLinks j more)) :=
  hfirst.joined (gives_linked hsecond (yields_links more hmore) (first_links more) symbol).led
    (Starts.leaf (j.isSolid_link symbol) _).first

end

/-! ### All conditions -/

theorem readable_pattern (binding : Option Identifier) (query : Bool) (type : Identifier)
    (constraints : List Test) : Readable 2 (pattern binding query type constraints).shape := by
  obtain ⟨k, hk, hstarts⟩ := starts_pattern binding query type constraints
  have hclauses : [Kind.question, .ident] ⊆ clauses := by decide
  rw [shape]
  refine .of_look rfl (hclauses hk) (fun a ha => ?_)
    (gives_pattern binding query type constraints) (hstarts.node .pattern [])
  rw [ha]
  fin_cases hk <;> rfl

/-- Conditions are readable at the rank that is asked for. -/
theorem readable_shapesOf {needed : Nat} (hneeded : needed ≤ 2) {cs : List Clause}
    (hcs : ∀ c ∈ cs, Readable c.rank c.shape) : ∀ e ∈ shapesOf needed cs, Readable needed e := by
  induction cs with
  | nil => exact nofun
  | cons c cs ih =>
    obtain ⟨hc, hcs⟩ := List.forall_mem_cons.1 hcs
    exact List.forall_mem_cons.2 ⟨hc.shapeFrom hneeded, ih hcs⟩

mutual

/-- Every condition is read as its node. -/
theorem readable_shape : ∀ c : Clause, Readable c.rank c.shape
  | .pattern binding query type constraints => readable_pattern binding query type constraints
  | .chain j first symbol second more => by
    have hj : j.rank + 1 ≤ 2 := by cases j <;> decide
    rw [shape]
    exact ((readable_shape first).shapeFrom hj).chain ((readable_shape second).shapeFrom hj) symbol
      more (readable_linked more)
  | .absent c => by
    rw [shape]
    exact ((readable_shape c).shapeFrom le_rfl).absent
  | .present c => by
    rw [shape]
    exact ((readable_shape c).shapeFrom le_rfl).present
  | .eval t => by
    rw [shape]
    exact .eval t
  | .all items => by
    rw [shape]
    exact .all (readable_shapesOf (Nat.zero_le 2) (readable_operands items))
  | .paren c => by
    rw [shape]
    exact ((readable_shape c).mono (Nat.zero_le _)).paren
  | .group j first more => by
    rw [shape]
    exact .group j (List.forall_mem_cons.2 ⟨(readable_shape first).shapeFrom le_rfl,
      readable_shapesOf le_rfl (readable_operands more)⟩)

theorem readable_operands : ∀ cs : List Clause, ∀ c ∈ cs, Readable c.rank c.shape
  | [] => nofun
  | c :: cs => List.forall_mem_cons.2 ⟨readable_shape c, readable_operands cs⟩

theorem readable_linked :
    ∀ more : List (Bool × Clause), ∀ p ∈ more, Readable p.2.rank p.2.shape
  | [] => nofun
  | (_, c) :: more => List.forall_mem_cons.2 ⟨readable_shape c, readable_linked more⟩

end

/-! ### Rules -/

section

variable {es : List Element}

theorem yields_conditions (hes : ∀ e ∈ es, Readable 0 e) :
    Yields (.call .conditions) (At [.thenKw]) (spaced es) := by
  induction es with
  | nil =>
    refine .call (Yields.skip.look fun a ha => ?_)
    simp [isAt, List.mem_singleton.1 ha.at]
  | cons e es ih =>
    obtain ⟨he, hes⟩ := List.forall_mem_cons.1 hes
    have hmore : Yields (.ifRecovering (recoverTo [.thenKw]) .skip >> .call .conditions)
        (At [.thenKw]) (spaced es) :=
      (Yields.skip.ifRecovering).seq (ih hes) fun a ha => ha
    have hone : Gives (.call .lhsOr >> eat .semicolon) (At (followers 0)) [e] :=
      he.gives.seq_nil (.absent (by decide))
    refine .call ((hone.led.seq hmore fun a ha => Readable.at_followers hes (by decide) ha).look
      fun a ha => ?_)
    obtain ⟨k, hk, hfirst⟩ := he.first_mem (spaced es)
    have hcurrent : a.current = k := ha.current_of_first hfirst.blank
    have hnone : (a.isAt .thenKw || a.isAt .eof || k.isBoundaryKeyword) = false := by
      simp only [isAt, hcurrent]
      fin_cases hk <;> rfl
    simp only [hcurrent, hnone, Readable.isStart_of_mem hk, Bool.false_eq_true, if_true, if_false]
    rfl

theorem gives_whenClause (hes : ∀ e ∈ es, Readable 0 e) :
    Gives (.call .whenClause) (At [.thenKw])
      [spread .whenClause (Kind.whenKw.leaf.element :: es)] := by
  have hcolon : Yields (eat .colon) (At (followers 0)) [] := .absent (by decide)
  exact .call (Gives.spread (l := Kind.whenKw.leaf) rfl (hcolon.seq
    (yields_conditions hes) fun a ha => Readable.at_followers hes (by decide) ha))

theorem gives_thenClause :
    Gives (.call .thenClause) (fun a => At [.endKw] a ∧ Tight a) [thenClause] := by
  have hempty : Yields (eat .actionText) (At [.endKw]) [] := .absent (by decide)
  have hnode : Yields (node .actionBlock (eat .actionText)) (fun a => At [.endKw] a ∧ Tight a)
      [.node .actionBlock []] :=
    (hempty.mono fun _ ha => ha.1).node
  have hblank : Yields .trivia Tight [Leaf.blank.element] :=
    .trivia (List.forall_mem_singleton.2 rfl)
  exact .call (Gives.spread (l := Kind.thenKw.leaf) rfl
    (hblank.seq_of_opens hnode fun _ ha => (ha.nil rfl).2))

theorem first_thenClause : First .thenKw [thenClause] :=
  (Starts.spread (l := Kind.thenKw.leaf) rfl _ _).first

/-- The consequence and the end of a rule. -/
theorem yields_consequence :
    Yields (.seq (whenAt .thenKw .skip (fail (.expectedToken .thenKw) >> recoverTo [.thenKw])) <|
        .seq (whenAt .thenKw (.call .thenClause)) (.call (.blockEnd .rule) >> .lineTrivia)) Done
      [Leaf.blank.element, thenClause, Kind.endKw.leaf.element] := by
  have hend := Starts.leaf (l := Kind.endKw.leaf) rfl []
  have hthen : Gives (whenAt .thenKw (.call .thenClause)) (fun a => At [.endKw] a ∧ Tight a) _ :=
    gives_thenClause.when_at first_thenClause
  refine Yields.there.nil_seq (hthen.led.seq_of_opens (Gives.blockEnd .rule).yields fun a ha => ?_)
    (first_thenClause.blank.append _)
  exact ⟨ha.begins.at_of_first hend.first (List.mem_singleton_self _), ha.tight hend⟩

theorem first_whenClause (es : List Element) :
    First .whenKw [spread .whenClause (Kind.whenKw.leaf.element :: es)] :=
  (Starts.spread (l := Kind.whenKw.leaf) rfl _ _).first

/-- The conditions of a rule and what comes after them. -/
theorem gives_clauses (hes : ∀ e ∈ es, Readable 0 e) :
    Gives (.seq (whenAt .whenKw .skip
          (fail (.expectedToken .whenKw) >> recoverTo [.whenKw, .thenKw])) <|
        .seq (whenAt .whenKw (.call .whenClause)) <|
        .seq (whenAt .thenKw .skip (fail (.expectedToken .thenKw) >> recoverTo [.thenKw])) <|
        .seq (whenAt .thenKw (.call .thenClause)) (.call (.blockEnd .rule) >> .lineTrivia)) Done
      [spread .whenClause (Kind.whenKw.leaf.element :: es), Leaf.blank.element, thenClause,
        Kind.endKw.leaf.element] := by
  have hwhen : Gives (whenAt .whenKw (.call .whenClause)) (At [.thenKw]) _ :=
    (gives_whenClause hes).when_at (first_whenClause es)
  have hparts := hwhen.seq yields_consequence fun a ha =>
    ha.at_of_first (first_thenClause.blank.append _) (List.mem_singleton_self _)
  exact .nil_seq .there hparts fun a ha =>
    ha.at_of_first ((first_whenClause es).append _) (List.mem_singleton_self _)

/-- The conditions of a rule whose header has no more than a name. -/
theorem yields_whenPart (hes : ∀ e ∈ es, Readable 0 e) :
    Yields (.seq (whenAt .extendsKw (.call .parent)) <| .seq (.call .annotations) <|
        .seq (when (fun a => a.current.isAttributeKeyword || a.isAt .ident)
          (.call .attributeList)) <|
        .seq (whenAt .whenKw .skip
          (fail (.expectedToken .whenKw) >> recoverTo [.whenKw, .thenKw])) <|
        .seq (whenAt .whenKw (.call .whenClause)) <|
        .seq (whenAt .thenKw .skip (fail (.expectedToken .thenKw) >> recoverTo [.thenKw])) <|
        .seq (whenAt .thenKw (.call .thenClause)) (.call (.blockEnd .rule) >> .lineTrivia)) Done
      [Leaf.blank.element, spread .whenClause (Kind.whenKw.leaf.element :: es),
        Leaf.blank.element, thenClause, Kind.endKw.leaf.element] := by
  have hfirst := (first_whenClause es).blank.append
    [Leaf.blank.element, thenClause, Kind.endKw.leaf.element]
  have hattributes : Yields (when (fun a => a.current.isAttributeKeyword || a.isAt .ident)
      (.call .attributeList)) (At [.whenKw]) [] :=
    Yields.skip.not_when fun a ha => by simp [isAt, List.mem_singleton.1 ha.at]; rfl
  exact .nil_seq (.absent (by decide)) (.nil_seq (.call (.absent (by decide)))
    (.nil_seq hattributes (gives_clauses hes).led hfirst) hfirst) hfirst

theorem gives_ruleName :
    Gives (.call (.declName .ruleName)) (fun _ => True) [.node .ruleName [ruleName.element]] := by
  have hname : Gives (inner .ruleName bump) (fun _ => True) [.node .ruleName [ruleName.element]] :=
    .inner (Gives.bump ruleName rfl).yields (.leaf rfl [])
  refine .call (hname.when fun a ha => ?_)
  have hcurrent : a.current = .ident :=
    ha.current_of_first ((Starts.leaf (l := ruleName) rfl []).node _ []).first
  simp [isAt, atName, hcurrent, Kind.isName]

theorem yields_ruleDecl (cs : List Clause) : Yields (.call .ruleDecl) Done [ruleDecl cs] := by
  have hes : ∀ e ∈ cs.map shape, Readable 0 e := by
    intro e he
    obtain ⟨c, -, rfl⟩ := List.mem_map.1 he
    exact (readable_shape c).mono (Nat.zero_le _)
  exact .call (.node (Gives.bump_seq Kind.ruleKw.leaf rfl
    (gives_ruleName.led.seq (yields_whenPart hes) fun _ _ => trivial)).yields)

/-- A text with a rule is read as its tree. -/
theorem yields_tree (cs : List Clause) : Yields (.call .compilationUnit) Done [tree cs] :=
  .file rfl (fun a ha => by rw [ha]; rfl) (yields_ruleDecl cs)
    ((Starts.leaf (l := Kind.ruleKw.leaf) rfl _).node .ruleDecl []).first

end

end Clause

end RuleLang
