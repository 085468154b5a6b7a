import RuleLang.Fragment
import RuleLang.Grammar.Rules
import RuleLang.Proofs.Element.Graded
import RuleLang.Proofs.Element.Prefixed
import RuleLang.Proofs.Grammar.Clean

/-!
# Which nodes are made of what

The nodes of a tree are made by the instructions of the grammar. Most productions make nodes of what
they read themselves; some make a node of all that the group holds already, and so put what was read
before under an operator.

## Main definitions

* `Point.parts` — the elements of a group that are not trivia, in order.
* `Point.Adds` — some elements come to a group, and those before stay.
* `Grammar.Makes` — the kinds of nodes that an instruction makes, and the productions it enters.
* `Production.mayMake`, `Production.mayEnter` — such kinds and productions for each production.

## Main statements

* `Grammar.Makes.adds` — an instruction that makes nodes of what it reads itself adds elements with
  a property that goes up to nodes of these kinds.
* `Grammar.makes_body` — what the productions make that put nothing under an operator.
-/

namespace RuleLang

/-- A property of elements goes up to nodes of some kinds. -/
structure GoesUp (Q : Element → Prop) (kinds : Kind → Prop) : Prop where
  token : ∀ k t, Q (.token k t)
  node : ∀ k cs, kinds k → (∀ e ∈ (Element.node k cs).parts, Q e) → Q (.node k cs)

namespace Point

/-- The elements of the group that are not trivia, in order. -/
def parts (x : Point) : List Element :=
  (x.group.filter fun e => !e.isTrivia).reverse

/-- Elements with a property come to the group. -/
def Adds (Q : Element → Prop) (x y : Point) : Prop :=
  ∃ new, y.parts = x.parts ++ new ∧ ∀ e ∈ new, Q e

variable {Q : Element → Prop} {x y z : Point}

@[simp] theorem parts_nil (a : Ahead) : parts ⟨a, []⟩ = [] := rfl

theorem parts_append (a b : Ahead) (xs ys : List Element) :
    parts ⟨a, ys ++ xs⟩ = parts ⟨b, xs⟩ ++ parts ⟨b, ys⟩ := by
  simp [parts]

/-- The parts of a node made of a group. -/
theorem parts_enclose (k : Kind) (x : Point) :
    (Element.node k x.group.reverse).parts = x.parts := by
  simp [parts, Element.parts, Element.children, List.filter_reverse]

theorem Adds.refl (x : Point) : Adds Q x x :=
  ⟨[], by simp, nofun⟩

theorem Adds.trans (h : Adds Q x y) (k : Adds Q y z) : Adds Q x z := by
  obtain ⟨xs, hx, hxs⟩ := h
  obtain ⟨ys, hy, hys⟩ := k
  refine ⟨xs ++ ys, by rw [hy, hx, List.append_assoc], fun e he => ?_⟩
  exact (List.mem_append.1 he).elim (hxs e) (hys e)

/-- What comes to an empty group has the property. -/
theorem Adds.forall_parts {a : Ahead} (h : Adds Q ⟨a, []⟩ y) : ∀ e ∈ y.parts, Q e := by
  obtain ⟨new, hy, hnew⟩ := h
  simpa [hy] using hnew

theorem Adds.one {e : Element} (hy : y.parts = x.parts ++ [e]) (he : Q e) : Adds Q x y :=
  ⟨[e], hy, by simpa using he⟩

/-- An element that comes to a group alone has the property of all that comes. -/
theorem Adds.of_one {e : Element} (h : Adds Q x y) (hy : y.parts = x.parts ++ [e]) : Q e := by
  obtain ⟨new, hnew, hQ⟩ := h
  rw [hy] at hnew
  exact hQ e (by rw [← List.append_cancel_left hnew]; simp)

theorem Adds.mono {R : Element → Prop} (h : Adds Q x y) (hQR : ∀ e, Q e → R e) : Adds R x y := by
  obtain ⟨new, hy, hnew⟩ := h
  exact ⟨new, hy, fun e he => hQR e (hnew e he)⟩

/-- The tokens that are moved to the group. -/
theorem Takes.parts_eq {n : Nat} (h : x.Takes n y) :
    y.parts = x.parts ++
      ((x.ahead.take n).filter fun t => !t.isTrivia).map Element.ofToken := by
  obtain ⟨ts, rfl, ha, hg⟩ := h
  rw [ha, List.take_left, parts, parts, hg]
  simp [List.filter_map, List.filter_reverse, Function.comp_def, Element.ofToken,
    Element.isTrivia, Token.isTrivia]

end Point

namespace Grammar

open Point

variable {P : Type} {enters : P → Point → Point → Prop} {Q : Element → Prop} {x y : Point}

/-! ## Single instructions -/

theorem accepts_trivia (h : (trivia : Grammar P).Accepts enters x y) :
    y.ahead = x.ahead.afterTrivia ∧ y.parts = x.parts := by
  obtain ⟨ts, hlength, ha, hg⟩ := h
  have hsplit : x.ahead = x.ahead.takeWhile Token.isTrivia ++ x.ahead.afterTrivia :=
    List.takeWhile_append_dropWhile.symm
  obtain ⟨rfl, hrest⟩ := List.append_inj (ha.symm.trans hsplit) hlength
  refine ⟨hrest, ?_⟩
  have hnone : (x.ahead.takeWhile Token.isTrivia).filter (fun t => !t.isTrivia) = [] := by
    rw [List.filter_eq_nil_iff]
    intro t ht
    simp [List.mem_takeWhile_imp ht]
  rw [Takes.parts_eq ⟨_, hlength, ha, hg⟩, Ahead.triviaLength,
    ← List.prefix_iff_eq_take.1 (List.takeWhile_prefix _), hnone, List.map_nil, List.append_nil]

theorem ahead_of_take {n : Nat} (h : (take n : Grammar P).Accepts enters x y) :
    y.ahead = x.ahead.after n := by
  have hbumps := Reading.takes_bumps n ⟨x.ahead, x.group, [], false, none, 0⟩
  rw [← Takes.unique hbumps h]
  exact Reading.ahead_bumps n _

/-- A significant token is taken with its trivia. -/
theorem accepts_bump (h : (bump : Grammar P).Accepts enters x y) (hne : x.ahead.current ≠ .eof) :
    ∃ t, y.parts = x.parts ++ [.token x.ahead.current t] := by
  suffices hbump : ∀ a : Ahead, a.current ≠ .eof →
      ∃ t, ((a.take (a.bumpLength 1)).filter fun t => !t.isTrivia).map Element.ofToken =
        [.token a.current t] by
    obtain ⟨t, ht⟩ := hbump x.ahead hne
    exact ⟨t, by rw [Takes.parts_eq h, ht]⟩
  intro a ha
  induction a with
  | nil => exact absurd rfl ha
  | cons t ts ih =>
    by_cases ht : t.isTrivia = true
    · have hcurrent : Ahead.current (t :: ts) = Ahead.current ts := by
        simp [Ahead.current, Ahead.nth, Ahead.nthToken?, ht]
      rw [hcurrent] at ha ⊢
      obtain ⟨text, hmap⟩ := ih ha
      exact ⟨text, by simpa [Ahead.bumpLength, ht] using hmap⟩
    · have hcurrent : Ahead.current (t :: ts) = t.kind := by
        simp [Ahead.current, Ahead.nth, Ahead.nthToken?, ht]
      rw [hcurrent] at ha ⊢
      have hzero : Ahead.bumpLength 0 ts = 0 := by cases ts <;> rfl
      exact ⟨t.text, by simp [Ahead.bumpLength, ht, ha, hzero, Element.ofToken]⟩

theorem adds_of_takes {n : Nat} (hQ : ∀ k t, Q (.token k t)) (h : x.Takes n y) : Adds Q x y := by
  refine ⟨_, h.parts_eq, fun e he => ?_⟩
  obtain ⟨t, -, rfl⟩ := List.mem_map.1 he
  exact hQ t.kind t.text

/-- A node of what the body reads comes to the group. -/
theorem accepts_node {k : Kind} {body : Grammar P} (h : (node k body).Accepts enters x y) :
    ∃ z, body.Accepts enters ⟨x.ahead, []⟩ z ∧ y.ahead = z.ahead ∧
      y.parts = x.parts ++ [.node k z.group.reverse] := by
  obtain ⟨w, ⟨z, hz, rfl⟩, rfl⟩ := h
  exact ⟨z, hz, rfl, parts_append z.ahead x.ahead x.group [_]⟩

theorem accepts_inner {k : Kind} {body : Grammar P} (h : (inner k body).Accepts enters x y) :
    ∃ z, body.Accepts enters ⟨x.ahead.afterTrivia, []⟩ z ∧ y.ahead = z.ahead ∧
      y.parts = x.parts ++ [.node k z.group.reverse] := by
  obtain ⟨w, htrivia, hnode⟩ := h
  obtain ⟨hahead, hparts⟩ := accepts_trivia htrivia
  obtain ⟨z, hz, hy, hyparts⟩ := accepts_node hnode
  exact ⟨z, hahead ▸ hz, hy, hparts ▸ hyparts⟩

theorem accepts_group {body : Grammar P} (h : (group body).Accepts enters x y) :
    ∃ z, body.Accepts enters ⟨x.ahead, []⟩ z ∧ y.ahead = z.ahead ∧
      y.parts = x.parts ++ z.parts := by
  obtain ⟨z, hz, rfl⟩ := h
  exact ⟨z, hz, rfl, parts_append z.ahead x.ahead x.group z.group⟩

theorem accepts_innerGroup {body : Grammar P} (h : (innerGroup body).Accepts enters x y) :
    ∃ z, body.Accepts enters ⟨x.ahead.afterTrivia, []⟩ z ∧ y.ahead = z.ahead ∧
      y.parts = x.parts ++ z.parts := by
  obtain ⟨w, htrivia, hgroup⟩ := h
  obtain ⟨hahead, hparts⟩ := accepts_trivia htrivia
  obtain ⟨z, hz, hy, hyparts⟩ := accepts_group hgroup
  exact ⟨z, hahead ▸ hz, hy, hparts ▸ hyparts⟩

/-- A node of all that the group holds takes the place of the group. -/
theorem accepts_enclose {k : Kind} {body : Grammar P} (h : (enclose k body).Accepts enters x y) :
    ∃ z, body.Accepts enters x z ∧ y.ahead = z.ahead ∧ y.parts = [.node k z.group.reverse] := by
  obtain ⟨z, hz, rfl⟩ := h
  exact ⟨z, hz, rfl, rfl⟩

theorem accepts_when {test : Ahead → Bool} {body otherwise : Grammar P}
    (h : (when test body otherwise).Accepts enters x y) :
    (test x.ahead = true ∧ body.Accepts enters x y) ∨
      (test x.ahead = false ∧ otherwise.Accepts enters x y) := by
  simp only [when, Accepts] at h
  cases htest : test x.ahead with
  | true => exact .inl ⟨rfl, by simpa [htest] using h⟩
  | false => exact .inr ⟨rfl, by simpa [htest] using h⟩

theorem not_accepts_fail {c : Kind → Complaint} (hc : ∀ k, (c k).isWarning = false)
    (h : (fail c : Grammar P).Accepts enters x y) : False := by
  have : (c x.ahead.current).isWarning = true := h.1
  rw [hc] at this
  cases this

/-- What must come next comes next. -/
theorem accepts_expect {k : Kind} {body : Grammar P} (h : (expect k body).Accepts enters x y) :
    x.ahead.current = k ∧ (bump >> body).Accepts enters x y := by
  rcases accepts_when h with ⟨htest, h⟩ | ⟨-, h⟩
  · exact ⟨by simpa [Ahead.isAt] using htest, h⟩
  · exact (not_accepts_fail (fun _ => rfl) h).elim

/-! ## The nodes that an instruction makes -/

/-- The nodes that an instruction makes are of `kinds`, and it enters productions of `calls`. Only
if `wraps` holds it makes nodes of what it did not read itself. -/
inductive Makes (kinds : Kind → Prop) (calls : P → Prop) (wraps : Prop) : Grammar P → Prop
  | skip : Makes kinds calls wraps .skip
  | trivia : Makes kinds calls wraps .trivia
  | lineTrivia : Makes kinds calls wraps .lineTrivia
  | take (n : Nat) : Makes kinds calls wraps (.take n)
  | recovered : Makes kinds calls wraps .recovered
  | complain (c : Complaint) : Makes kinds calls wraps (.complain c)
  | call {p : P} (h : calls p) : Makes kinds calls wraps (.call p)
  | seq {f g : Grammar P} (hf : Makes kinds calls wraps f) (hg : Makes kinds calls wraps g) :
    Makes kinds calls wraps (.seq f g)
  | look {choose : Ahead → Grammar P} (h : ∀ a, Makes kinds calls wraps (choose a)) :
    Makes kinds calls wraps (.look choose)
  | ifRecovering {f g : Grammar P} (hf : Makes kinds calls wraps f)
    (hg : Makes kinds calls wraps g) : Makes kinds calls wraps (.ifRecovering f g)
  | group {g : Grammar P} (h : Makes kinds calls wraps g) : Makes kinds calls wraps (.group g)
  | node {k : Kind} {g : Grammar P} (hk : kinds k) (h : Makes kinds calls wraps g) :
    Makes kinds calls wraps (.group (.enclose k g))
  | enclose {k : Kind} {g : Grammar P} (hw : wraps) (hk : kinds k)
    (h : Makes kinds calls wraps g) : Makes kinds calls wraps (.enclose k g)

namespace Makes

variable {kinds : Kind → Prop} {calls : P → Prop} {wraps : Prop} {f g otherwise : Grammar P}

/-- What an instruction adds has a property that goes up to all the nodes it makes, if it makes them
of what it reads itself. -/
theorem adds (hQ : GoesUp Q kinds) (hw : ¬wraps)
    (hcalls : ∀ p x y, calls p → enters p x y → Adds Q x y) (hg : Makes kinds calls wraps g)
    (h : g.Accepts enters x y) : Adds Q x y := by
  induction hg generalizing x y with
  | skip | recovered =>
    obtain rfl : y = x := h
    exact .refl _
  | trivia | lineTrivia | take => exact adds_of_takes hQ.token h
  | complain =>
    obtain ⟨-, rfl⟩ := h
    exact .refl _
  | call hp => exact hcalls _ x y hp h
  | seq _ _ ihf ihg =>
    obtain ⟨z, hf, hg⟩ := h
    exact (ihf hf).trans (ihg hg)
  | look _ ih => exact ih _ h
  | ifRecovering _ _ _ ih => exact ih h
  | group _ ih =>
    obtain ⟨z, hz, -, hy⟩ := accepts_group h
    exact ⟨z.parts, hy, (ih hz).forall_parts⟩
  | @node k _ hk _ ih =>
    obtain ⟨z, hz, -, hy⟩ := accepts_node h
    refine ⟨_, hy, ?_⟩
    rw [List.forall_mem_singleton]
    exact hQ.node k _ hk (by simpa only [parts_enclose] using (ih hz).forall_parts)
  | enclose hwraps => exact absurd hwraps hw

/-! ## Derived instructions -/

theorem ite {c : Prop} [Decidable c] (hf : Makes kinds calls wraps f)
    (hg : Makes kinds calls wraps g) : Makes kinds calls wraps (if c then f else g) := by
  split
  · exact hf
  · exact hg

theorem inner {k : Kind} (hk : kinds k) (h : Makes kinds calls wraps g) :
    Makes kinds calls wraps (.inner k g) :=
  .seq .trivia (.node hk h)

theorem innerGroup (h : Makes kinds calls wraps g) : Makes kinds calls wraps (.innerGroup g) :=
  .seq .trivia (.group h)

theorem bump : Makes kinds calls wraps (.bump : Grammar P) := .take 1

theorem when {test : Ahead → Bool} (hg : Makes kinds calls wraps g)
    (ho : Makes kinds calls wraps otherwise) : Makes kinds calls wraps (.when test g otherwise) :=
  .look fun _ => .ite hg ho

theorem eat {k : Kind} (hg : Makes kinds calls wraps g) (ho : Makes kinds calls wraps otherwise) :
    Makes kinds calls wraps (.eat k g otherwise) :=
  .when (.seq .bump hg) ho

theorem eat_skip {k : Kind} : Makes kinds calls wraps (.eat k : Grammar P) :=
  .eat .skip .skip

theorem fail {c : Kind → Complaint} : Makes kinds calls wraps (.fail c : Grammar P) :=
  .look fun _ => .complain _

theorem expect {k : Kind} (hg : Makes kinds calls wraps g) :
    Makes kinds calls wraps (.expect k g) :=
  .eat hg .fail

theorem expect_skip {k : Kind} : Makes kinds calls wraps (.expect k : Grammar P) :=
  .expect .skip

theorem expectName {role : Role} : Makes kinds calls wraps (.expectName role : Grammar P) :=
  .when .bump .fail

theorem look_take {count : Ahead → Nat} :
    Makes kinds calls wraps (.look fun a => .take (count a) : Grammar P) :=
  .look fun _ => .take _

theorem balanced : Makes kinds calls wraps (.balanced : Grammar P) :=
  .look fun _ => .seq (.take _) (.ite .skip (.complain _))

theorem wrapError {n : Nat} (hk : kinds .error) :
    Makes kinds calls wraps (.wrapError n : Grammar P) :=
  .ite .skip (.inner hk (.take n))

theorem recoverTo {stops : List Kind} (hk : kinds .error) :
    Makes kinds calls wraps (.recoverTo stops : Grammar P) :=
  .seq (.look fun _ => .wrapError hk) (.when .recovered .skip)

theorem recoverInParens (hk : kinds .error) :
    Makes kinds calls wraps (.recoverInParens : Grammar P) := by
  refine .ifRecovering (.look fun a => ?_) .skip
  split
  · exact .seq (.wrapError hk) .recovered
  · exact .skip

end Makes

end Grammar

/-! ## Productions -/

/-- Nodes that can be read on their own. -/
def Kind.isFragment : Kind → Bool
  | .pattern | .constraint | .attribute | .ruleDecl => true
  | _ => false

/-- The production that alone makes nodes of the kind: of functions, clauses and attributes. -/
def Kind.maker? : Kind → Option Production
  | .functionDecl => some .functionDecl
  | .whenClause => some .whenClause
  | .thenClause => some .thenClause
  | .attribute => some .attribute
  | _ => none

namespace Production

/-- The production reads a fragment. -/
def isFragment : Production → Bool
  | .pattern | .constraint | .attribute | .ruleDecl => true
  | _ => false

/-- What the production may start with; the callers see to it that such a token comes next. -/
def key (p : Production) (k : Kind) : Bool :=
  match p with
  | .pattern => k == .ident || k == .question
  | .attribute => k.isAttributeKeyword || k == .ident
  | .ruleDecl => k == .ruleKw
  | _ => true

/-- The production is entered only where a token with which it starts comes next. -/
def isKeyed : Production → Bool
  | .pattern | .attribute | .ruleDecl => true
  | _ => false

/-- The production sees the token that comes next before it enters others. -/
def seesKey : Production → Bool
  | .lhsUnary | .attributes | .declarations => true
  | _ => false

/-- The production makes nodes with levels, or puts what was read before under an operator. -/
def isLevelled : Production → Bool
  | .lhsOr | .lhsAnd | .lhsParen | .ternary | .binary _ _ | .binaryRest _ | .relational _
  | .relationalRest | .unary | .postfixed | .suffixes | .primary => true
  | _ => false

/-- The production reads what stands inside of expressions: operands, names and types. -/
def isExpression : Production → Bool
  | .qualifiedName | .nameParts | .typeRef | .dimensions | .expr | .ternary | .binary _ _
  | .binaryRest _ | .relational _ | .relationalRest | .operator | .relationalRhs _ | .unary
  | .postfixed | .suffixes | .primary | .creation | .creationDims | .arrayInit | .arrayItems
  | .argList | .arguments => true
  | _ => false

/-- The production reads what stands in the head of a function. -/
def isSignature : Production → Bool
  | .functionDecl | .parameterList | .parameters | .parameter | .typeRef | .qualifiedName
  | .nameParts | .dimensions => true
  | _ => false

/-- What the production adds needs nothing that was read before: no left operand, and no operator
that admits half a comparison. -/
def isSelfContained : Production → Bool
  | .binary _ half | .relational half => !half
  | .binaryRest _ | .relationalRest | .suffixes => false
  | _ => true

/-- The production enters some that read attributes. -/
def holdsAttributes : Production → Bool
  | .compilationUnit | .declarations | .ruleDecl | .attributeList | .attributes => true
  | _ => false

/-- The production reads attributes. -/
def readsAttributes : Production → Bool
  | .attribute => true
  | p => p.holdsAttributes

/-- The kinds of nodes that the production may make itself. There are no consequences and no
functions in expressions, and comparisons without left operand nowhere else. Functions,
clauses and attributes are made by productions of their own. -/
def mayMake (p : Production) (k : Kind) : Bool :=
  (if p.isExpression then !k.hidesOperators else k != .halfConstraint) && k.maker?.all (· == p)

/-- Only its own production makes a node of a kind that has one. -/
theorem eq_of_maker {p q : Production} {k : Kind} (hk : k.maker? = some q)
    (h : p.mayMake k = true) : q = p := by
  have h := (Bool.and_eq_true_iff.1 h).2
  rw [hk] at h
  exact beq_iff_eq.1 h

/-- The productions that the production may enter. Expressions are made of expressions, anything
else needs nothing that was read before, and functions have nothing but a head. Only what leads to
the attributes of a rule enters what reads attributes. -/
def mayEnter (p q : Production) : Bool :=
  (if p.isExpression then q.isExpression else q.isSelfContained) &&
    (!p.isSignature || q.isSignature) && (p.holdsAttributes || !q.readsAttributes)

end Production

namespace Grammar

open Declarations Conditions Expressions

variable {kinds : Kind → Prop} {calls : Production → Prop} {wraps : Prop}

/-- What the productions make that read no fragments and no expressions with levels. -/
theorem makes_body :
    (p : Production) →
      (∀ k, k.isGraded = false → (!k.isFragment && p.mayMake k) = true → kinds k) →
      (∀ q, (q.isSelfContained && (!q.isKeyed || p.seesKey) && p.mayEnter q) = true → calls q) →
      p.isFragment = false → p.isLevelled = false → Makes kinds calls wraps p.body
  | .compilationUnit, hk, hc, _, _ => .node (hk _ rfl rfl) (.seq (.call (hc _ rfl)) .trivia)
  | .declarations, _, hc, _, _ => by
    refine .seq .recovered (.look fun a => ?_)
    split
    · exact .skip
    all_goals exact .seq (.call (hc _ rfl)) (.call (hc _ rfl))
  | .packageDecl, hk, hc, _, _ =>
    .node (hk _ rfl rfl) (.seq .bump (.seq (.call (hc _ rfl)) (.seq .eat_skip .lineTrivia)))
  | .importDecl, hk, hc, _, _ =>
    .node (hk _ rfl rfl) (.seq .bump (.seq (.eat .skip .eat_skip) (.seq (.call (hc _ rfl))
      (.seq (.when (.take 2) .skip) (.seq .eat_skip .lineTrivia)))))
  | .globalDecl, hk, hc, _, _ =>
    .node (hk _ rfl rfl) (.seq .bump (.seq (.call (hc _ rfl)) (.seq .expectName
      (.seq .eat_skip .lineTrivia))))
  | .functionDecl, hk, hc, _, _ =>
    .node (hk _ rfl rfl) (.seq .bump (.seq (.call (hc _ rfl)) (.seq .expectName
      (.seq (.when (.call (hc _ rfl)) (.complain _))
        (.seq (.when (.inner (hk _ rfl rfl) .balanced)
          (.seq (.complain _) (.recoverTo (hk _ rfl rfl)))) .lineTrivia)))))
  | .queryDecl, hk, hc, _, _ =>
    .node (hk _ rfl rfl) (.seq .bump (.seq (.call (hc _ rfl)) (.seq (.when (.call (hc _ rfl)) .skip)
      (.seq (.call (hc _ rfl)) (.seq (.call (hc _ rfl)) .lineTrivia)))))
  | .declareDecl, hk, hc, _, _ =>
    .node (hk _ rfl rfl) (.seq .bump (.seq .eat_skip (.seq (.call (hc _ rfl))
      (.seq (.eat (.seq (.call (hc _ rfl)) (.call (hc _ rfl))) .skip) (.seq (.call (hc _ rfl))
        (.seq (.call (hc _ rfl)) (.seq (.call (hc _ rfl)) .lineTrivia)))))))
  | .strayTokens, hk, hc, _, _ =>
    .node (hk _ rfl rfl) (.seq .fail (.seq .bump (.seq .look_take .lineTrivia)))
  | .supertypes, _, hc, _, _ => .eat (.seq (.call (hc _ rfl)) (.call (hc _ rfl))) .skip
  | .annotations, _, hc, _, _ => .when (.seq (.call (hc _ rfl)) (.call (hc _ rfl))) .skip
  | .annotated, hk, hc, _, _ =>
    .inner (hk _ rfl rfl) (.seq .bump (.seq (.call (hc _ rfl)) (.when .balanced .skip)))
  | .fields, hk, hc, _, _ =>
    .look fun _ => .ite .skip (.ite (.seq (.call (hc _ rfl)) (.call (hc _ rfl)))
      (.seq .fail (.seq (.recoverTo (hk _ rfl rfl)) (.call (hc _ rfl)))))
  | .field, hk, hc, _, _ =>
    .inner (hk _ rfl rfl) (.seq (.take 2) (.seq (.call (hc _ rfl))
      (.seq (.eat (.call (hc _ rfl)) .skip) (.call (hc _ rfl)))))
  | .declName _, hk, hc, _, _ => .when (.inner (hk _ rfl rfl) .bump) .fail
  | .parent, hk, hc, _, _ => .inner (hk _ rfl rfl) (.seq .bump (.when .bump (.complain _)))
  | .attributeList, hk, hc, _, _ => .inner (hk _ rfl rfl) (.call (hc _ rfl))
  | .attributes, _, hc, _, _ =>
    .look fun _ => .ite (.seq .bump (.seq .eat_skip (.call (hc _ rfl))))
      (.ite (.seq .bump (.call (hc _ rfl)))
        (.ite (.seq (.call (hc _ rfl)) (.call (hc _ rfl))) .skip))
  | .stringList, _, hc, _, _ => .when (.seq (.take 2) (.call (hc _ rfl))) .skip
  | .whenClause, hk, hc, _, _ =>
    .inner (hk _ rfl rfl) (.seq .bump (.seq .eat_skip (.call (hc _ rfl))))
  | .thenClause, hk, hc, _, _ =>
    .inner (hk _ rfl rfl) (.seq .bump (.inner (hk _ rfl rfl) .eat_skip))
  | .blockEnd _, _, hc, _, _ => .eat .skip (.when (.complain _) .fail)
  | .parameterList, hk, hc, _, _ =>
    .inner (hk _ rfl rfl) (.seq .bump (.seq (.when .skip (.call (hc _ rfl))) .expect_skip))
  | .parameters, _, hc, _, _ => .seq (.call (hc _ rfl)) (.eat (.call (hc _ rfl)) .skip)
  | .parameter, hk, hc, _, _ => .inner (hk _ rfl rfl) (.seq (.call (hc _ rfl)) (.when .bump .skip))
  | .qualifiedName, hk, hc, _, _ =>
    .when (.inner (hk _ rfl rfl) (.seq .bump (.call (hc _ rfl)))) .fail
  | .nameParts, _, hc, _, _ => .when (.seq (.take 2) (.call (hc _ rfl))) .skip
  | .typeRef, hk, hc, _, _ =>
    .when (.inner (hk _ rfl rfl) (.seq (.call (hc _ rfl)) (.seq (.when .look_take .skip)
      (.call (hc _ rfl))))) .fail
  | .dimensions, _, hc, _, _ => .when (.seq (.take 2) (.call (hc _ rfl))) .skip
  | .conditions, hk, hc, _, _ =>
    .look fun _ => .ite .skip (.seq (.ite (.seq (.call (hc _ rfl)) .eat_skip) .fail)
      (.seq (.ifRecovering (.recoverTo (hk _ rfl rfl)) .skip) (.call (hc _ rfl))))
  | .lhsOrRest, _, hc, _, _ =>
    .when (.seq .bump (.seq (.call (hc _ rfl)) (.call (hc _ rfl)))) .skip
  | .lhsAndRest, _, hc, _, _ =>
    .when (.seq .bump (.seq (.call (hc _ rfl)) (.call (hc _ rfl)))) .skip
  | .lhsUnary, hk, hc, _, _ => by
    refine .look fun a => ?_
    split
    · exact .inner (hk _ rfl rfl) (.seq .bump (.call (hc _ rfl)))
    · exact .inner (hk _ rfl rfl) (.seq .bump (.call (hc _ rfl)))
    · exact .inner (hk _ rfl rfl) (.seq .bump (.expect (.seq (.call (hc _ rfl)) .expect_skip)))
    · exact .inner (hk _ rfl rfl) (.seq .bump (.expect (.seq (.call (hc _ rfl)) .expect_skip)))
    · exact .call (hc _ rfl)
    · exact .call (hc _ rfl)
    · exact .call (hc _ rfl)
    · exact .call (hc _ rfl)
    · exact .complain _
  | .forallItems, _, hc, _, _ =>
    .when (.seq (.call (hc _ rfl)) (.ifRecovering .skip (.call (hc _ rfl)))) .skip
  | .prefixOperands, _, hc, _, _ =>
    .when (.seq (.call (hc _ rfl)) (.ifRecovering .skip (.call (hc _ rfl)))) .skip
  | .constraints, _, hc, _, _ => .seq (.call (hc _ rfl)) (.eat (.call (hc _ rfl)) .skip)
  | .binding, hk, hc, _, _ => .inner (hk _ rfl rfl) (.take 2)
  | .window, hk, hc, _, _ =>
    .inner (hk _ rfl rfl) (.seq .bump (.expect (.expect (.seq .expectName
      (.when (.inner (hk _ rfl rfl) .balanced) .skip)))))
  | .source, hk, hc, _, _ => by
    refine .inner (hk _ rfl rfl) (.seq .bump (.look fun a => ?_))
    split
    · exact .call (hc _ rfl)
    · exact .inner (hk _ rfl rfl) (.seq .bump (.expect (.seq (.call (hc _ rfl)) .expect_skip)))
    · exact .inner (hk _ rfl rfl) (.seq .bump (.eat .skip (.call (hc _ rfl))))
    · exact .call (hc _ rfl)
  | .accumulate, hk, hc, _, _ =>
    .inner (hk _ rfl rfl) (.seq .bump (.expect (.seq (.call (hc _ rfl))
      (.seq (.eat .look_take (.eat .look_take .skip)) .expect_skip))))
  | .expr, _, hc, _, _ => .call (hc _ rfl)
  | .operator, hk, hc, _, _ =>
    .look fun _ => .inner (hk _ rfl rfl) (.seq .eat_skip (.seq (.eat .expect_skip .bump)
      (.ite (.when (.inner (hk _ rfl rfl) (.seq .bump (.seq .look_take .expect_skip))) .skip)
        .skip)))
  | .relationalRhs _, _, hc, _, _ =>
    .ite (.call (hc _ rfl)) (.when (.call (hc _ rfl)) (.call (hc _ rfl)))
  | .creation, hk, hc, _, _ => by
    refine .inner (hk _ rfl rfl) (.seq .bump (.seq (.call (hc _ rfl)) (.look fun a => ?_)))
    split
    · exact .call (hc _ rfl)
    · exact .seq (.call (hc _ rfl)) (.when .balanced .skip)
    · exact .complain _
  | .creationDims, _, hc, _, _ => .when (.seq .balanced (.call (hc _ rfl))) .skip
  | .arrayInit, hk, hc, _, _ =>
    .inner (hk _ rfl rfl) (.seq .bump (.seq (.when .skip (.call (hc _ rfl))) .expect_skip))
  | .arrayItems, _, hc, _, _ =>
    .seq (.call (hc _ rfl)) (.seq (.eat (.call (hc _ rfl)) .skip)
      (.eat (.call (hc _ rfl)) .skip))
  | .argList, hk, hc, _, _ =>
    .inner (hk _ rfl rfl) (.seq .bump (.seq (.when .skip (.call (hc _ rfl)))
      (.seq (.recoverInParens (hk _ rfl rfl)) .expect_skip)))
  | .arguments, hk, hc, _, _ => .seq (.call (hc _ rfl)) (.eat (.call (hc _ rfl)) .skip)

/-- A fragment is one node, of the kind expected, of what its production reads. -/
theorem makes_fragment
    (hk : ∀ k : Kind, k.isGraded = false → (!k.isFragment && k.maker?.isNone) = true → kinds k) :
    (p : Production) →
      (∀ q : Production, (q.isSelfContained && !q.isKeyed && p.mayEnter q) = true → calls q) →
      p.isFragment = true →
      ∃ (f : FragmentKind) (k : Kind) (g : Rule), f.production = p ∧ f.expected? = some k ∧
        (p.body = .inner k g ∨ p.body = .node k g) ∧ k.isGraded = false ∧
          Makes kinds calls wraps g
  | .pattern, hc, _ => ⟨.pattern, .pattern, _, rfl, rfl, .inl rfl, rfl,
    .seq (.when (.call (hc _ rfl)) .skip) (.seq .eat_skip (.seq (.call (hc _ rfl))
      (.seq (.expect (.seq (.when .skip (.call (hc _ rfl))) (.recoverInParens (hk _ rfl rfl))))
        (.seq .expect_skip (.seq (.when (.call (hc _ rfl)) .skip)
          (.when (.call (hc _ rfl)) .skip))))))⟩
  | .constraint, hc, _ => ⟨.constraint, .constraint, _, rfl, rfl, .inl rfl, rfl,
    .seq (.when (.call (hc _ rfl)) .skip) (.call (hc _ rfl))⟩
  | .attribute, hc, _ => by
    refine ⟨.attribute, .attribute, _, rfl, rfl, .inl rfl, rfl,
      .seq (.look fun a => ?_) (.seq .bump (.look fun a => ?_))⟩
    · split
      · exact .ite (.complain _) .skip
      · exact .skip
    · split
      · exact .inner (hk _ rfl rfl) (.seq .bump (.call (hc _ rfl)))
      · exact .inner (hk _ rfl rfl) .bump
      · exact .inner (hk _ rfl rfl) .bump
      · exact .inner (hk _ rfl rfl) .bump
      · exact .inner (hk _ rfl rfl) .bump
      · exact .ite (.inner (hk _ rfl rfl) (.take 2)) .skip
      · exact .inner (hk _ rfl rfl) .balanced
      · exact .skip
  | .ruleDecl, hc, _ => ⟨.rule, .ruleDecl, _, rfl, rfl, .inr rfl, rfl,
    .seq .bump (.seq (.call (hc _ rfl)) (.seq (.when (.call (hc _ rfl)) .skip)
      (.seq (.call (hc _ rfl)) (.seq (.when (.call (hc _ rfl)) .skip)
        (.seq (.when .skip (.seq .fail (.recoverTo (hk _ rfl rfl))))
          (.seq (.when (.call (hc _ rfl)) .skip)
            (.seq (.when .skip (.seq .fail (.recoverTo (hk _ rfl rfl))))
              (.seq (.when (.call (hc _ rfl)) .skip)
                (.seq (.call (hc _ rfl)) .lineTrivia)))))))))⟩

end Grammar

end RuleLang
