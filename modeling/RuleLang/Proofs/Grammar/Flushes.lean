import RuleLang.Grammar.Rules
import RuleLang.Proofs.Element.Edges
import RuleLang.Proofs.Grammar.Clean

/-!
# Trivia stays outside of nodes

A node is opened after the trivia before it went to the group around it, also where it is made later
of all that the group holds already. So it starts with a significant token, whatever was wrong with
the text. Nothing but the end of a declaration takes trivia after which more trivia is left.

## Main definitions

* `Stand` — what an instruction needs to know of the place where it starts.
* `Grammar.Flushes` — an instruction opens nodes only where trivia is out of the way.
* `Reading.Neat` — all nodes in a group start with a significant token, and trivia is never taken in
  part.
* `Grammar.EndsLine` — an instruction that takes the rest of its line in the end.

## Main statements

* `Grammar.Flushes.neat` — such an instruction keeps the group neat.
* `Grammar.flushes_body` — what stands inside of declarations opens nodes at significant tokens.
* `Grammar.EndsLine.reads` — a declaration is a neat group and the rest of its line.
-/

namespace RuleLang

open Element

/-- Tokens that are taken are no nodes. -/
theorem Point.Takes.allNodes {Q : Element → Prop} {x y : Point} {n : Nat} (h : x.Takes n y)
    (hx : AllNodes Q x.group) : AllNodes Q y.group := by
  obtain ⟨ts, -, -, hg⟩ := h
  rw [hg]
  exact allNodes_append.2 ⟨allNodes_reverse.2 (allNodes_tokens ts), hx⟩

namespace Reading

variable {s t : Reading}

/-- The tokens of the group and all that are still ahead. -/
def tokens (s : Reading) : List Leaf :=
  leavesOf s.group.reverse ++ s.ahead.map Token.leaf

/-- Reading moves tokens and keeps them all. -/
theorem Keeps.tokens_eq (h : s.Keeps t) : t.tokens = s.tokens := by
  obtain ⟨taken, ha, -, hl⟩ := h
  rw [tokens, tokens, hl, ha, List.map_append, List.append_assoc]

/-- A significant token comes next, or none. -/
def AtToken (s : Reading) : Prop :=
  StartsSignificant (s.ahead.map Token.leaf)

/-- The group starts with a significant token, if it starts with a token at all. -/
def Led (s : Reading) : Prop :=
  StartsSignificant s.tokens

theorem Led.of_keeps (hs : s.Led) (h : s.Keeps t) : t.Led := by
  rw [Led, h.tokens_eq]
  exact hs

theorem Led.leaves (hs : s.Led) : StartsSignificant (leavesOf s.group.reverse) :=
  hs.left

theorem led_of_group_nil (h : s.AtToken) (hgroup : s.group = []) : s.Led := by
  rw [Led, tokens, hgroup]
  exact h

/-! ## Trivia that is taken -/

/-- Where trivia was taken, all of it was. -/
def Paused (s : Reading) : Prop :=
  EndsSignificant (leavesOf s.group.reverse) ∨ s.AtToken

theorem atToken_takeTrivia (s : Reading) : s.takeTrivia.AtToken := by
  intro l hl
  rw [ahead_takeTrivia, Ahead.afterTrivia, List.head?_map, Option.map_eq_some_iff] at hl
  obtain ⟨t, ht, rfl⟩ := hl
  have := List.head?_dropWhile_not Token.isTrivia s.ahead
  rw [ht] at this
  exact this

/-- Where a significant token comes next, it is what is taken. -/
theorem paused_takeToken (h : s.AtToken) : s.takeToken.Paused := by
  cases ha : s.ahead with
  | nil =>
    refine .inr ?_
    simp [takeToken, ha, AtToken, StartsSignificant]
  | cons t ts =>
    have ht : t.isTrivia = false := h t.leaf (by simp [ha])
    by_cases he : t.kind = .eof
    · refine .inr ?_
      simpa [takeToken, ha, he] using h
    · refine .inl ?_
      have hgroup : s.takeToken.group = .ofToken t :: s.group := by simp [takeToken, ha, he]
      rw [hgroup, List.reverse_cons, leavesOf_append]
      exact EndsSignificant.concat ht

theorem Paused.bumps (h : s.Paused) (n : Nat) : (s.bumps n).Paused := by
  induction n generalizing s with
  | zero => exact h
  | succ n ih => exact ih (paused_takeToken s.atToken_takeTrivia)

/-- A group of its own takes all trivia or none. -/
theorem Paused.join (hs : s.Paused) (ht : t.Paused) (h : Keeps { s with group := [] } t) :
    Paused { t with group := t.group ++ s.group } := by
  have hleaves : leavesOf (t.group ++ s.group).reverse =
      leavesOf s.group.reverse ++ leavesOf t.group.reverse := by
    rw [List.reverse_append, leavesOf_append]
  rcases ht with ht | ht
  · by_cases hne : leavesOf t.group.reverse = []
    · obtain ⟨taken, ha, -, hl⟩ := h
      obtain rfl : taken = [] := by
        rw [hne] at hl
        simpa using hl.symm
      have ha : s.ahead = t.ahead := ha
      refine hs.imp (fun hs => ?_) fun hs => ?_
      · rw [hleaves]
        exact hs.append ht
      · rw [AtToken, ← ha]
        exact hs
    · refine .inl ?_
      rw [hleaves]
      exact ht.right hne
  · exact .inr ht

/-! ## Neat groups -/

/-- All nodes in the group start with a significant token, and trivia is taken only as a whole. -/
structure Neat (s : Reading) : Prop where
  nodes : AllNodes (fun n => StartsSignificant n.leaves) s.group
  paused : s.Paused

theorem neat_nil {s : Reading} (h : s.group = []) : s.Neat := by
  refine ⟨?_, .inl ?_⟩
  · rw [h]
    exact .nil
  · rw [h]
    exact .nil

theorem Neat.takeTrivia (h : s.Neat) : s.takeTrivia.Neat :=
  ⟨s.takes_takeTrivia.allNodes h.nodes, .inr s.atToken_takeTrivia⟩

theorem Neat.bumps (h : s.Neat) (n : Nat) : (s.bumps n).Neat :=
  ⟨(s.takes_bumps n).allNodes h.nodes, h.paused.bumps n⟩

theorem Neat.join (hs : s.Neat) (ht : t.Neat) (h : Keeps { s with group := [] } t) :
    Neat { t with group := t.group ++ s.group } :=
  ⟨allNodes_append.2 ⟨ht.nodes, hs.nodes⟩, hs.paused.join ht.paused h⟩

theorem Neat.enclose (h : s.Neat) (hled : s.Led) (k : Kind) :
    Neat { s with group := [.node k s.group.reverse] } := by
  have hleaves : leavesOf [.node k s.group.reverse] = leavesOf s.group.reverse := by simp
  refine ⟨allNodes_node.2 ⟨?_, allNodes_reverse.2 h.nodes⟩, ?_⟩
  · rw [leaves_node]
    exact hled.leaves
  · refine h.paused.imp_left fun hp => ?_
    rwa [← hleaves] at hp

end Reading

/-! ## Instructions -/

/-- What an instruction needs to know of the place where it starts. -/
structure Stand where
  /-- The group starts with a significant token, if it starts with a token at all. -/
  led : Bool
  /-- A significant token comes next, or none. -/
  atToken : Bool
  deriving DecidableEq

namespace Stand

def anywhere : Stand := ⟨false, false⟩

/-- A group of its own, before a significant token. -/
def fresh : Stand := ⟨true, true⟩

/-- After some tokens nothing is known of those that come next. -/
def after (st : Stand) : Stand := ⟨st.led, false⟩

structure Holds (st : Stand) (s : Reading) : Prop where
  led : st.led = true → s.Led
  atToken : st.atToken = true → s.AtToken

variable {st : Stand} {s t : Reading}

theorem Holds.after (h : st.Holds s) (k : s.Keeps t) : st.after.Holds t :=
  ⟨fun hled => (h.led hled).of_keeps k, nofun⟩

theorem holds_anywhere (s : Reading) : anywhere.Holds s :=
  ⟨nofun, nofun⟩

theorem holds_fresh (h : s.AtToken) : fresh.Holds { s with group := [] } :=
  ⟨fun _ => Reading.led_of_group_nil h rfl, fun _ => h⟩

end Stand

namespace Production

/-- The production makes a node of all that its callers have read before. -/
def continues : Production → Bool
  | .binaryRest _ | .relationalRest | .suffixes => true
  | _ => false

/-- Where the production may be entered. -/
def stand (p : Production) : Stand :=
  ⟨p.continues, false⟩

/-- The production stands at the top level of a file. -/
def isTopLevel : Production → Bool
  | .compilationUnit | .declarations | .packageDecl | .importDecl | .globalDecl | .functionDecl
  | .queryDecl | .declareDecl | .ruleDecl | .strayTokens => true
  | _ => false

end Production

namespace Grammar

/-- An instruction opens nodes only where the trivia before them is out of the way. -/
inductive Flushes : Stand → Rule → Prop
  | skip {st : Stand} : Flushes st .skip
  | trivia {st : Stand} : Flushes st .trivia
  | take {st : Stand} (n : Nat) : Flushes st (.take n)
  | recovered {st : Stand} : Flushes st .recovered
  | complain {st : Stand} (c : Complaint) : Flushes st (.complain c)
  | call {st : Stand} {p : Production} (htop : p.isTopLevel = false)
    (hled : (!p.continues || st.led) = true) : Flushes st (.call p)
  | seq {st : Stand} {f g : Rule} (hf : Flushes st f) (hg : Flushes st.after g) :
    Flushes st (.seq f g)
  | triviaSeq {st : Stand} {g : Rule} (h : Flushes ⟨st.led, true⟩ g) : Flushes st (.seq .trivia g)
  | look {st : Stand} {choose : Ahead → Rule} (h : ∀ a, Flushes st (choose a)) :
    Flushes st (.look choose)
  | ifRecovering {st : Stand} {f g : Rule} (hf : Flushes st f) (hg : Flushes st g) :
    Flushes st (.ifRecovering f g)
  | group {st : Stand} {g : Rule} (hst : st.atToken = true) (h : Flushes .fresh g) :
    Flushes st (.group g)
  | enclose {st : Stand} {k : Kind} {g : Rule} (hst : st.led = true) (h : Flushes st g) :
    Flushes st (.enclose k g)

namespace Flushes

variable {st : Stand} {f g otherwise : Rule} {s t : Reading}

/-- What an instruction reads stays neat, if this holds of the bodies of productions. -/
theorem neat (hbody : ∀ p : Production, p.isTopLevel = false → Flushes p.stand p.body)
    (h : Reads Production.body g s t) (hg : Flushes st g) (hst : st.Holds s) (hs : s.Neat) :
    t.Neat := by
  induction h generalizing st with
  | skip => exact hs
  | trivia s => exact hs.takeTrivia
  | lineTrivia => cases hg
  | take n s => exact hs.bumps n
  | @seq f g s t u hf _ ihf ihg =>
    cases hg with
    | seq hgf hgg => exact ihg hgg (hst.after hf.keeps) (ihf hgf hst hs)
    | triviaSeq hg =>
      cases hf
      have hkeeps : s.Keeps s.takeTrivia := Reading.keeps_takeTokens _ s
      exact ihg hg ⟨(hst.after hkeeps).led, fun _ => s.atToken_takeTrivia⟩ hs.takeTrivia
  | look _ ih =>
    cases hg with
    | look hg => exact ih (hg _) hst hs
  | @ifRecovering yes no s t _ ih =>
    cases hg with
    | ifRecovering hyes hno =>
      refine ih ?_ hst hs
      split
      · exact hyes
      · exact hno
  | recovered s => exact ⟨hs.nodes, hs.paused⟩
  | complain c s =>
    refine ⟨?_, ?_⟩
    · rw [Reading.group_complain]
      exact hs.nodes
    · rw [Reading.Paused, Reading.AtToken, Reading.group_complain, Reading.ahead_complain]
      exact hs.paused
  | @call p s t _ ih =>
    cases hg with
    | call htop hled =>
      refine ih (hbody p htop) ⟨fun hp => ?_, nofun⟩ ⟨hs.nodes, hs.paused⟩
      have hp : p.continues = true := hp
      rw [hp] at hled
      exact hst.led hled
  | @group body s t hr ih =>
    cases hg with
    | group hat hg =>
      exact hs.join (ih hg (Stand.holds_fresh (hst.atToken hat)) (Reading.neat_nil rfl)) hr.keeps
  | @enclose k body s t hr ih =>
    cases hg with
    | enclose hled hg => exact (ih hg hst hs).enclose ((hst.led hled).of_keeps hr.keeps) k

/-! ## Derived instructions -/

theorem ite {c : Prop} [Decidable c] (hf : Flushes st f) (hg : Flushes st g) :
    Flushes st (if c then f else g) := by
  split
  · exact hf
  · exact hg

theorem innerGroup (h : Flushes .fresh g) : Flushes st (.innerGroup g) :=
  .triviaSeq (.group rfl h)

theorem node {k : Kind} (hst : st.atToken = true) (h : Flushes .fresh g) :
    Flushes st (.node k g) :=
  .group hst (.enclose rfl h)

theorem inner {k : Kind} (h : Flushes .fresh g) : Flushes st (.inner k g) :=
  .triviaSeq (.node rfl h)

theorem bump : Flushes st .bump := .take 1

theorem when {test : Ahead → Bool} (hg : Flushes st g) (ho : Flushes st otherwise) :
    Flushes st (.when test g otherwise) :=
  .look fun _ => .ite hg ho

theorem eat {k : Kind} (hg : Flushes st.after g) (ho : Flushes st otherwise) :
    Flushes st (.eat k g otherwise) :=
  .when (.seq .bump hg) ho

theorem eat_skip {k : Kind} : Flushes st (.eat k) :=
  .eat .skip .skip

theorem fail {c : Kind → Complaint} : Flushes st (.fail c) :=
  .look fun _ => .complain _

theorem expect {k : Kind} (hg : Flushes st.after g) : Flushes st (.expect k g) :=
  .eat hg .fail

theorem expect_skip {k : Kind} : Flushes st (.expect k) :=
  .expect .skip

theorem expectName {role : Role} : Flushes st (.expectName role) :=
  .when .bump .fail

theorem look_take {count : Ahead → Nat} : Flushes st (.look fun a => .take (count a)) :=
  .look fun _ => .take _

theorem balanced : Flushes st .balanced :=
  .look fun _ => .seq (.take _) (.ite .skip (.complain _))

theorem wrapError {n : Nat} : Flushes st (.wrapError n) :=
  .ite .skip (.inner (.take n))

theorem recoverTo {stops : List Kind} : Flushes st (.recoverTo stops) :=
  .seq (.look fun _ => .wrapError) (.when .recovered .skip)

theorem recoverInParens : Flushes st .recoverInParens := by
  refine .ifRecovering (.look fun a => ?_) .skip
  split
  · exact .seq .wrapError .recovered
  · exact .skip

end Flushes

end Grammar

/-! ## Productions that leave trivia outside -/

open Grammar

namespace Grammar

open Declarations Conditions Expressions

variable {st : Stand}

theorem flushes_operand (level : Level) (half : Bool) : Flushes st (operand level half) := by
  cases level <;> exact .call rfl rfl

theorem flushes_operation : Flushes st operation :=
  .look fun _ => .seq (.call rfl rfl) (.call rfl rfl)

/-- Inside of declarations, nodes are opened at significant tokens only. -/
theorem flushes_body : (p : Production) → p.isTopLevel = false → Flushes p.stand p.body
  | .supertypes, _ => .eat (.seq (.call rfl rfl) (.call rfl rfl)) .skip
  | .annotations, _ => .when (.seq (.call rfl rfl) (.call rfl rfl)) .skip
  | .annotated, _ => .inner (.seq .bump (.seq (.call rfl rfl) (.when .balanced .skip)))
  | .fields, _ =>
    .look fun _ => .ite .skip (.ite (.seq (.call rfl rfl) (.call rfl rfl))
      (.seq .fail (.seq .recoverTo (.call rfl rfl))))
  | .field, _ =>
    .inner (.seq (.take 2) (.seq (.call rfl rfl) (.seq (.eat (.call rfl rfl) .skip)
      (.call rfl rfl))))
  | .declName _, _ => .when (.inner .bump) .fail
  | .parent, _ => .inner (.seq .bump (.when .bump (.complain _)))
  | .attributeList, _ => .inner (.call rfl rfl)
  | .attributes, _ =>
    .look fun _ => .ite (.seq .bump (.seq .eat_skip (.call rfl rfl)))
      (.ite (.seq .bump (.call rfl rfl)) (.ite (.seq (.call rfl rfl) (.call rfl rfl)) .skip))
  | .attribute, _ => by
    refine .inner (.seq (.look fun a => ?_) (.seq .bump (.look fun a => ?_)))
    · split
      · exact .ite (.complain _) .skip
      · exact .skip
    · split
      · exact .inner (.seq .bump (.call rfl rfl))
      · exact .inner .bump
      · exact .inner .bump
      · exact .inner .bump
      · exact .inner .bump
      · exact .ite (.inner (.take 2)) .skip
      · exact .inner .balanced
      · exact .skip
  | .stringList, _ => .when (.seq (.take 2) (.call rfl rfl)) .skip
  | .whenClause, _ => .inner (.seq .bump (.seq .eat_skip (.call rfl rfl)))
  | .thenClause, _ => .inner (.seq .bump (.inner .eat_skip))
  | .blockEnd _, _ => .eat .skip (.when (.complain _) .fail)
  | .parameterList, _ => .inner (.seq .bump (.seq (.when .skip (.call rfl rfl)) .expect_skip))
  | .parameters, _ => .seq (.call rfl rfl) (.eat (.call rfl rfl) .skip)
  | .parameter, _ => .inner (.seq (.call rfl rfl) (.when .bump .skip))
  | .qualifiedName, _ => .when (.inner (.seq .bump (.call rfl rfl))) .fail
  | .nameParts, _ => .when (.seq (.take 2) (.call rfl rfl)) .skip
  | .typeRef, _ =>
    .when (.inner (.seq (.call rfl rfl) (.seq (.when .look_take .skip) (.call rfl rfl)))) .fail
  | .dimensions, _ => .when (.seq (.take 2) (.call rfl rfl)) .skip
  | .conditions, _ =>
    .look fun _ => .ite .skip (.seq (.ite (.seq (.call rfl rfl) .eat_skip) .fail)
      (.seq (.ifRecovering .recoverTo .skip) (.call rfl rfl)))
  | .lhsOr, _ =>
    .innerGroup (.seq (.call rfl rfl)
      (.when (.enclose rfl (.seq .bump (.seq (.call rfl rfl) (.call rfl rfl)))) .skip))
  | .lhsOrRest, _ => .when (.seq .bump (.seq (.call rfl rfl) (.call rfl rfl))) .skip
  | .lhsAnd, _ =>
    .innerGroup (.seq (.call rfl rfl)
      (.when (.enclose rfl (.seq .bump (.seq (.call rfl rfl) (.call rfl rfl)))) .skip))
  | .lhsAndRest, _ => .when (.seq .bump (.seq (.call rfl rfl) (.call rfl rfl))) .skip
  | .lhsUnary, _ => by
    refine .look fun a => ?_
    split
    · exact .inner (.seq .bump (.call rfl rfl))
    · exact .inner (.seq .bump (.call rfl rfl))
    · exact .inner (.seq .bump (.expect (.seq (.call rfl rfl) .expect_skip)))
    · exact .inner (.seq .bump (.expect (.seq (.call rfl rfl) .expect_skip)))
    · exact .call rfl rfl
    · exact .call rfl rfl
    · exact .call rfl rfl
    · exact .call rfl rfl
    · exact .complain _
  | .forallItems, _ => .when (.seq (.call rfl rfl) (.ifRecovering .skip (.call rfl rfl))) .skip
  | .prefixOperands, _ => .when (.seq (.call rfl rfl) (.ifRecovering .skip (.call rfl rfl))) .skip
  | .lhsParen, _ => by
    refine .inner (.seq .bump (.seq (.look fun a => ?_) .expect_skip))
    split
    · exact .inner (.seq .bump (.call rfl rfl))
    · exact .inner (.seq .bump (.call rfl rfl))
    · exact .call rfl rfl
  | .pattern, _ =>
    .inner (.seq (.when (.call rfl rfl) .skip) (.seq .eat_skip (.seq (.call rfl rfl)
      (.seq (.expect (.seq (.when .skip (.call rfl rfl)) .recoverInParens)) (.seq .expect_skip
        (.seq (.when (.call rfl rfl) .skip) (.when (.call rfl rfl) .skip)))))))
  | .constraints, _ => .seq (.call rfl rfl) (.eat (.call rfl rfl) .skip)
  | .binding, _ => .inner (.take 2)
  | .constraint, _ => .inner (.seq (.when (.call rfl rfl) .skip) (.call rfl rfl))
  | .window, _ =>
    .inner (.seq .bump (.expect (.expect (.seq .expectName (.when (.inner .balanced) .skip)))))
  | .source, _ => by
    refine .inner (.seq .bump (.look fun a => ?_))
    split
    · exact .call rfl rfl
    · exact .inner (.seq .bump (.expect (.seq (.call rfl rfl) .expect_skip)))
    · exact .inner (.seq .bump (.eat .skip (.call rfl rfl)))
    · exact .call rfl rfl
  | .accumulate, _ =>
    .inner (.seq .bump (.expect (.seq (.call rfl rfl)
      (.seq (.eat .look_take (.eat .look_take .skip)) .expect_skip))))
  | .expr, _ => .call rfl rfl
  | .ternary, _ =>
    .innerGroup (.seq (.call rfl rfl)
      (.when (.enclose rfl (.seq .bump (.seq (.call rfl rfl)
        (.seq .expect_skip (.call rfl rfl))))) .skip))
  | .binary level half, _ => .innerGroup (.seq (flushes_operand level half) (.call rfl rfl))
  | .binaryRest level, _ =>
    .when (.seq (.enclose rfl (.seq .bump (flushes_operand level _))) (.call rfl rfl)) .skip
  | .relational _, _ =>
    .when (.inner flushes_operation) (.innerGroup (.seq (.call rfl rfl) (.call rfl rfl)))
  | .relationalRest, _ =>
    .when (.seq (.enclose rfl flushes_operation) (.call rfl rfl)) .skip
  | .operator, _ =>
    .look fun _ => .inner (.seq .eat_skip (.seq (.eat .expect_skip .bump)
      (.ite (.when (.inner (.seq .bump (.seq .look_take .expect_skip))) .skip) .skip)))
  | .relationalRhs _, _ => .ite (.call rfl rfl) (.when (.call rfl rfl) (.call rfl rfl))
  | .unary, _ => by
    refine .look fun a => ?_
    split
    iterate 6 exact .inner (.seq .bump (.call rfl rfl))
    exact .ite (.inner (.seq .bump (.seq (.call rfl rfl) (.seq .expect_skip (.call rfl rfl)))))
      (.call rfl rfl)
  | .postfixed, _ => .innerGroup (.seq (.call rfl rfl) (.call rfl rfl))
  | .suffixes, _ => by
    have hname : Flushes (Production.stand .suffixes) (.seq (.take 2)
        (.seq (.whenAt .lParen (.seq (.call .argList) (.enclose .methodCall .skip))
          (.enclose .fieldAccess .skip)) (.call .suffixes))) :=
      .seq (.take 2) (.seq (.when (.seq (.call rfl rfl) (.enclose rfl .skip)) (.enclose rfl .skip))
        (.call rfl rfl))
    have hstep : Flushes (Production.stand .suffixes)
        (.seq .bump (.seq (.enclose .unaryExpr .skip) (.call .suffixes))) :=
      .seq .bump (.seq (.enclose rfl .skip) (.call rfl rfl))
    refine .look fun a => ?_
    split
    · exact .ite hname .skip
    · exact .ite hname .skip
    · exact .ite (.seq .bump (.seq (.call rfl rfl) (.seq (.enclose rfl .skip) (.call rfl rfl))))
        .skip
    · exact .seq .bump (.seq (.call rfl rfl) (.seq .expect_skip
        (.seq (.enclose rfl .skip) (.call rfl rfl))))
    · exact .ite hstep .skip
    · exact .ite hstep .skip
    · exact .skip
  | .primary, _ => by
    refine .look fun a => .ite (.inner .bump) (.ite ?_ ?_)
    · exact .innerGroup (.seq (.node rfl .bump)
        (.when (.seq (.call rfl rfl) (.enclose rfl .skip)) .skip))
    · split
      · exact .call rfl rfl
      · exact .inner (.seq .bump (.seq (.call rfl rfl) (.seq .recoverInParens .expect_skip)))
      · exact .call rfl rfl
      · exact .complain _
  | .creation, _ => by
    refine .inner (.seq .bump (.seq (.call rfl rfl) (.look fun a => ?_)))
    split
    · exact .call rfl rfl
    · exact .seq (.call rfl rfl) (.when .balanced .skip)
    · exact .complain _
  | .creationDims, _ => .when (.seq .balanced (.call rfl rfl)) .skip
  | .arrayInit, _ => .inner (.seq .bump (.seq (.when .skip (.call rfl rfl)) .expect_skip))
  | .arrayItems, _ =>
    .seq (.call rfl rfl) (.seq (.eat (.call rfl rfl) .skip) (.eat (.call rfl rfl) .skip))
  | .argList, _ =>
    .inner (.seq .bump (.seq (.when .skip (.call rfl rfl)) (.seq .recoverInParens .expect_skip)))
  | .arguments, _ => .seq (.call rfl rfl) (.eat (.call rfl rfl) .skip)

/-- Reading inside of declarations keeps the group neat. -/
theorem Flushes.reads {g : Rule} {s t : Reading} (hg : Flushes .anywhere g)
    (h : Reads Production.body g s t) (hs : s.Neat) : t.Neat :=
  hg.neat flushes_body h (Stand.holds_anywhere s) hs

/-! ## Declarations -/

/-- What is read in the end is the rest of the line. -/
inductive EndsLine : Rule → Prop
  | lineTrivia : EndsLine .lineTrivia
  | seq {f g : Rule} (hf : Flushes .anywhere f) (hg : EndsLine g) : EndsLine (.seq f g)

theorem EndsLine.reads {g : Rule} {s t : Reading} (hg : EndsLine g)
    (h : Reads Production.body g s t) (hs : s.Neat) :
    ∃ u : Reading, u.Neat ∧ t = u.takeLineTrivia := by
  induction hg generalizing s with
  | lineTrivia =>
    cases h
    exact ⟨s, hs, rfl⟩
  | seq hf _ ih =>
    cases h with
    | seq hr hrest => exact ih hrest (hf.reads hr hs)

end Grammar

end RuleLang
