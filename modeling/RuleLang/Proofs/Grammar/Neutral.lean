import RuleLang.Proofs.Grammar.Cut
import RuleLang.Proofs.Grammar.Reads
import RuleLang.Proofs.Lexer.Renamed

/-!
# Decisions that do not tell two keywords apart

A decision of the grammar sees kinds of tokens, and few of them by name. One that does not tell the
keywords `agenda-group` and `ruleflow-group` apart is the same where the one is renamed to the other,
whether reading is in step or not. Only the texts of syntax errors name the one or the other.

## Main definitions

* `Ahead.Renamed` — two token lists that are the same but for renamed keywords.
* `Element.outline` — the nodes of an element, with nothing but the number of the tokens.
* `Reading.Renamed` — two states of reading that are the same but for renamed keywords and errors.
* `Grammar.Neutral` — the decisions of an instruction do not tell the keywords apart.

## Main statements

* `Element.eq_of_outline` — an element is told by its outline and its tokens.
* `Grammar.Matches.operation` — the right side of an operator does not depend on the keyword.
-/

namespace RuleLang

open Grammar Production

/-! ## Renamed tokens -/

/-- The kinds are the same, or the first one is renamed to the second. -/
def Kind.Renamed (j k : Kind) : Prop :=
  k = j ∨ j = .agendaGroupKw ∧ k = .ruleflowGroupKw

/-- What does not tell the keywords apart sees the same. -/
theorem Kind.Renamed.eq {α : Type} {j k : Kind} (h : Renamed j k) {f : Kind → α}
    (hf : f .ruleflowGroupKw = f .agendaGroupKw) : f k = f j := by
  rcases h with rfl | ⟨rfl, rfl⟩
  · rfl
  · exact hf

/-- The tokens are the same but for their places, or the first one is renamed to the second. -/
def Token.Renamed (t u : Token) : Prop :=
  t.leaf.Renamed u.leaf

namespace Token.Renamed

variable {t u : Token}

theorem kind (h : Renamed t u) : t.kind.Renamed u.kind :=
  h.imp (congrArg Leaf.kind) (And.imp (congrArg Leaf.kind) (congrArg Leaf.kind))

theorem isTrivia (h : Renamed t u) : u.isTrivia = t.isTrivia :=
  h.kind.eq rfl

theorem isEof (h : Renamed t u) : (u.kind == .eof) = (t.kind == .eof) :=
  h.kind.eq (f := (· == .eof)) rfl

theorem looksLikeType (h : Renamed t u) :
    Expressions.looksLikeType u = Expressions.looksLikeType t := by
  rcases h with h | ⟨ht, hu⟩
  · rw [Expressions.looksLikeType, Expressions.looksLikeType,
      show u.kind = t.kind from congrArg Leaf.kind h, show u.text = t.text from congrArg Leaf.text h]
  · rw [Expressions.looksLikeType, Expressions.looksLikeType,
      show t.kind = .agendaGroupKw from congrArg Leaf.kind ht,
      show u.kind = .ruleflowGroupKw from congrArg Leaf.kind hu]
    rfl

end Token.Renamed

namespace Ahead

/-- The token lists are the same but for renamed keywords. -/
def Renamed (a b : Ahead) : Prop :=
  List.Forall₂ Token.Renamed a b

namespace Renamed

variable {a b : Ahead}

theorem nthToken? (h : Renamed a b) (n : Nat) :
    Option.Rel Token.Renamed (a.nthToken? n) (b.nthToken? n) := by
  induction h generalizing n with
  | nil => exact .none
  | cons ht _ ih =>
    simp only [Ahead.nthToken?, ht.isTrivia]
    split
    · exact ih n
    · cases n with
      | zero => exact .some ht
      | succ n => exact ih n

theorem nth (h : Renamed a b) (n : Nat) : (a.nth n).Renamed (b.nth n) := by
  rw [Ahead.nth, Ahead.nth]
  have := h.nthToken? n
  generalize a.nthToken? n = x, b.nthToken? n = y at this
  cases this with
  | none => exact .inl rfl
  | some h => exact h.kind

theorem current (h : Renamed a b) : a.current.Renamed b.current :=
  h.nth 0

theorem isAt (h : Renamed a b) (k : Kind)
    (hk : (Kind.ruleflowGroupKw == k) = (Kind.agendaGroupKw == k)) : b.isAt k = a.isAt k :=
  h.current.eq (f := (· == k)) hk

theorem atName (h : Renamed a b) : b.atName = a.atName :=
  h.current.eq (f := Kind.isName) rfl

theorem nextIs (h : Renamed a b) (k : Kind)
    (hk : (Kind.ruleflowGroupKw == k) = (Kind.agendaGroupKw == k)) :
    (b.nth 1 == k) = (a.nth 1 == k) :=
  (h.nth 1).eq (f := (· == k)) hk

theorem nextName (h : Renamed a b) : (b.nth 1).isName = (a.nth 1).isName :=
  (h.nth 1).eq (f := Kind.isName) rfl

/-- A token and the one after it. -/
theorem isAt_nextIs (h : Renamed a b) (j k : Kind)
    (hj : (Kind.ruleflowGroupKw == j) = (Kind.agendaGroupKw == j))
    (hk : (Kind.ruleflowGroupKw == k) = (Kind.agendaGroupKw == k)) :
    (b.isAt j && b.nth 1 == k) = (a.isAt j && a.nth 1 == k) := by
  rw [h.isAt j hj, h.nextIs k hk]

theorem adjacent (h : Renamed a b) : b.adjacent = a.adjacent := by
  cases h with
  | nil => rfl
  | cons ht => exact congrArg not ht.isTrivia

/-! ### Stretches of tokens -/

theorem triviaLength (h : Renamed a b) : b.triviaLength = a.triviaLength := by
  induction h with
  | nil => rfl
  | cons ht _ ih =>
    simp only [Ahead.triviaLength, List.takeWhile_cons, ht.isTrivia] at ih ⊢
    split
    · exact congrArg (· + 1) ih
    · rfl

theorem lineTriviaLength (h : Renamed a b) :
    Reading.lineTriviaLength b = Reading.lineTriviaLength a := by
  induction h with
  | nil => rfl
  | cons ht _ ih =>
    simp only [Reading.lineTriviaLength, ht.kind.eq (f := (· == .newline)) rfl, ht.isTrivia, ih]

theorem countUntil (h : Renamed a b) {stops : Kind → Bool}
    (hstops : stops .ruleflowGroupKw = stops .agendaGroupKw) :
    b.countUntil stops = a.countUntil stops := by
  induction h with
  | nil => rfl
  | cons ht _ ih => simp only [Ahead.countUntil, ht.isTrivia, ht.kind.eq hstops, ih]

theorem balanced (h : Renamed a b) (depth : Nat) : b.balanced depth = a.balanced depth := by
  induction h generalizing depth with
  | nil => rfl
  | cons ht _ ih =>
    simp only [Ahead.balanced, ht.isTrivia, ht.isEof, ht.kind.eq (f := depthAfter depth) rfl, ih]

theorem untilClose (h : Renamed a b) {close : Kind}
    (hclose : (Kind.ruleflowGroupKw == close) = (Kind.agendaGroupKw == close)) (depth : Nat) :
    b.untilClose close depth = a.untilClose close depth := by
  induction h generalizing depth with
  | nil => rfl
  | cons ht _ ih =>
    simp only [Ahead.untilClose, ht.isTrivia, ht.isEof, ht.kind.eq (f := (· == close)) hclose,
      ht.kind.eq (f := depthAfter depth) rfl, ih]

theorem typeArguments (h : Renamed a b) (depth : Nat) :
    b.typeArguments depth = a.typeArguments depth := by
  induction h generalizing depth with
  | nil => rfl
  | cons ht _ ih =>
    simp only [typeArguments_cons, ht.isTrivia, ht.isEof,
      ht.kind.eq (f := angleDepthAfter depth) rfl, ih]

theorem beforeCloseParen (h : Renamed a b) (depth : Nat) :
    b.beforeCloseParen depth = a.beforeCloseParen depth := by
  induction h generalizing depth with
  | nil => rfl
  | cons ht _ ih =>
    simp only [Ahead.beforeCloseParen, ht.isTrivia, ht.isEof, ht.kind.eq (f := (· == .rParen)) rfl,
      ht.kind.eq (f := (· == .thenKw)) rfl, ht.kind.eq (f := Kind.isDeclarationStart) rfl,
      ht.kind.eq (f := depthAfter depth) rfl, ih]

/-! ### Expressions -/

open Expressions

theorem dropPairs {first second : Kind}
    (hfirst : (Kind.ruleflowGroupKw == first) = (Kind.agendaGroupKw == first))
    (hsecond : (Kind.ruleflowGroupKw == second) = (Kind.agendaGroupKw == second)) {js : List Kind} :
    ∀ {ks : List Kind}, List.Forall₂ Kind.Renamed js ks →
      List.Forall₂ Kind.Renamed (dropPairs first second js) (dropPairs first second ks) := by
  induction js using dropPairs.induct first second with
  | case1 i j js hij ih =>
    rintro _ (_ | ⟨hi, _ | ⟨hj, h⟩⟩)
    simp only [Expressions.dropPairs, hij, hi.eq (f := (· == first)) hfirst,
      hj.eq (f := (· == second)) hsecond, if_true]
    exact ih h
  | case2 i j js hij =>
    rintro _ (_ | ⟨hi, _ | ⟨hj, h⟩⟩)
    simp only [Expressions.dropPairs, hij, hi.eq (f := (· == first)) hfirst,
      hj.eq (f := (· == second)) hsecond, if_false, Bool.false_eq_true]
    exact .cons hi (.cons hj h)
  | case3 js hjs =>
    rintro _ (_ | ⟨hi, _ | ⟨hj, h⟩⟩)
    · exact .nil
    · exact .cons hi .nil
    · exact absurd rfl (hjs _ _ _)

theorem endsCast {js ks : List Kind} (h : List.Forall₂ Kind.Renamed js ks) :
    endsCast ks = endsCast js := by
  cases h with
  | nil => rfl
  | @cons i i' _ _ hi h =>
    rcases hi with rfl | ⟨rfl, rfl⟩
    · cases h with
      | nil => rfl
      | @cons j j' _ _ hj _ =>
        have hoperand : isCastOperandStart j' = isCastOperandStart j := hj.eq rfl
        unfold Ahead.endsCast
        split
        · rename_i heq
          cases heq
          exact hoperand
        · rename_i hne
          split
          · rename_i heq
            cases heq
            exact absurd rfl (hne _ _)
          · rfl
    · rfl

theorem significantKinds (h : Renamed a b) :
    List.Forall₂ Kind.Renamed (significantKinds a) (significantKinds b) := by
  induction h with
  | nil => exact .nil
  | cons ht _ ih =>
    simp only [Expressions.significantKinds, List.filter_cons, ht.isTrivia] at ih ⊢
    split
    · exact .cons ht.kind ih
    · exact ih

theorem atCast (h : Renamed a b) : atCast b = atCast a := by
  have htype : (b.nthToken? 1).any looksLikeType = (a.nthToken? 1).any looksLikeType := by
    have := h.nthToken? 1
    generalize a.nthToken? 1 = x, b.nthToken? 1 = y at this
    cases this with
    | none => rfl
    | some ht => exact ht.looksLikeType
  have hdotted := @dropPairs .dot .ident rfl rfl _ _ (List.forall₂_drop 2 h.significantKinds)
  have hend := endsCast (@dropPairs .lBracket .rBracket rfl rfl _ _ hdotted)
  rw [Ahead.atCast_eq, Ahead.atCast_eq, h.isAt .lParen rfl, htype, castEnd, castEnd, hend]

theorem atRelationalOperator (h : Renamed a b) :
    atRelationalOperator b = atRelationalOperator a := by
  rcases h.current with hcurrent | ⟨ha, hb⟩
  · simp only [Expressions.atRelationalOperator, hcurrent, h.nextIs .inKw rfl, h.nextIs .ident rfl,
      h.nextIs .hashHash rfl, (h.nth 1).eq (f := isOperandStart) rfl,
      (h.nth 1).eq (f := Kind.isWordOperator) rfl]
  · simp only [Expressions.atRelationalOperator, ha, hb]
    rfl

theorem atHalfConstraint (h : Renamed a b) : atHalfConstraint b = atHalfConstraint a := by
  rcases h.current with hcurrent | ⟨ha, hb⟩
  · simp only [Expressions.atHalfConstraint, hcurrent, h.nextIs .inKw rfl, h.nextIs .hashHash rfl,
      (h.nth 1).eq (f := Kind.isWordOperator) rfl]
  · simp only [Expressions.atHalfConstraint, ha, hb]
    rfl

theorem operatorKind (h : Renamed a b) : (operatorKind a).Renamed (operatorKind b) := by
  have hkind {j k : Kind} (h : j.Renamed k) : Kind.Renamed (if j == .hashHash then .ident else j)
      (if k == .hashHash then .ident else k) := by
    rcases h with rfl | ⟨rfl, rfl⟩
    · exact .inl rfl
    · exact .inr ⟨rfl, rfl⟩
  rw [Expressions.operatorKind, Expressions.operatorKind, h.isAt .notKw rfl]
  split
  · exact hkind (h.nth 1)
  · exact hkind h.current

end Renamed

end Ahead

/-! ## Renamed readings -/

namespace Element

mutual

/-- The nodes of an element, with nothing but the number of the tokens. -/
def outline : Element → Element
  | .token _ _ => .token .eof []
  | .node k cs => .node k (outlineOf cs)

def outlineOf : List Element → List Element
  | [] => []
  | e :: es => e.outline :: outlineOf es

end

theorem outlineOf_eq_map (es : List Element) : outlineOf es = es.map outline := by
  induction es with
  | nil => rfl
  | cons e es ih => rw [outlineOf, ih, List.map_cons]

theorem outline_node (k : Kind) (cs : List Element) :
    (node k cs).outline = .node k (cs.map outline) := by
  rw [outline, outlineOf_eq_map]

mutual

theorem length_leaves_outline : (e : Element) → e.outline.leaves.length = e.leaves.length
  | .token _ _ => rfl
  | .node _ cs => length_leavesOf_outline cs

theorem length_leavesOf_outline :
    (es : List Element) → (leavesOf (outlineOf es)).length = (leavesOf es).length
  | [] => rfl
  | e :: es => by
    rw [outlineOf, leavesOf_cons, leavesOf_cons, List.length_append, List.length_append,
      length_leaves_outline e, length_leavesOf_outline es]

end

mutual

/-- An element is told by its outline and its tokens. -/
theorem eq_of_outline : (e : Element) → {e' : Element} → e'.outline = e.outline →
    e'.leaves = e.leaves → e' = e
  | .token k t, .token k' t', _, hleaves => by
    rw [leaves_token, leaves_token] at hleaves
    cases hleaves
    rfl
  | .token _ _, .node _ _, houtline, _ => by cases houtline
  | .node _ _, .token _ _, houtline, _ => by cases houtline
  | .node k cs, .node k' cs', houtline, hleaves => by
    rw [outline, outline, Element.node.injEq] at houtline
    rw [houtline.1, eqOf_of_outline cs houtline.2 hleaves]

theorem eqOf_of_outline : (es : List Element) → {es' : List Element} →
    outlineOf es' = outlineOf es → leavesOf es' = leavesOf es → es' = es
  | [], [], _, _ => rfl
  | [], _ :: _, houtline, _ => by cases houtline
  | _ :: _, [], houtline, _ => by cases houtline
  | e :: es, e' :: es', houtline, hleaves => by
    obtain ⟨he, hes⟩ := List.cons.inj houtline
    have hlength : e'.leaves.length = e.leaves.length := by
      rw [← length_leaves_outline, he, length_leaves_outline]
    obtain ⟨hhead, htail⟩ := List.append_inj hleaves hlength
    rw [eq_of_outline e he hhead, eqOf_of_outline es hes htail]

end

end Element

namespace Reading

/-- The states are the same but for renamed keywords and for errors. -/
structure Renamed (s s' : Reading) : Prop where
  ahead : s.ahead.Renamed s'.ahead
  group : s'.group.map Element.outline = s.group.map Element.outline
  recovering : s'.recovering = s.recovering

namespace Renamed

variable {s s' : Reading}

theorem takeToken (h : Renamed s s') : s.takeToken.Renamed s'.takeToken := by
  obtain ⟨ahead, group, errors, recovering, limit, entered⟩ := s
  obtain ⟨ahead', group', errors', recovering', limit', entered'⟩ := s'
  obtain ⟨hahead, hgroup, hrecovering⟩ := h
  cases hahead with
  | nil => exact ⟨.nil, hgroup, hrecovering⟩
  | cons ht hts =>
    simp only [Reading.takeToken, ht.isEof]
    split
    · exact ⟨.cons ht hts, hgroup, hrecovering⟩
    · exact ⟨hts, congrArg (List.cons _) hgroup, hrecovering⟩

theorem takeTokens (h : Renamed s s') (n : Nat) : (s.takeTokens n).Renamed (s'.takeTokens n) := by
  induction n generalizing s s' with
  | zero => exact h
  | succ n ih => exact ih h.takeToken

theorem takeTrivia (h : Renamed s s') : s.takeTrivia.Renamed s'.takeTrivia := by
  have hlength : (s'.ahead.takeWhile Token.isTrivia).length =
      (s.ahead.takeWhile Token.isTrivia).length := h.ahead.triviaLength
  rw [Reading.takeTrivia, Reading.takeTrivia, hlength]
  exact h.takeTokens _

theorem takeLineTrivia (h : Renamed s s') : s.takeLineTrivia.Renamed s'.takeLineTrivia := by
  rw [Reading.takeLineTrivia, Reading.takeLineTrivia, h.ahead.lineTriviaLength]
  exact h.takeTokens _

theorem bumps (h : Renamed s s') (n : Nat) : (s.bumps n).Renamed (s'.bumps n) := by
  induction n generalizing s s' with
  | zero => exact h
  | succ n ih => exact ih h.takeTrivia.takeToken

theorem complain (h : Renamed s s') {c d : Complaint} (hc : d.isWarning = c.isWarning) :
    (s.complain c).Renamed (s'.complain d) :=
  ⟨by rw [ahead_complain, ahead_complain]; exact h.ahead,
    by rw [group_complain, group_complain]; exact h.group,
    by rw [recovering_complain, recovering_complain, hc, h.recovering]⟩

end Renamed

end Reading

/-! ## Neutral instructions -/

namespace Grammar

/-- Reading by the second instruction ends where reading by the first one does, but for errors. -/
def Matches (f g : Rule) : Prop :=
  ∀ s t, Reads body f s t → ∃ u, Reads body g s u ∧ u.ahead = t.ahead ∧ u.group = t.group ∧
    u.recovering = t.recovering

namespace Matches

theorem of_eq {f g : Rule} (h : g = f) : Matches f g :=
  fun _ t ht => ⟨t, h ▸ ht, rfl, rfl, rfl⟩

theorem complain {c d : Complaint} (h : d.isWarning = c.isWarning) :
    Matches (.complain c) (.complain d) := by
  intro s t ht
  cases ht
  refine ⟨_, .complain d s, ?_, ?_, ?_⟩
  · rw [Reading.ahead_complain, Reading.ahead_complain]
  · rw [Reading.group_complain, Reading.group_complain]
  · rw [Reading.recovering_complain, Reading.recovering_complain, h]

/-- The right side of an operator does not depend on its name, but for a few operators. -/
theorem operation {j k : Kind} (h : j.Renamed k) :
    Matches (.seq (.call .operator) (.call (.relationalRhs j)))
      (.seq (.call .operator) (.call (.relationalRhs k))) := by
  rcases h with rfl | ⟨rfl, rfl⟩
  · exact .of_eq rfl
  · rintro s t ht
    cases ht with
    | seq hoperator hrhs => cases hrhs with
      | call hrhs =>
        have hsame : Production.body (.relationalRhs .ruleflowGroupKw) =
            Production.body (.relationalRhs .agendaGroupKw) := rfl
        exact ⟨t, .seq hoperator (.call (hsame ▸ hrhs)), rfl, rfl, rfl⟩

end Matches

/-- The decisions of an instruction do not tell the keywords apart. -/
inductive Neutral : Rule → Prop
  | skip : Neutral .skip
  | trivia : Neutral .trivia
  | lineTrivia : Neutral .lineTrivia
  | take (n : Nat) : Neutral (.take n)
  | recovered : Neutral .recovered
  | complain (c : Complaint) : Neutral (.complain c)
  | call (p : Production) : Neutral (.call p)
  | seq {f g : Rule} (hf : Neutral f) (hg : Neutral g) : Neutral (.seq f g)
  | ifRecovering {f g : Rule} (hf : Neutral f) (hg : Neutral g) : Neutral (.ifRecovering f g)
  | group {g : Rule} (h : Neutral g) : Neutral (.group g)
  | enclose {k : Kind} {g : Rule} (h : Neutral g) : Neutral (.enclose k g)
  | look {choose : Ahead → Rule} (h : ∀ a, Neutral (choose a))
    (same : ∀ {a b}, Ahead.Renamed a b → Matches (choose a) (choose b)) : Neutral (.look choose)

namespace Neutral

variable {f g otherwise : Rule}

theorem decide {choose : Ahead → Rule} (h : ∀ a, Neutral (choose a))
    (same : ∀ {a b}, Ahead.Renamed a b → choose b = choose a) : Neutral (.look choose) :=
  .look h fun hs => .of_eq (same hs)

theorem node {k : Kind} (h : Neutral g) : Neutral (.node k g) :=
  .group (.enclose h)

theorem inner {k : Kind} (h : Neutral g) : Neutral (.inner k g) :=
  .seq .trivia (.node h)

theorem innerGroup (h : Neutral g) : Neutral (.innerGroup g) :=
  .seq .trivia (.group h)

theorem bump : Neutral .bump := .take 1

theorem ite {c : Prop} [Decidable c] (hf : Neutral f) (hg : Neutral g) :
    Neutral (if c then f else g) := by
  split
  · exact hf
  · exact hg

theorem when {test : Ahead → Bool} (same : ∀ {a b}, Ahead.Renamed a b → test b = test a)
    (hg : Neutral g) (ho : Neutral otherwise) : Neutral (.when test g otherwise) :=
  .decide (fun _ => .ite hg ho) fun hs => by rw [same hs]

variable {k : Kind} (hk : (Kind.ruleflowGroupKw == k) = (Kind.agendaGroupKw == k))

include hk

theorem whenAt (hg : Neutral g) (ho : Neutral otherwise) : Neutral (.whenAt k g otherwise) :=
  .when (fun hs => hs.isAt k hk) hg ho

theorem eat (hg : Neutral g) (ho : Neutral otherwise) : Neutral (.eat k g otherwise) :=
  .whenAt hk (.seq .bump hg) ho

theorem eat_skip : Neutral (.eat k) :=
  .eat hk .skip .skip

omit hk

theorem fail {c : Kind → Complaint} (hc : ∀ k, (c k).isWarning = false) : Neutral (.fail c) :=
  .look (fun _ => .complain _) fun _ => .complain (by rw [hc, hc])

include hk

theorem expect (hg : Neutral g) : Neutral (.expect k g) :=
  .eat hk hg (.fail fun _ => rfl)

theorem expect_skip : Neutral (.expect k) :=
  .expect hk .skip

theorem untilClose : Neutral (.untilClose k) :=
  .decide (fun _ => .take _) fun hs => by rw [hs.untilClose hk]

omit hk

theorem expectName {role : Role} : Neutral (.expectName role) :=
  .when (fun hs => hs.atName) .bump (.fail fun _ => rfl)

theorem balanced : Neutral .balanced :=
  .decide (fun _ => .seq (.take _) (.ite .skip (.complain _))) fun hs => by rw [hs.balanced]

theorem typeArguments : Neutral (.look fun a => .take (a.typeArguments 0)) :=
  .decide (fun _ => .take _) fun hs => by rw [hs.typeArguments]

theorem wrapError {n : Nat} : Neutral (.wrapError n) :=
  .ite .skip (.inner (.take n))

theorem recoverTo {stops : List Kind}
    (hstops : stops.contains .ruleflowGroupKw = stops.contains .agendaGroupKw) :
    Neutral (.recoverTo stops) := by
  refine .seq (.decide (fun _ => .wrapError) fun hs => ?_) (.when (fun hs => ?_) .recovered .skip)
  · rw [hs.countUntil (by rw [hstops]; rfl)]
  · exact hs.current.eq (f := fun k => stops.contains k) hstops

theorem recoverInParens : Neutral .recoverInParens := by
  refine .ifRecovering (.decide (fun a => ?_) fun hs => by rw [hs.beforeCloseParen]) .skip
  cases a.beforeCloseParen 0 with
  | none => exact .skip
  | some n => exact .seq .wrapError .recovered

end Neutral

end Grammar

end RuleLang
