import RuleLang.Proofs.Grammar.Makes
import RuleLang.Proofs.Grammar.SpendsRules

/-!
# Nodes that are read on their own

Each pattern, constraint, attribute and rule of a tree is what its production reads of the tokens of
the source from some token on.

## Main definitions

* `Fragment.ReadFrom` — a node is what the production of a fragment reads of some tokens.
* `Point.Gathers` — all that comes to a group has a property if all that it holds has it.

## Main statements

* `Grammar.Makes.gathers` — what is made has a property that goes up.
* `Grammar.gathers_of_enters` — the fragments of what a production reads.
-/

namespace RuleLang

open Grammar Production

/-- A node is what the production of a fragment reads without complaint of some of the tokens. -/
def Fragment.ReadFrom (tokens : List Token) (n : Element) : Prop :=
  ∃ (f : FragmentKind) (a z : Ahead), f.expected? = some n.kind ∧ a <:+ tokens ∧
    f.production.key a.current = true ∧ Accepted body (.call f.production) ⟨a, []⟩ ⟨z, [n]⟩

/-- All fragments at and below an element are read from the tokens. -/
def Element.AllRead (tokens : List Token) (e : Element) : Prop :=
  ∀ n ∈ e.nodes, n.kind.isFragment = true → Fragment.ReadFrom tokens n

namespace Element

variable {tokens : List Token}

theorem AllRead.token (k : Kind) (t : List Char) : (Element.token k t).AllRead tokens := by
  intro n hn
  simp [nodes] at hn

/-- A node and what it is made of. -/
theorem AllRead.node {k : Kind} {cs : List Element}
    (hk : k.isFragment = true → Fragment.ReadFrom tokens (.node k cs))
    (hcs : ∀ c ∈ cs, c.AllRead tokens) : (Element.node k cs).AllRead tokens := by
  intro n hn hfragment
  rw [nodes, List.mem_cons, mem_nodesOf] at hn
  rcases hn with rfl | ⟨c, hc, hn⟩
  · exact hk hfragment
  · exact hcs c hc n hn hfragment

theorem goesUp_allRead : GoesUp (AllRead tokens) fun k => k.isFragment = false where
  token := .token
  node k cs hk hcs := by
    refine .node (fun h => by rw [hk] at h; cases h) fun c hc => ?_
    cases htrivia : c.isTrivia with
    | false => exact hcs c (List.mem_filter.2 ⟨hc, by simp [htrivia]⟩)
    | true => cases c with
      | token k t => exact .token k t
      | node => cases htrivia

end Element

theorem Ahead.triviaLength_afterTrivia (a : Ahead) : a.afterTrivia.triviaLength = 0 := by
  have hlength := congrArg List.length
    (List.takeWhile_append_dropWhile (p := Token.isTrivia) (l := a.afterTrivia))
  have hdrop := congrArg List.length (afterTrivia_afterTrivia a)
  rw [List.length_append] at hlength
  rw [afterTrivia] at hdrop
  rw [triviaLength]
  omega

theorem Production.key_of_isKeyed {p : Production} (h : p.isKeyed = false) (k : Kind) :
    p.key k = true := by
  cases p <;> first | rfl | cases h

namespace Point

/-- All that comes to the group has the property if all that it holds has it. -/
def Gathers (tokens : List Token) (Q : Element → Prop) (x y : Point) : Prop :=
  x.ahead <:+ tokens → (∀ e ∈ x.group, Q e) → ∀ e ∈ y.group, Q e

namespace Gathers

variable {tokens : List Token} {Q : Element → Prop} {x y z : Point}

theorem refl (x : Point) : Gathers tokens Q x x :=
  fun _ h => h

theorem trans (h : Gathers tokens Q x y) (k : Gathers tokens Q y z) (hy : y.ahead <:+ x.ahead) :
    Gathers tokens Q x z :=
  fun hx hq => k (hy.trans hx) (h hx hq)

theorem of_takes {n : Nat} (hQ : ∀ k t, Q (.token k t)) (h : x.Takes n y) :
    Gathers tokens Q x y := by
  obtain ⟨ts, -, -, hg⟩ := h
  intro hx hq e he
  rw [hg, List.mem_append, List.mem_reverse, List.mem_map] at he
  rcases he with ⟨t, -, rfl⟩ | he
  · exact hQ t.kind t.text
  · exact hq e he

end Gathers

end Point

namespace Grammar

open Point

variable {enters : Production → Point → Point → Prop} {Q : Element → Prop} {x y : Point}
  {tokens : List Token}

/-- What an instruction makes has a property that goes up to the nodes that it makes. -/
theorem Makes.gathers {kinds : Kind → Prop} {calls : Production → Prop} {wraps : Prop}
    (hE : Obeys enters) (hQ : GoesUp Q kinds)
    (hcalls : ∀ p x y, calls p → enters p x y → Gathers tokens Q x y) {g : Rule}
    (hg : Makes kinds calls wraps g) (h : g.Accepts enters x y) : Gathers tokens Q x y := by
  have hnode {k : Kind} (hk : kinds k) {es : List Element} (hes : ∀ e ∈ es, Q e) :
      Q (.node k es.reverse) :=
    hQ.node k _ hk fun e he => hes e (List.mem_reverse.1 (List.mem_filter.1 he).1)
  induction hg generalizing x y with
  | skip | recovered =>
    obtain rfl : y = x := h
    exact .refl _
  | trivia | lineTrivia | take => exact .of_takes hQ.token h
  | complain =>
    obtain ⟨-, rfl⟩ := h
    exact .refl _
  | call hp => exact hcalls _ x y hp h
  | seq _ _ ihf ihg =>
    obtain ⟨z, hf, hg⟩ := h
    exact (ihf hf).trans (ihg hg) (hE.accepts_passes hf).suffix
  | look _ ih => exact ih _ h
  | ifRecovering _ _ _ ih => exact ih h
  | group _ ih =>
    obtain ⟨z, hz, rfl⟩ := h
    intro hx hq e he
    rcases List.mem_append.1 he with he | he
    · exact ih hz hx (by simp) e he
    · exact hq e he
  | node hk _ ih =>
    obtain ⟨w, ⟨z, hz, rfl⟩, rfl⟩ := h
    intro hx hq e he
    rcases List.mem_append.1 he with he | he
    · rw [List.mem_singleton.1 he]
      exact hnode hk (ih hz hx (by simp))
    · exact hq e he
  | enclose _ hk _ ih =>
    obtain ⟨z, hz, rfl⟩ := h
    intro hx hq e he
    rw [List.mem_singleton.1 he]
    exact hnode hk (ih hz hx hq)

/-! ## Productions that put what was read before under an operator -/

section

open Conditions Expressions

variable {kinds : Kind → Prop} {calls : Production → Prop} {wraps : Prop}

theorem makes_operand
    (hc : ∀ q : Production, (!q.isKeyed && expr.mayEnter q) = true → calls q)
    {level : Level} {half : Bool} : Makes kinds calls wraps (operand level half) := by
  cases level <;> exact .call (hc _ rfl)

/-- What the productions make that make nodes with levels. -/
theorem makes_levelled (hw : wraps) :
    (p : Production) →
      (∀ k : Kind, (!k.isFragment && p.mayMake k) = true → kinds k) →
      (∀ q : Production, (!q.isKeyed && p.mayEnter q) = true → calls q) →
      p.isLevelled = true → Makes kinds calls wraps p.body
  | .lhsOr, hk, hc, _ =>
    .innerGroup (.seq (.call (hc _ rfl)) (.when (.enclose hw (hk _ rfl)
      (.seq .bump (.seq (.call (hc _ rfl)) (.call (hc _ rfl))))) .skip))
  | .lhsAnd, hk, hc, _ =>
    .innerGroup (.seq (.call (hc _ rfl)) (.when (.enclose hw (hk _ rfl)
      (.seq .bump (.seq (.call (hc _ rfl)) (.call (hc _ rfl))))) .skip))
  | .lhsParen, hk, hc, _ => by
    refine .inner (hk _ rfl) (.seq .bump (.seq (.look fun a => ?_) .expect_skip))
    split
    · exact .inner (hk _ rfl) (.seq .bump (.call (hc _ rfl)))
    · exact .inner (hk _ rfl) (.seq .bump (.call (hc _ rfl)))
    · exact .call (hc _ rfl)
  | .ternary, hk, hc, _ =>
    .innerGroup (.seq (.call (hc _ rfl)) (.when (.enclose hw (hk _ rfl)
      (.seq .bump (.seq (.call (hc _ rfl)) (.seq .expect_skip (.call (hc _ rfl)))))) .skip))
  | .binary _ _, _, hc, _ => .innerGroup (.seq (makes_operand hc) (.call (hc _ rfl)))
  | .binaryRest _, hk, hc, _ =>
    .when (.seq (.enclose hw (hk _ rfl) (.seq .bump (makes_operand hc))) (.call (hc _ rfl))) .skip
  | .relational _, hk, hc, _ =>
    .when (.inner (hk _ rfl) (.look fun _ => .seq (.call (hc _ rfl)) (.call (hc _ rfl))))
      (.innerGroup (.seq (.call (hc _ rfl)) (.call (hc _ rfl))))
  | .relationalRest, hk, hc, _ =>
    .when (.seq (.enclose hw (hk _ rfl)
      (.look fun _ => .seq (.call (hc _ rfl)) (.call (hc _ rfl)))) (.call (hc _ rfl))) .skip
  | .unary, hk, hc, _ => by
    refine .look fun a => ?_
    split
    iterate 6 exact .inner (hk _ rfl) (.seq .bump (.call (hc _ rfl)))
    exact .ite (.inner (hk _ rfl) (.seq .bump (.seq (.call (hc _ rfl))
      (.seq .expect_skip (.call (hc _ rfl)))))) (.call (hc _ rfl))
  | .postfixed, _, hc, _ => .innerGroup (.seq (.call (hc _ rfl)) (.call (hc _ rfl)))
  | .suffixes, hk, hc, _ => by
    have hwrap {k : Kind} (h : (!k.isFragment && suffixes.mayMake k) = true) :
        Makes kinds calls wraps (.enclose k .skip) :=
      .enclose hw (hk k h) .skip
    refine .look fun a => ?_
    split
    iterate 2
      exact .ite (.seq (.take 2) (.seq (.when (.seq (.call (hc _ rfl)) (hwrap rfl)) (hwrap rfl))
        (.call (hc _ rfl)))) .skip
    · exact .ite (.seq .bump (.seq (.call (hc _ rfl)) (.seq (hwrap rfl) (.call (hc _ rfl))))) .skip
    · exact .seq .bump (.seq (.call (hc _ rfl)) (.seq .expect_skip (.seq (hwrap rfl)
        (.call (hc _ rfl)))))
    iterate 2 exact .ite (.seq .bump (.seq (hwrap rfl) (.call (hc _ rfl)))) .skip
    · exact .skip
  | .primary, hk, hc, _ => by
    refine .look fun a => .ite (.inner (hk _ rfl) .bump) (.ite (.innerGroup (.seq
      (.node (hk _ rfl) .bump) (.when (.seq (.call (hc _ rfl)) (.enclose hw (hk _ rfl) .skip))
        .skip))) ?_)
    split
    · exact .call (hc _ rfl)
    · exact .inner (hk _ rfl) (.seq .bump (.seq (.call (hc _ rfl))
        (.seq (.recoverInParens (hk _ rfl)) .expect_skip)))
    · exact .call (hc _ rfl)
    · exact .complain _

end

/-! ## Productions that read fragments -/

/-- What a node read after trivia holds is read without them in the same way. -/
theorem accepts_inner_alone {k : Kind} {g : Rule} (h : (inner k g).Accepts enters x y) :
    ∃ (ts : List Token) (z : Point), g.Accepts enters ⟨x.ahead.afterTrivia, []⟩ z ∧
      y = ⟨z.ahead, .node k z.group.reverse :: (ts.map Element.ofToken ++ x.group)⟩ ∧
      (inner k g).Accepts enters ⟨x.ahead.afterTrivia, []⟩
        ⟨z.ahead, [.node k z.group.reverse]⟩ := by
  obtain ⟨w, htrivia, _, ⟨z, hz, rfl⟩, rfl⟩ := h
  rw [(accepts_trivia htrivia).1] at hz
  obtain ⟨ts, -, -, hg⟩ := htrivia
  have hnone := Ahead.triviaLength_afterTrivia x.ahead
  exact ⟨ts.reverse, z, hz, by simp [hg], ⟨x.ahead.afterTrivia, []⟩, ⟨[], hnone.symm, rfl, rfl⟩,
    _, ⟨z, hz, rfl⟩, rfl⟩

section

variable (hE : Obeys enters)
  (ih : ∀ p x y, enters p x y → p.key x.ahead.current = true →
    Gathers tokens (Element.AllRead tokens) x y)
include hE ih

/-- What makes no fragment and enters productions without a look at the next token. -/
theorem gathers_of_makes {g : Rule}
    (hg : Makes (fun k => k.isFragment = false) (fun q => q.isKeyed = false) True g)
    (h : g.Accepts enters x y) : Gathers tokens (Element.AllRead tokens) x y :=
  hg.gathers hE Element.goesUp_allRead
    (fun p x y hp h => ih p x y h (key_of_isKeyed hp _)) h

theorem gathers_declarations (h : Declarations.declarations.Accepts enters x y) :
    Gathers tokens (Element.AllRead tokens) x y := by
  obtain ⟨_, rfl, h⟩ := h
  rw [Accepts] at h
  split at h
  · exact gathers_of_makes hE ih .skip h
  iterate 6 exact gathers_of_makes hE ih (.seq (.call rfl) (.call rfl)) h
  · rename_i hcurrent
    obtain ⟨z, hrule, hrest⟩ := h
    exact (ih .ruleDecl _ z hrule (by simp [key, hcurrent])).trans (ih .declarations z y hrest rfl)
      (hE.passes hrule).suffix
  · exact gathers_of_makes hE ih (.seq (.call rfl) (.call rfl)) h

theorem gathers_attributes (h : Declarations.attributes.Accepts enters x y) :
    Gathers tokens (Element.AllRead tokens) x y := by
  rw [Declarations.attributes, Accepts] at h
  split at h
  · exact gathers_of_makes hE ih (.seq .bump (.seq .eat_skip (.call rfl))) h
  split at h
  · exact gathers_of_makes hE ih (.seq .bump (.call rfl)) h
  split at h
  · rename_i hkey
    obtain ⟨z, hitem, hrest⟩ := h
    exact (ih .attribute x z hitem hkey).trans (ih .attributes z y hrest rfl)
      (hE.passes hitem).suffix
  · exact gathers_of_makes hE ih .skip h

theorem gathers_lhsUnary (h : Conditions.lhsUnary.Accepts enters x y) :
    Gathers tokens (Element.AllRead tokens) x y := by
  rw [Conditions.lhsUnary, Accepts] at h
  split at h
  iterate 2 exact gathers_of_makes hE ih (.inner rfl (.seq .bump (.call rfl))) h
  iterate 2
    exact gathers_of_makes hE ih
      (.inner rfl (.seq .bump (.expect (.seq (.call rfl) .expect_skip)))) h
  iterate 2 exact gathers_of_makes hE ih (.call rfl) h
  iterate 2
    rename_i hcurrent
    exact ih .pattern x y h (by simp [key, hcurrent])
  · exact gathers_of_makes hE ih (.complain _) h

end

/-- A fragment is what its production reads of the tokens from where it starts. -/
theorem gathers_fragment {depth : Nat} {p : Production}
    (hE : Obeys (Enters body depth))
    (ih : ∀ p x y, Enters body depth p x y → p.key x.ahead.current = true →
      Gathers tokens (Element.AllRead tokens) x y)
    (hf : p.isFragment = true) (hkey : p.key x.ahead.current = true)
    (h : p.body.Accepts (Enters body depth) x y) :
    Gathers tokens (Element.AllRead tokens) x y := by
  obtain ⟨f, k, g, rfl, hk, hbody, -, hg⟩ :=
    @makes_fragment (fun k => k.isFragment = false) (fun q => q.isKeyed = false) True
      (fun k _ hk => by simpa using (Bool.and_eq_true_iff.1 hk).1)
      p (fun q hq => by simpa using (Bool.and_eq_true_iff.1 (Bool.and_eq_true_iff.1 hq).1).2) hf
  intro hx hq
  rcases hbody with hbody | hbody
  · rw [hbody] at h
    obtain ⟨ts, z, hz, rfl, halone⟩ := accepts_inner_alone h
    have hsuffix := (Ahead.afterTrivia_suffix x.ahead).trans hx
    refine List.forall_mem_cons.2 ⟨.node (fun _ => ?_) ?_, ?_⟩
    · exact ⟨f, x.ahead.afterTrivia, z.ahead, hk, hsuffix, by simpa using hkey, depth + 1,
        show f.production.body.Accepts _ _ _ from hbody ▸ halone⟩
    · intro c hc
      exact gathers_of_makes hE ih hg hz hsuffix (by simp) c (List.mem_reverse.1 hc)
    · simp only [List.mem_append, List.mem_map]
      rintro e (⟨t, -, rfl⟩ | he)
      · exact .token t.kind t.text
      · exact hq e he
  · rw [hbody] at h
    obtain ⟨_, ⟨z, hz, rfl⟩, rfl⟩ := h
    refine List.forall_mem_cons.2 ⟨.node (fun _ => ?_) ?_, hq⟩
    · exact ⟨f, x.ahead, z.ahead, hk, hx, hkey, depth + 1,
        show f.production.body.Accepts _ _ _ from hbody ▸ ⟨_, ⟨z, hz, rfl⟩, rfl⟩⟩
    · intro c hc
      exact gathers_of_makes hE ih hg hz hx (by simp) c (List.mem_reverse.1 hc)

/-- The fragments at and below what a production reads are read from the tokens. -/
theorem gathers_of_enters {depth : Nat} {p : Production} (h : Enters body depth p x y)
    (hkey : p.key x.ahead.current = true) : Gathers tokens (Element.AllRead tokens) x y := by
  induction depth generalizing p x y with
  | zero => exact h.elim
  | succ depth ih =>
    have hE := Production.obeys depth
    have ih : ∀ p x y, Enters body depth p x y → p.key x.ahead.current = true →
        Gathers tokens (Element.AllRead tokens) x y := fun _ _ _ => ih
    by_cases hf : p.isFragment = true
    · exact gathers_fragment hE ih hf hkey h
    by_cases hl : p.isLevelled = true
    · exact gathers_of_makes hE ih
        (makes_levelled True.intro p (fun k hk => by simpa using (Bool.and_eq_true_iff.1 hk).1)
          (fun q hq => by simpa using (Bool.and_eq_true_iff.1 hq).1) hl) h
    cases hs : p.seesKey with
    | false =>
      refine gathers_of_makes hE ih (makes_body p
        (fun k _ hk => by simpa using (Bool.and_eq_true_iff.1 hk).1) (fun q hq => ?_)
        (by simpa using hf) (by simpa using hl)) h
      simp only [hs, Bool.or_false, Bool.and_eq_true] at hq
      simpa using hq.1.2
    | true =>
      cases p with
      | declarations => exact gathers_declarations hE ih h
      | attributes => exact gathers_attributes hE ih h
      | lhsUnary => exact gathers_lhsUnary hE ih h
      | _ => cases hs

end Grammar

end RuleLang
