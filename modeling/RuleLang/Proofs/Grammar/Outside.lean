import RuleLang.Proofs.Grammar.Builds
import RuleLang.Proofs.Grammar.Gathers

/-!
# What stands in comparisons and in functions

Whatever is wrong with a text, the productions for expressions make neither consequences nor
functions, and only they make comparisons without left operand. Functions have nothing but a head
and raw tokens. So what is read never nests these the other way round.

## Main definitions

* `Element.Within` — all nodes at or below the nodes of some kind have a property.
* `Element.AttributesApart` — no attribute stands below an attribute or in a clause.

## Main statements

* `Grammar.Makes.allNodes_of_reads` — what holds of all nodes that an instruction makes.
* `within_half_parse` — comparisons without left operand hold no consequence and no function.
* `within_function_parse` — functions hold no attribute and no joined conditions.
* `attributesApart_parse` — neither do the clauses of a rule nor its attributes hold an attribute.
-/

namespace RuleLang

open Grammar

/-- Nodes below which no attribute stands: attributes and the clauses of a rule. -/
def Kind.endsAttributes : Kind → Bool
  | .attribute | .whenClause | .thenClause => true
  | _ => false

namespace Element

mutual

theorem nodes_subset {n : Element} : (e : Element) → n ∈ e.nodes → n.nodes ⊆ e.nodes
  | .token _ _, h => by simp [nodes] at h
  | .node k cs, h => by
    rw [nodes, List.mem_cons] at h
    rcases h with rfl | h
    · exact List.Subset.refl _
    · exact List.Subset.trans (nodes_subset_of_nodesOf cs h) (List.subset_cons_self _ _)

theorem nodes_subset_of_nodesOf {n : Element} :
    (es : List Element) → n ∈ nodesOf es → n.nodes ⊆ nodesOf es
  | [], h => by simp [nodesOf] at h
  | e :: es, h => by
    rw [nodesOf, List.mem_append] at h
    rcases h with h | h
    · exact List.Subset.trans (nodes_subset e h) (List.subset_append_left _ _)
    · exact List.Subset.trans (nodes_subset_of_nodesOf es h) (List.subset_append_right _ _)

end

variable {Q : Element → Prop} {es : List Element}

theorem allNodes_singleton {e : Element} : AllNodes Q [e] ↔ ∀ n ∈ e.nodes, Q n := by
  rw [AllNodes, nodesOf, nodesOf, List.append_nil]

/-- All nodes at or below the nodes of a kind have a property. -/
def Within (k : Kind) (Q : Element → Prop) (es : List Element) : Prop :=
  AllNodes (fun n => n.kind = k → AllNodes Q [n]) es

theorem AllNodes.within (h : AllNodes Q es) (k : Kind) : Within k Q es :=
  fun _ hn _ => allNodes_singleton.2 fun m hm => h m (nodes_subset_of_nodesOf es hn hm)

/-- No attribute stands below an attribute or in a clause of a rule. -/
def AttributesApart (es : List Element) : Prop :=
  AllNodes (fun n => n.kind.endsAttributes = true →
    AllNodes (fun m => m.kind ≠ .attribute) n.children) es

/-- A consequence or a function. -/
def IsForeign (n : Element) : Prop :=
  n.kind.hidesOperators = true

/-- A node that is neither a fragment nor asks anything of its parts. -/
def IsPlain (n : Element) : Prop :=
  n.kind.isGraded = false ∧ n.kind.isFragment = false

end Element

namespace Grammar

open Element

variable {Q : Element → Prop} {s t : Reading} {g : Rule} {kinds : Kind → Prop}
  {calls : Production → Prop}

theorem Makes.of_group (h : Makes kinds calls True (.group g)) : Makes kinds calls True g := by
  cases h with
  | group h => exact h
  | node hk h => exact .enclose trivial hk h

theorem Makes.of_inner {k : Kind} (h : Makes kinds calls True (.inner k g)) :
    Makes kinds calls True g := by
  cases h with
  | seq _ h => cases h.of_group with
    | enclose _ _ h => exact h

/-- What holds of all nodes that an instruction makes itself, if the productions that it enters make
no others or see to it in another way. -/
theorem Makes.allNodes_of_reads (hkinds : ∀ k cs, kinds k → Q (.node k cs))
    (hcalls : ∀ p, calls p → Makes kinds calls True p.body ∨
      ∀ s t, Reads Production.body p.body s t → AllNodes Q s.group → AllNodes Q t.group)
    (h : Reads Production.body g s t) (hg : Makes kinds calls True g)
    (hs : AllNodes Q s.group) : AllNodes Q t.group := by
  induction h with
  | skip | recovered => exact hs
  | trivia s => exact s.takes_takeTrivia.allNodes hs
  | lineTrivia s => exact s.takes_takeLineTrivia.allNodes hs
  | take n s => exact (s.takes_bumps n).allNodes hs
  | complain c s => rwa [Reading.group_complain]
  | seq _ _ ihf ihg =>
    cases hg with
    | seq hf hg => exact ihg hg (ihf hf hs)
  | look _ ih =>
    cases hg with
    | look hg => exact ih (hg _) hs
  | ifRecovering _ ih =>
    cases hg with
    | ifRecovering hf hg => exact ih (.ite hf hg) hs
  | call h ih =>
    cases hg with
    | call hp => exact (hcalls _ hp).elim (fun hbody => ih hbody hs) fun hbody => hbody _ _ h hs
  | group _ ih => exact allNodes_append.2 ⟨ih hg.of_group .nil, hs⟩
  | enclose _ ih =>
    cases hg with
    | enclose _ hk hg => exact allNodes_node.2 ⟨hkinds _ _ hk, allNodes_reverse.2 (ih hg hs)⟩

theorem not_expression_of_isFragment {p : Production} (h : p.isFragment = true) :
    p.isExpression = false := by
  cases p <;> first | rfl | cases h

/-- What a production makes, told by what it may make and enter. -/
theorem makes_of_may {p : Production} (hk : ∀ k, p.mayMake k = true → kinds k)
    (hc : ∀ q, p.mayEnter q = true → calls q) : Makes kinds calls True p.body := by
  by_cases hf : p.isFragment = true
  · have hexpression := not_expression_of_isFragment hf
    have hmake {k : Kind} (hgraded : k.isGraded = false) (h : k.maker?.all (· == p) = true) :
        kinds k := by
      have hhalf : k ≠ .halfConstraint := by
        rintro rfl
        cases hgraded
      exact hk k (by simp only [Production.mayMake, hexpression, bne_iff_ne.2 hhalf, h]; rfl)
    obtain ⟨f, k, g, rfl, hkind, hbody, hgraded, hg⟩ := @makes_fragment kinds calls True
      (fun k hgraded h => hmake hgraded (by
        rw [Option.isNone_iff_eq_none.1 (Bool.and_eq_true_iff.1 h).2]; rfl)) p
      (fun q hq => hc q (Bool.and_eq_true_iff.1 hq).2) hf
    have hself : kinds k := hmake hgraded (by cases f <;> cases hkind <;> rfl)
    rcases hbody with hbody | hbody
    · exact hbody ▸ .inner hself hg
    · exact hbody ▸ .node hself hg
  cases hl : p.isLevelled with
  | true =>
    exact makes_levelled trivial p (fun k h => hk k (Bool.and_eq_true_iff.1 h).2)
      (fun q h => hc q (Bool.and_eq_true_iff.1 h).2) hl
  | false =>
    exact makes_body p (fun k _ h => hk k (Bool.and_eq_true_iff.1 h).2)
      (fun q h => hc q (Bool.and_eq_true_iff.1 h).2) (by simpa using hf) hl

/-! ## Comparisons without left operand -/

/-- What a production for expressions makes. -/
theorem makes_expression {p : Production} (hp : p.isExpression = true) :
    Makes (fun k => k.hidesOperators = false) (fun q => q.isExpression = true) True p.body := by
  refine makes_of_may (fun k h => ?_) fun q h => ?_
  · rw [Production.mayMake, if_pos hp] at h
    simpa using (Bool.and_eq_true_iff.1 h).1
  · rw [Production.mayEnter, if_pos hp] at h
    exact (Bool.and_eq_true_iff.1 (Bool.and_eq_true_iff.1 h).1).1

/-- What a production for expressions reads holds no consequence and no function. -/
theorem not_foreign_of_expression (h : Reads Production.body g s t)
    (hg : Makes (fun k => k.hidesOperators = false) (fun q => q.isExpression = true) True g)
    (hs : AllNodes (fun n => ¬n.IsForeign) s.group) :
    AllNodes (fun n => ¬n.IsForeign) t.group :=
  Makes.allNodes_of_reads (fun _ _ hk => Bool.eq_false_iff.1 hk)
    (fun _ hp => .inl (makes_expression hp)) h hg hs

/-- An expression that needs nothing that was read before changes nothing of it. -/
theorem within_half_of_expression (h : Reads Production.body g s t)
    (hg : Makes (fun k => k.hidesOperators = false) (fun q => q.isExpression = true) True g)
    (hn : Nests false g) (hs : Within .halfConstraint (fun n => ¬n.IsForeign) s.group) :
    Within .halfConstraint (fun n => ¬n.IsForeign) t.group := by
  induction h with
  | skip | recovered => exact hs
  | trivia s => exact s.takes_takeTrivia.allNodes hs
  | lineTrivia s => exact s.takes_takeLineTrivia.allNodes hs
  | take n s => exact (s.takes_bumps n).allNodes hs
  | complain c s => rwa [Reading.group_complain]
  | seq _ _ ihf ihg =>
    cases hg with
    | seq hf hg =>
      cases hn with
      | seq hnf hng => exact ihg hg hng (ihf hf hnf hs)
  | look _ ih =>
    cases hg with
    | look hg =>
      cases hn with
      | look hn => exact ih (hg _) (hn _) hs
  | ifRecovering _ ih =>
    cases hg with
    | ifRecovering hf hg =>
      cases hn with
      | ifRecovering hnf hng => exact ih (.ite hf hg) (.ite hnf hng) hs
  | @call p _ _ _ ih =>
    cases hg with
    | call hp =>
      cases hn with
      | call hn =>
        have hcontinues : p.continues = false := by simpa using hn
        exact ih (makes_expression hp) (hcontinues ▸ nests_body p) hs
  | group h _ =>
    exact allNodes_append.2 ⟨(not_foreign_of_expression h hg.of_group .nil).within _, hs⟩
  | enclose => cases hn

theorem continues_of_isSelfContained {p : Production} (h : p.isSelfContained = true) :
    p.continues = false := by
  cases p <;> first | rfl | cases h

/-- What a production makes that stands in no expression. -/
theorem makes_outside {p : Production} (hp : p.isExpression = false) :
    Makes (fun k => k ≠ .halfConstraint) (fun q => q.isSelfContained = true) True p.body := by
  refine makes_of_may (fun k h => ?_) fun q h => ?_
  · rw [Production.mayMake, if_neg (by simp [hp])] at h
    simpa using (Bool.and_eq_true_iff.1 h).1
  · rw [Production.mayEnter, if_neg (by simp [hp])] at h
    exact (Bool.and_eq_true_iff.1 (Bool.and_eq_true_iff.1 h).1).1

/-- In what is read, comparisons without left operand hold no consequence and no function. -/
theorem within_half_of_reads (h : Reads Production.body g s t)
    (hg : Makes (fun k => k ≠ .halfConstraint) (fun q => q.isSelfContained = true) True g)
    (hs : Within .halfConstraint (fun n => ¬n.IsForeign) s.group) :
    Within .halfConstraint (fun n => ¬n.IsForeign) t.group := by
  refine Makes.allNodes_of_reads (fun k cs hk hhalf => absurd hhalf hk) (fun p hq => ?_) h hg hs
  cases hp : p.isExpression with
  | false => exact .inl (makes_outside hp)
  | true =>
    have hn : Nests false p.body := continues_of_isSelfContained hq ▸ nests_body p
    exact .inr fun _ _ h hs => within_half_of_expression h (makes_expression hp) hn hs

/-! ## Functions -/

/-- What stands in the head of a function. -/
theorem makes_signature {p : Production} (hp : p.isSignature = true) :
    Makes (fun k => k.isGraded = false ∧ k.isFragment = false) (fun q => q.isSignature = true)
      True p.body := by
  refine makes_body p (fun k hgraded h => ⟨hgraded, ?_⟩) (fun q h => ?_) ?_ ?_
  · simpa using (Bool.and_eq_true_iff.1 h).1
  · have h := (Bool.and_eq_true_iff.1 (Bool.and_eq_true_iff.1 h).2).1
    simpa [hp] using (Bool.and_eq_true_iff.1 h).2
  all_goals cases p <;> first | rfl | cases hp

theorem within_function_of_reads (h : Reads Production.body g s t)
    (hg : Makes (fun k => k ≠ .functionDecl) (fun _ => True) True g)
    (hs : Within .functionDecl IsPlain s.group) : Within .functionDecl IsPlain t.group := by
  refine Makes.allNodes_of_reads (fun k cs hk hfunction => absurd hfunction hk) (fun p _ => ?_) h hg
    hs
  by_cases hp : p = .functionDecl
  · subst hp
    refine .inr fun s t h hs => ?_
    have hg : Makes _ _ True (Production.functionDecl).body := makes_signature rfl
    change Reads _ (.group _) s t at h
    cases h with
    | group h =>
      have hplain : AllNodes IsPlain _ :=
        Makes.allNodes_of_reads (fun _ _ hk => hk) (fun _ hp => .inl (makes_signature hp)) h
          (Makes.of_group hg) .nil
      exact allNodes_append.2 ⟨hplain.within _, hs⟩
  · refine .inl (makes_of_may (fun k h => ?_) fun _ _ => trivial)
    rintro rfl
    exact hp (Production.eq_of_maker rfl h).symm

/-! ## Attributes -/

/-- What a production makes that leads to no attribute. -/
theorem makes_unattributed {p : Production} (hp : p.readsAttributes = false) :
    Makes (fun k => k ≠ .attribute) (fun q => q.readsAttributes = false) True p.body := by
  refine makes_of_may (fun k h => ?_) fun q h => ?_
  · rintro rfl
    rw [← Production.eq_of_maker rfl h] at hp
    cases hp
  · have hholds : p.holdsAttributes = false := by
      cases p <;> first | rfl | cases hp
    simpa [hholds] using (Bool.and_eq_true_iff.1 h).2

theorem apart_of_node {k : Kind} (h : Reads Production.body (.node k g) s t)
    (hg : Makes (fun k => k ≠ .attribute) (fun q => q.readsAttributes = false) True g)
    (hs : AttributesApart s.group) : AttributesApart t.group := by
  cases h with
  | group h => cases h with
    | @enclose _ _ _ u h =>
      have hbelow : AllNodes (fun n => n.kind ≠ .attribute) u.group.reverse :=
        allNodes_reverse.2 (Makes.allNodes_of_reads (fun _ _ hk => hk)
          (fun _ hp => .inl (makes_unattributed hp)) h hg .nil)
      refine allNodes_append.2 ⟨allNodes_node.2 ⟨fun _ => hbelow, fun n hn _ => ?_⟩, hs⟩
      cases n with
      | token => exact .nil
      | node j cs =>
        exact fun m hm => hbelow m (nodes_subset_of_nodesOf _ hn (List.mem_cons_of_mem _ hm))

theorem apart_of_inner {k : Kind} (h : Reads Production.body (.inner k g) s t)
    (hg : Makes (fun k => k ≠ .attribute) (fun q => q.readsAttributes = false) True g)
    (hs : AttributesApart s.group) : AttributesApart t.group := by
  cases h with
  | seq htrivia hnode =>
    cases htrivia
    exact apart_of_node hnode hg (s.takes_takeTrivia.allNodes hs)

/-- In what is read, no attribute stands below an attribute or in a clause. -/
theorem attributesApart_of_reads (h : Reads Production.body g s t)
    (hg : Makes (fun k => k.endsAttributes = false) (fun _ => True) True g)
    (hs : AttributesApart s.group) : AttributesApart t.group := by
  refine Makes.allNodes_of_reads
    (fun k cs hk (hends : k.endsAttributes = true) => absurd (hk.symm.trans hends) nofun)
    (fun p _ => ?_) h hg hs
  by_cases hclause : p = .whenClause ∨ p = .thenClause
  · have hread : p.readsAttributes = false := by rcases hclause with rfl | rfl <;> rfl
    have hinner : ∃ k g, p.body = .inner k g := by
      rcases hclause with rfl | rfl <;> exact ⟨_, _, rfl⟩
    obtain ⟨k, g, hbody⟩ := hinner
    have hg := hbody ▸ makes_unattributed hread
    exact .inr fun s t h hs => apart_of_inner (hbody ▸ h) hg.of_inner hs
  by_cases hp : p = .attribute
  · subst hp
    have hkinds {k : Kind} (hk : (!k.isFragment && k.maker?.isNone) = true) : k ≠ .attribute := by
      rintro rfl
      cases hk
    have hcalls {q : Production} (hq : Production.mayEnter .attribute q = true) :
        q.readsAttributes = false := by
      simpa [Production.holdsAttributes] using (Bool.and_eq_true_iff.1 hq).2
    obtain ⟨-, k, g, -, -, hbody, -, hg⟩ := @makes_fragment (fun k => k ≠ .attribute)
      (fun q => q.readsAttributes = false) True (fun _ _ => hkinds) .attribute
      (fun _ hq => hcalls (Bool.and_eq_true_iff.1 hq).2) rfl
    refine .inr fun s t h hs => ?_
    rcases hbody with hbody | hbody
    · exact apart_of_inner (hbody ▸ h) hg hs
    · exact apart_of_node (hbody ▸ h) hg hs
  · refine .inl (makes_of_may (fun k h => ?_) fun _ _ => trivial)
    rw [not_or] at hclause
    cases k with
    | whenClause => exact absurd (Production.eq_of_maker rfl h).symm hclause.1
    | thenClause => exact absurd (Production.eq_of_maker rfl h).symm hclause.2
    | «attribute» => exact absurd (Production.eq_of_maker rfl h).symm hp
    | _ => rfl

end Grammar

/-! ## Texts -/

theorem exists_reads_parse (source : List Char) (limit : Option Nat) :
    ∃ t, Reads Production.body (.call .compilationUnit) (.start (lex source).tokens limit) t ∧
      t.group = [(parse source limit).root] := by
  obtain ⟨t, ht, -⟩ := Production.exists_read? .compilationUnit limit (lex source).tokens nofun
  obtain ⟨-, helements, -⟩ := parse_leaves source limit
  rw [Production.read, ht, Option.getD_some, Reading.elements] at helements
  refine ⟨t, reads_of_enter ht, ?_⟩
  rw [← List.reverse_reverse t.group, helements]
  rfl

/-- In the tree of a text, no consequence and no function stands in a comparison without left
operand. -/
theorem within_half_parse (source : List Char) (limit : Option Nat) :
    Element.Within .halfConstraint (fun n => ¬n.IsForeign) [(parse source limit).root] := by
  obtain ⟨t, h, ht⟩ := exists_reads_parse source limit
  rw [← ht]
  exact within_half_of_reads h (.call rfl) .nil

/-- In the tree of a text, no attribute and no joined conditions stand in a function. -/
theorem within_function_parse (source : List Char) (limit : Option Nat) :
    Element.Within .functionDecl Element.IsPlain [(parse source limit).root] := by
  obtain ⟨t, h, ht⟩ := exists_reads_parse source limit
  rw [← ht]
  exact within_function_of_reads h (.call trivial) .nil

/-- In the tree of a text, no attribute stands below an attribute or in a clause. -/
theorem attributesApart_parse (source : List Char) (limit : Option Nat) :
    Element.AttributesApart [(parse source limit).root] := by
  obtain ⟨t, h, ht⟩ := exists_reads_parse source limit
  rw [← ht]
  exact attributesApart_of_reads h (.call trivial) .nil

/-- The node that is read of a fragment is among the elements that its production reads. -/
theorem Fragment.mem_of_read {f : FragmentKind} {text : List Char} {e : Element}
    (h : Fragment.read f text = .ok e) :
    e ∈ (f.production.read none (lex text).tokens).elements := by
  simp only [Fragment.read] at h
  repeat' split at h
  all_goals cases h
  rename_i hfind _
  exact List.mem_of_find?_eq_some hfind

/-- A text that is read as an expression is read without consequences and functions. -/
theorem not_foreign_of_read {text : List Char} {e : Element}
    (h : Fragment.read .expression text = .ok e) :
    Element.AllNodes (fun n => ¬n.IsForeign) [e] := by
  obtain ⟨t, ht, -⟩ := Production.exists_read? .expr none (lex text).tokens nofun
  have hgroup := not_foreign_of_expression (reads_of_enter ht) (.call rfl) .nil
  have he := Fragment.mem_of_read h
  rw [FragmentKind.production, Production.read, ht, Option.getD_some, Reading.elements] at he
  exact Element.allNodes_singleton.2 fun n hn =>
    hgroup n (Element.mem_nodesOf.2 ⟨e, List.mem_reverse.1 he, hn⟩)

end RuleLang
