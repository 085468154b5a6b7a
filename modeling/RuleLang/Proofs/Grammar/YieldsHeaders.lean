import RuleLang.Proofs.Element.RuleHeaders
import RuleLang.Proofs.Grammar.Notes
import RuleLang.Proofs.Grammar.YieldsClauses
import RuleLang.Proofs.Grammar.YieldsTypes
import RuleLang.Proofs.Lexer.Coverage

/-!
# Rule headers are read as they are meant

The tokens of a rule header are read as its nodes. A comma goes on with a list of strings if a
string comes after it, and it parts two attributes if a key comes after it; so what comes after an
attribute is told by one token or two. A key that is no keyword is noted, and nothing else is.

## Main definitions

* `Kind.isKey` — what an attribute may start with.
* `Ahead.AfterSetting` — what may come after an attribute.

## Main statements

* `Setting.ledNotes` — an attribute is read as its node.
* `SettingList.ledNotes` — attributes are read up to the conditions.
* `RuleHeader.notes_tree` — a text with such a rule is read as its tree.
-/

namespace RuleLang

open Grammar Element Ahead

/-- An attribute may start with a token of this kind. -/
def Kind.isKey (k : Kind) : Bool :=
  k == .ident || k.isAttributeKeyword && k != .attributesKw

/-- What may come after an attribute. -/
def Ahead.AfterSetting (a : Ahead) : Prop :=
  a.current = .whenKw ∨ a.current.isKey = true ∨ a.current = .comma ∧ (a.nth 1).isKey = true

theorem Ahead.Begins.afterSetting {a : Ahead} (h : Begins [] AfterSetting a) : AfterSetting a := by
  obtain ⟨rest, hkinds, hnext⟩ := h
  have hnth (n : Nat) : a.nth n = rest.nth n := by
    rw [nth_eq_getElem?, hkinds, List.nil_append, ← nth_eq_getElem?]
  rwa [AfterSetting, Ahead.current, hnth, hnth]

namespace Ahead.AfterSetting

variable {a : Ahead}

/-- What comes after an attribute is no value. -/
theorem current_notMem (h : AfterSetting a) :
    a.current ∉ [.stringLit, .intLit, .floatLit, .trueKw, .falseKw, .minus, .lParen] := by
  have hvalues : ∀ k ∈ [Kind.stringLit, .intLit, .floatLit, .trueKw, .falseKw, .minus, .lParen],
      k.isKey = false := by
    decide
  rcases h with h | h | ⟨h, -⟩
  · rw [h]
    decide
  · intro hmem
    rw [hvalues _ hmem] at h
    cases h
  · rw [h]
    decide

/-- A list of strings does not go on with what comes after an attribute. -/
theorem not_comma_string (h : AfterSetting a) :
    (a.isAt .comma && a.nth 1 == .stringLit) = false := by
  rcases h with h | h | ⟨h, hkey⟩
  · simp [isAt, h]
  · have hne : a.current ≠ .comma := by
      intro hcomma
      rw [hcomma] at h
      cases h
    simp [isAt, hne]
  · have hne : a.nth 1 ≠ .stringLit := by
      intro hstring
      rw [hstring] at hkey
      cases hkey
    simp [hne]

end Ahead.AfterSetting

theorem Kind.isSolid_of_isKey {k : Kind} (h : k.isKey = true) : k.isSolid = true := by
  cases k <;> first | rfl | cases h

theorem Kind.starts_of_isKey {k : Kind} (h : k.isKey = true) :
    k ≠ .attributesKw ∧ k ≠ .comma ∧ (k.isAttributeKeyword || k == .ident) = true := by
  cases k <;> first | decide | cases h

theorem AttributeKey.isKey (k : AttributeKey) : k.leaf.kind.isKey = true := by
  cases k with
  | known k h single =>
    have hkey : k.isKey = true := by simp [Kind.isKey, h, single]
    exact hkey
  | unknown => rfl

theorem AttributeKey.isSolid (k : AttributeKey) : k.leaf.kind.isSolid = true :=
  Kind.isSolid_of_isKey k.isKey

/-! ## Blanks -/

theorem Element.kindsOf_blanks (b : Blanks) (es : List Element) :
    kindsOf (b.elements ++ es) = kindsOf es :=
  kindsOf_lead b.isTrivia_elements es

/-- With blanks before the elements. -/
theorem Grammar.Gives.after {g : Rule} {next : Ahead → Prop} {es : List Element}
    (h : Gives g next es) (b : Blanks) : Yields g next (b.elements ++ es) :=
  h b.elements b.isTrivia_elements

theorem Grammar.LedNotes.after {g : Rule} {next : Ahead → Prop} {es : List Element}
    {cs : List Complaint} (h : LedNotes g next es cs) (b : Blanks) :
    Notes g next (b.elements ++ es) cs :=
  h b.elements b.isTrivia_elements

/-! ## Values -/

namespace SettingValue

/-- Strings with commas before them. -/
theorem yields_stringList (more : List (Blanks × Blanks × Quoted)) :
    Yields (.call .stringList) AfterSetting ((leavesAfter more).map Leaf.element) := by
  induction more with
  | nil => exact .call (Yields.skip.not_when fun a ha => ha.afterSetting.not_comma_string)
  | cons p more ih =>
    obtain ⟨b, c, q⟩ := p
    have hcomma : Gives bump (fun _ => True) [Kind.comma.leaf.element] := .bump Kind.comma.leaf rfl
    have hquoted : Gives bump (fun _ => True) [q.leaf.element] := .bump q.leaf rfl
    have htwo := (hcomma.after b).take_two (hquoted.after c) fun _ _ => trivial
    have hall := htwo.seq ih fun _ _ => trivial
    have hparts : (leavesAfter (⟨b, c, q⟩ :: more)).map Leaf.element =
        b.elements ++ [Kind.comma.leaf.element] ++ (c.elements ++ [q.leaf.element]) ++
          (leavesAfter more).map Leaf.element := by
      simp [leavesAfter_cons, Blanks.elements]
    rw [hparts]
    refine .call (hall.when fun a ha => ?_)
    rw [List.append_assoc, List.append_assoc, kindsOf_blanks, List.singleton_append,
      kindsOf_leaf rfl, List.append_assoc, kindsOf_blanks, List.singleton_append,
      kindsOf_leaf rfl] at ha
    rw [isAt, ha.current, ha.nth_one]
    rfl

/-- What the instruction for a value does is decided by the first tokens. -/
def choice (a : Ahead) : Rule :=
  match a.current with
  | .stringLit => inner .attributeValue (bump >> .call .stringList)
  | .intLit | .floatLit | .trueKw | .falseKw => inner .attributeValue bump
  | .minus =>
    if a.nth 1 == .intLit || a.nth 1 == .floatLit then inner .attributeValue (.take 2)
    else .skip
  | .lParen => inner .attributeValue balanced
  | _ => .skip

/-- What comes after an attribute is not taken for a value. -/
theorem choice_eq_skip {a : Ahead} (h : AfterSetting a) : choice a = .skip := by
  have hvalue := h.current_notMem
  unfold choice
  split <;> simp_all

/-- A value of one token. -/
theorem gives_single {l : Leaf} (hl : l.kind ∈ [.intLit, .floatLit, .trueKw, .falseKw]) :
    Gives (.look choice) AfterSetting [.node .attributeValue [l.element]] := by
  have hsolid : ∀ k ∈ [Kind.intLit, .floatLit, .trueKw, .falseKw], k.isSolid = true := by decide
  have hstarts := Starts.leaf (hsolid _ hl) []
  have hnode : Gives (inner .attributeValue bump) AfterSetting _ :=
    .inner (Gives.bump l (hsolid _ hl)).yields hstarts
  refine hnode.look fun a ha => ?_
  rw [← ha.current_of_first (hstarts.node _ []).first] at hl
  unfold choice
  split <;> simp_all

/-- A value is read as its node. -/
theorem gives (v : SettingValue) : Gives (.look choice) AfterSetting [v.shape] := by
  cases v with
  | strings first more =>
    have hnode : Gives (inner .attributeValue (bump >> .call .stringList)) AfterSetting _ :=
      .inner (Gives.bump_seq first.leaf rfl (yields_stringList more)).yields (.leaf rfl _)
    refine hnode.look fun a ha => ?_
    rw [choice, ha.current_of_first ((Starts.leaf (l := first.leaf) rfl _).node _ []).first]
    rfl
  | number n => exact gives_single (by rcases n.isNumber with h | h <;> simp [Numeral.leaf, h])
  | negative n =>
    have hsolid : n.leaf.kind.isSolid = true := by
      rcases n.isNumber with h | h <;> simp [Numeral.leaf, h] <;> rfl
    have hminus : Gives bump (fun _ => True) [Kind.minus.leaf.element] := .bump Kind.minus.leaf rfl
    have hnumber : Gives bump AfterSetting [n.leaf.element] := .bump n.leaf hsolid
    have htwo := hminus.yields.take_two hnumber.yields fun _ _ => trivial
    have hnode : Gives (inner .attributeValue (.take 2)) AfterSetting _ :=
      .inner htwo (Starts.leaf (l := Kind.minus.leaf) rfl _)
    refine hnode.look fun a ha => ?_
    rw [kindsOf_node, List.singleton_append, kindsOf_leaf rfl,
      kindsOf_leaf hsolid] at ha
    rw [choice, ha.current, ha.nth_one]
    rcases n.isNumber with h | h <;> simp [Numeral.leaf, h] <;> rfl
  | truth b => cases b <;> exact gives_single (by decide)

end SettingValue

/-! ## Attributes -/

namespace AttributeKey

/-- What is said about a key is decided by its token. -/
def remark (a : Ahead) : Rule :=
  match a.currentToken? with
  | some t => if t.kind == .ident then .complain (.unknownAttribute t.text) else .skip
  | none => .skip

/-- A key that is no keyword is noted. -/
theorem notes_remark (k : AttributeKey) {es : List Element} {next : Ahead → Prop} :
    Notes (.look remark) (Opens (k.leaf.element :: es) next) [] k.complaints := by
  have hremark {a : Ahead} (ha : Opens (k.leaf.element :: es) next a) : remark a =
      if k.leaf.kind == .ident then .complain (.unknownAttribute k.leaf.text) else .skip := by
    obtain ⟨t, ht, hleaf⟩ := ha.exists_currentToken? k.isSolid
    rw [remark, ht, ← hleaf]
    rfl
  cases hk : k with
  | known kind h single =>
    refine Yields.skip.notes.look fun a ha => ?_
    have hne : kind.leaf.kind ≠ .ident := by
      intro hident
      rw [show kind = .ident from hident] at h
      cases h
    rw [← hk] at ha
    rw [hremark (ha.nil rfl), if_neg (by simpa [hk, leaf] using hne)]
  | unknown n =>
    refine (Notes.complain rfl).look fun a ha => ?_
    rw [← hk] at ha
    rw [hremark (ha.nil rfl), hk]
    rfl

end AttributeKey

namespace Setting

theorem yields_valueParts (s : Setting) :
    Yields (.look SettingValue.choice) AfterSetting s.valueParts := by
  rw [valueParts]
  cases s.value with
  | none =>
    exact Yields.skip.look fun a ha => SettingValue.choice_eq_skip ha.afterSetting
  | some p => exact p.2.gives.after p.1.toBlanks

/-- An attribute is read as its node, and a key that is no keyword is noted. -/
theorem ledNotes (s : Setting) :
    LedNotes (.call .attribute) AfterSetting [s.shape] s.key.complaints := by
  have hread := Gives.bump_seq s.key.leaf s.key.isSolid s.yields_valueParts
  have hall := s.key.notes_remark.seq hread.yields.notes fun _ ha => ha
  rw [List.nil_append, List.append_nil] at hall
  exact .call (.inner hall (.leaf s.key.isSolid _))

theorem first_shape (s : Setting) (es : List Element) : First s.key.leaf.kind (s.shape :: es) :=
  ((Starts.leaf s.key.isSolid _).node .attribute es).first

end Setting

namespace SettingList

/-- A key comes after the separator. -/
theorem afterSetting {a : Ahead} {next : Ahead → Prop} (p : Separator × Setting) (es : List Element)
    (h : Begins (kindsOf (p.1.elements ++ p.2.shape :: es)) next a) : AfterSetting a := by
  obtain ⟨s, t⟩ := p
  obtain ⟨ks, hks⟩ := t.first_shape es
  have hkey := t.key.isKey
  cases s with
  | blanks g =>
    rw [Separator.elements, kindsOf_blanks, hks] at h
    exact .inr (.inl (by rwa [h.current]))
  | comma b c =>
    rw [Separator.elements, List.append_assoc, kindsOf_blanks, List.cons_append, kindsOf_leaf rfl,
      kindsOf_blanks, hks] at h
    exact .inr (.inr ⟨h.current, by rwa [h.nth_one]⟩)

/-- Attributes are read if those after the first are. -/
theorem ledNotes_of_more (first : Setting) {more : List (Separator × Setting)} {cs : List Complaint}
    (hmore : Notes (.call .attributes) (At [.whenKw])
      (elementsAfter more) cs) :
    LedNotes (.call .attributes) (At [.whenKw])
      (first.shape :: elementsAfter more)
      (first.key.complaints ++ cs) := by
  have hall := first.ledNotes.seq hmore fun a ha => by
    cases more with
    | nil => exact .inl (List.mem_singleton.1 ha.at)
    | cons p more =>
      rw [elementsAfter_cons] at ha
      exact afterSetting p _ ha
  refine .call (hall.look fun a ha => ?_)
  obtain ⟨hwhole, hcomma, hkey⟩ := Kind.starts_of_isKey first.key.isKey
  rw [← ha.current_of_first (first.first_shape _)] at hwhole hcomma hkey
  simp only [isAt, beq_eq_false_iff_ne.2 hwhole, beq_eq_false_iff_ne.2 hcomma, hkey,
    Bool.false_eq_true, if_false, if_true]
  rfl

theorem notes_more (more : List (Separator × Setting)) :
    Notes (.call .attributes) (At [.whenKw]) (elementsAfter more)
      (more.flatMap fun p => p.2.key.complaints) := by
  induction more with
  | nil =>
    have hnone : Yields (.call .attributes) (At [.whenKw]) [] :=
      .call (Yields.skip.look fun a ha => by
        simp only [isAt, List.mem_singleton.1 ha.at]
        rfl)
    exact hnone.notes
  | cons p more ih =>
    obtain ⟨s, t⟩ := p
    have hrest := ledNotes_of_more t ih
    rw [elementsAfter_cons, List.flatMap_cons]
    cases s with
    | blanks g => exact hrest.after g.toBlanks
    | comma b c =>
      have hcomma : Gives bump (fun _ => True) [Kind.comma.leaf.element] :=
        .bump Kind.comma.leaf rfl
      have hall := hcomma.notes.seq (hrest.after c) fun _ _ => trivial
      have htake : LedNotes (.call .attributes) (At [.whenKw]) _ _ :=
        .call (hall.look fun a ha => by
          simp only [isAt, ha.current_of_first (Starts.leaf (l := Kind.comma.leaf) rfl _).first]
          rfl)
      simpa [Separator.elements] using htake.after b

/-- Attributes are read as their nodes, one after the other. -/
theorem ledNotes (ss : SettingList) :
    LedNotes (.call .attributeList) (At [.whenKw]) [ss.shape]
      (ss.all.flatMap fun s => s.key.complaints) := by
  have hall := (ledNotes_of_more ss.first (notes_more ss.more)).notes
  rw [all, List.flatMap_cons, List.flatMap_map]
  exact .call (.inner hall ((Starts.leaf ss.first.key.isSolid _).node _ _))

theorem first_shape (ss : SettingList) : First ss.first.key.leaf.kind [ss.shape] :=
  (((Starts.leaf ss.first.key.isSolid _).node _ _).node .attributeList []).first

end SettingList

/-! ## Headers -/

theorem Title.isSolid (t : Title) : t.leaf.kind.isSolid = true := by
  cases t <;> rfl

/-- A name of a rule where one is asked for. -/
theorem Title.comes (t : Title) {a : Ahead} (h : a.current = t.leaf.kind) :
    (a.isAt .stringLit || a.atName) = true := by
  rw [isAt, atName, h]
  cases t <;> rfl

namespace RuleHeader

variable {next : Ahead → Prop}

theorem gives_title (t : Title) : Gives (.call (.declName .ruleName)) next [titleShape t] := by
  have hstarts := Starts.leaf t.isSolid []
  have hname : Gives (inner .ruleName bump) next [titleShape t] :=
    .inner (Gives.bump t.leaf t.isSolid).yields hstarts
  exact .call (hname.when fun a ha => t.comes (ha.current_of_first (hstarts.node _ []).first))

theorem gives_parent (g : Gap) (t : Title) : Gives (.call .parent) next [parentShape g t] := by
  have hname : Gives (when (fun a => a.isAt .stringLit || a.atName) bump
      (.complain .expectedParent)) next [t.leaf.element] :=
    (Gives.bump t.leaf t.isSolid).when fun a ha =>
      t.comes (ha.current_of_first (Starts.leaf t.isSolid []).first)
  exact .call (.inner (Gives.bump_seq Kind.extendsKw.leaf rfl (hname.after g.toBlanks)).yields
    (.leaf rfl _))

/-- What comes after the parent. -/
def rest (h : RuleHeader) : List Element :=
  h.settingsParts ++ (h.last.elements ++ ending)

theorem first_ending (h : RuleHeader) : First .whenKw (h.last.elements ++ ending) := by
  rw [First, kindsOf_blanks]
  exact (Clause.first_whenClause []).append _

/-- Attributes or the conditions come after the parent, and no annotations. -/
theorem exists_first_rest (h : RuleHeader) :
    ∃ k, First k h.rest ∧ .at ∉ [k] ∧ .extendsKw ∉ [k] := by
  have hkey : ∀ k : Kind, k.isKey = true → .at ∉ [k] ∧ .extendsKw ∉ [k] := by
    intro k hk
    cases k <;> first | decide | cases hk
  rw [rest, settingsParts]
  cases h.settings with
  | none => exact ⟨_, h.first_ending, by decide⟩
  | some p =>
    obtain ⟨g, ss⟩ := p
    refine ⟨_, ?_, hkey _ ss.first.key.isKey⟩
    rw [Option.map_some, Option.getD_some, First, List.append_assoc, kindsOf_blanks]
    exact ss.first_shape.append _

/-- Attributes, conditions and the consequence. -/
theorem notes_rest (h : RuleHeader) :
    Notes (.seq (when (fun a => a.current.isAttributeKeyword || a.isAt .ident)
          (.call .attributeList)) <|
        .seq (whenAt .whenKw .skip
          (fail (.expectedToken .whenKw) >> recoverTo [.whenKw, .thenKw])) <|
        .seq (whenAt .whenKw (.call .whenClause)) <|
        .seq (whenAt .thenKw .skip (fail (.expectedToken .thenKw) >> recoverTo [.thenKw])) <|
        .seq (whenAt .thenKw (.call .thenClause)) (.call (.blockEnd .rule) >> .lineTrivia)) Done
      h.rest (h.attributes.flatMap fun s => s.key.complaints) := by
  have hending := ((Clause.gives_clauses (List.forall_mem_nil _)).after h.last.toBlanks).notes
  rw [rest, settingsParts, attributes]
  cases h.settings with
  | none =>
    have hnone : Yields (when (fun a => a.current.isAttributeKeyword || a.isAt .ident)
        (.call .attributeList)) (At [.whenKw]) [] :=
      Yields.skip.not_when fun a ha => by simp [isAt, List.mem_singleton.1 ha.at]; rfl
    exact hending.nil_seq hnone fun a ha =>
      ha.at_of_first h.first_ending (List.mem_singleton_self _)
  | some p =>
    obtain ⟨g, ss⟩ := p
    have hlist : LedNotes (when (fun a => a.current.isAttributeKeyword || a.isAt .ident)
        (.call .attributeList)) (At [.whenKw]) [ss.shape] _ := ss.ledNotes.when fun a ha => by
      rw [isAt, ha.current_of_first ss.first_shape]
      exact (Kind.starts_of_isKey ss.first.key.isKey).2.2
    have hall := (hlist.after g.toBlanks).seq hending fun a ha =>
      ha.begins.at_of_first h.first_ending (List.mem_singleton_self _)
    rwa [List.append_nil] at hall

/-- The parent and what comes after it. -/
theorem notes_parent (h : RuleHeader) {g : Rule} {cs : List Complaint}
    (hrest : Notes g Done h.rest cs) :
    Notes (.seq (whenAt .extendsKw (.call .parent)) <| .seq (.call .annotations) g) Done
      (h.parentParts ++ h.rest) cs := by
  obtain ⟨k, hfirst, hat, hextends⟩ := h.exists_first_rest
  have hhere (a : Ahead) (ha : Begins (kindsOf h.rest) Done a) : At [k] a :=
    ha.at_of_first hfirst (List.mem_singleton_self k)
  have hannotations : Yields (.call .annotations) (At [k]) [] := .call (.absent hat)
  have hall := hrest.nil_seq hannotations hhere
  rw [parentParts]
  cases h.parent with
  | none => exact hall.nil_seq (.absent hextends) hhere
  | some p =>
    obtain ⟨g, g', t⟩ := p
    have hstart : First .extendsKw [parentShape g' t] :=
      ((Starts.leaf (l := Kind.extendsKw.leaf) rfl _).node .ruleExtends []).first
    have hparent : Gives (whenAt .extendsKw (.call .parent)) (fun _ => True) [parentShape g' t] :=
      (gives_parent g' t).when_at hstart
    exact (hparent.after g.toBlanks).notes.seq hall fun _ _ => trivial

/-- A rule is read as its node, and the keys that are no keywords are noted. -/
theorem notes_shape (h : RuleHeader) :
    Notes (.call .ruleDecl) Done [h.shape] (h.attributes.flatMap fun s => s.key.complaints) := by
  have htitle : Yields (.call (.declName .ruleName)) (fun _ => True) _ :=
    (gives_title h.title.2).after h.title.1.toBlanks
  have hword : Gives bump (fun _ => True) [Kind.ruleKw.leaf.element] := .bump Kind.ruleKw.leaf rfl
  have hnamed := htitle.notes.seq (h.notes_parent h.notes_rest) fun _ _ => trivial
  have hall := hword.notes.notes.seq hnamed fun _ _ => trivial
  rw [List.append_assoc, List.singleton_append, List.singleton_append] at hall
  exact .call hall.node

/-- A text with such a rule is read as its tree, and the keys that are no keywords are noted. -/
theorem notes_tree (h : RuleHeader) :
    Notes (.call .compilationUnit) Done [h.tree] (h.attributes.flatMap fun s => s.key.complaints) :=
  .file rfl (fun a ha => by rw [ha]; rfl) h.notes_shape
    ((Starts.leaf (l := Kind.ruleKw.leaf) rfl _).node .ruleDecl []).first

end RuleHeader

end RuleLang
