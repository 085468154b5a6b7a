import RuleLang.Ast.Declarations
import RuleLang.Grammar.Complaint
import RuleLang.Proofs.Element.TypeDeclarations
import RuleLang.Proofs.Lexer.Concat

/-!
# Rule headers as text and as elements

The header of a rule, apart from the blanks and commas in it: a name, a parent perhaps, and
attributes with keys and values. It is written with any blanks between its words and with a comma between two
attributes or none, and it is read as a node whose typed view has all that it was made of.

## Main definitions

* `Blanks`, `Gap` — blanks and line breaks, and at least one of them.
* `Quoted`, `Title`, `Numeral` — string literals, names of rules, and numbers.
* `Setting` — an attribute: a key, and a value or none.
* `RuleHeader` — a header with all its blanks.
* `RuleHeader.source` — the text of a rule with the header.
* `RuleHeader.tree` — the tree that it is read as.

## Main statements

* `RuleHeader.text_tree` — the text of the tree is that of the rule.
* `RuleHeader.name?_view`, `RuleHeader.parent?_view`, `RuleHeader.attributes_view` — what the typed
  view of the node tells.
-/

namespace RuleLang

open Element

/-! ## Words and blanks -/

/-- Blanks and line breaks, or nothing. -/
structure Blanks where
  text : List Char
  isBlank : ∀ c ∈ text, Text.isBlank c = true

/-- Blanks and line breaks, at least one. -/
structure Gap extends Blanks where
  ne_nil : text ≠ []

namespace Blanks

/-- The tokens of the blanks. -/
def leaves (b : Blanks) : List Leaf :=
  (lex b.text).tokens.dropLast.map Token.leaf

def elements (b : Blanks) : List Element :=
  b.leaves.map Leaf.element

end Blanks

/-- A text between two equal quotes that is closed by the second one. -/
structure Quoted where
  quote : Char
  content : List Char
  isQuote : quote = '"' ∨ quote = '\x27'
  closes : Lexeme.stringRest quote (content ++ [quote]) = (content.length + 1, true)

namespace Quoted

def text (q : Quoted) : List Char :=
  q.quote :: (q.content ++ [q.quote])

def leaf (q : Quoted) : Leaf :=
  ⟨.stringLit, q.text⟩

end Quoted

/-- The name of a rule. -/
inductive Title where
  | quoted (q : Quoted)
  | plain (n : Identifier)

namespace Title

def leaf : Title → Leaf
  | .quoted q => q.leaf
  | .plain n => n.leaf

/-- The name, apart from the quotes. -/
def name : Title → List Char
  | .quoted q => q.content
  | .plain n => n.text

end Title

/-- A text that is one number. -/
structure Numeral where
  text : List Char
  kind : Kind
  isDigit : text.head?.any Char.isDigit = true
  whole : Lexeme.numberLength text = (text.length, kind)

namespace Numeral

def leaf (n : Numeral) : Leaf :=
  ⟨n.kind, n.text⟩

theorem isNumber (n : Numeral) : n.kind = .intLit ∨ n.kind = .floatLit := by
  have h := Lexeme.kind_number n.text
  rwa [n.whole] at h

end Numeral

/-! ## Attributes -/

/-- The key of an attribute. -/
inductive AttributeKey where
  | known (k : Kind) (isKey : k.isAttributeKeyword = true) (single : k ≠ .attributesKw)
  | unknown (n : Identifier)

namespace AttributeKey

def leaf : AttributeKey → Leaf
  | .known k _ _ => k.leaf
  | .unknown n => n.leaf

def isKnown : AttributeKey → Bool
  | .known _ _ _ => true
  | .unknown _ => false

/-- What is to be said about the key. -/
def complaints : AttributeKey → List Complaint
  | .known _ _ _ => []
  | .unknown n => [.unknownAttribute n.text]

end AttributeKey

/-- The value of an attribute. -/
inductive SettingValue where
  /-- String literals with commas between them, and blanks around the commas. -/
  | strings (first : Quoted) (more : List (Blanks × Blanks × Quoted))
  | number (n : Numeral)
  | negative (n : Numeral)
  | truth (b : Bool)

namespace SettingValue

/-- String literals with commas before them. -/
def leavesAfter (more : List (Blanks × Blanks × Quoted)) : List Leaf :=
  more.flatMap fun (b, c, q) => b.leaves ++ Kind.comma.leaf :: (c.leaves ++ [q.leaf])

theorem leavesAfter_cons (b c : Blanks) (q : Quoted) (more : List (Blanks × Blanks × Quoted)) :
    leavesAfter ((b, c, q) :: more) =
      b.leaves ++ Kind.comma.leaf :: (c.leaves ++ q.leaf :: leavesAfter more) := by
  simp [leavesAfter]

def leaves : SettingValue → List Leaf
  | .strings first more => first.leaf :: leavesAfter more
  | .number n => [n.leaf]
  | .negative n => [Kind.minus.leaf, n.leaf]
  | .truth b => [if b then Kind.trueKw.leaf else Kind.falseKw.leaf]

def text : SettingValue → List Char
  | .strings first more => first.text ++ more.flatMap fun (b, c, q) =>
      b.text ++ ',' :: c.text ++ q.text
  | .number n => n.text
  | .negative n => '-' :: n.text
  | .truth b => (if b then "true" else "false").toList

def shape (v : SettingValue) : Element :=
  .node .attributeValue (v.leaves.map Leaf.element)

end SettingValue

/-- An attribute. -/
structure Setting where
  key : AttributeKey
  value : Option (Gap × SettingValue)

namespace Setting

def text (s : Setting) : List Char :=
  s.key.leaf.text ++ (s.value.map fun (g, v) => g.text ++ v.text).getD []

def valueParts (s : Setting) : List Element :=
  (s.value.map fun (g, v) => g.elements ++ [v.shape]).getD []

def shape (s : Setting) : Element :=
  .node .attribute (s.key.leaf.element :: s.valueParts)

end Setting

/-- What stands between two attributes. -/
inductive Separator where
  | blanks (g : Gap)
  | comma (before after : Blanks)

namespace Separator

def text : Separator → List Char
  | .blanks g => g.text
  | .comma b c => b.text ++ ',' :: c.text

def elements : Separator → List Element
  | .blanks g => g.elements
  | .comma b c => b.elements ++ Kind.comma.leaf.element :: c.elements

end Separator

/-- Attributes one after the other. -/
structure SettingList where
  first : Setting
  more : List (Separator × Setting)

namespace SettingList

def all (ss : SettingList) : List Setting :=
  ss.first :: ss.more.map Prod.snd

def text (ss : SettingList) : List Char :=
  ss.first.text ++ ss.more.flatMap fun (s, a) => s.text ++ a.text

/-- Attributes with separators before them. -/
def elementsAfter (more : List (Separator × Setting)) : List Element :=
  more.flatMap fun (s, a) => s.elements ++ [a.shape]

theorem elementsAfter_cons (p : Separator × Setting) (more : List (Separator × Setting)) :
    elementsAfter (p :: more) = p.1.elements ++ p.2.shape :: elementsAfter more := by
  simp [elementsAfter]

def elements (ss : SettingList) : List Element :=
  ss.first.shape :: elementsAfter ss.more

def shape (ss : SettingList) : Element :=
  .node .attributeList ss.elements

end SettingList

/-! ## Headers -/

structure RuleHeader where
  title : Gap × Title
  parent : Option (Gap × Gap × Title)
  settings : Option (Gap × SettingList)
  last : Gap

namespace RuleHeader

/-- The attributes, if there are any. -/
def attributes (h : RuleHeader) : List Setting :=
  (h.settings.map fun (_, ss) => ss.all).getD []

/-- ` extends parent`, if there is one. -/
def parentText (h : RuleHeader) : List Char :=
  (h.parent.map fun (g, g', t) =>
    g.text ++ Kind.extendsKw.leaf.text ++ g'.text ++ t.leaf.text).getD []

def settingsText (h : RuleHeader) : List Char :=
  (h.settings.map fun (g, ss) => g.text ++ ss.text).getD []

/-- The text of a rule with the header, without conditions and with an empty consequence. -/
def source (h : RuleHeader) : List Char :=
  Kind.ruleKw.leaf.text ++ h.title.1.text ++ h.title.2.leaf.text ++ h.parentText ++
    h.settingsText ++ h.last.text ++ "when then end".toList

def titleShape (t : Title) : Element :=
  .node .ruleName [t.leaf.element]

def parentShape (g : Gap) (t : Title) : Element :=
  .node .ruleExtends (Kind.extendsKw.leaf.element :: (g.elements ++ [t.leaf.element]))

def parentParts (h : RuleHeader) : List Element :=
  (h.parent.map fun (g, g', t) => g.elements ++ [parentShape g' t]).getD []

def settingsParts (h : RuleHeader) : List Element :=
  (h.settings.map fun (g, ss) => g.elements ++ [ss.shape]).getD []

/-- What comes after the header. -/
def ending : List Element :=
  [Clause.whenClause [], Leaf.blank.element, Clause.thenClause, Kind.endKw.leaf.element]

def parts (h : RuleHeader) : List Element :=
  Kind.ruleKw.leaf.element :: (h.title.1.elements ++ titleShape h.title.2 :: (h.parentParts ++
    (h.settingsParts ++ (h.last.elements ++ ending))))

def shape (h : RuleHeader) : Element :=
  .node .ruleDecl h.parts

/-- The tree of a text with such a rule and nothing else. -/
def tree (h : RuleHeader) : Element :=
  .node .compilationUnit [h.shape]

end RuleHeader

/-! ## The texts of the nodes -/

namespace Blanks

/-- The blanks without their `eof` are what the text falls into. -/
theorem tokens_lex (b : Blanks) :
    ∃ e : Token, (lex b.text).tokens = (lex b.text).tokens.dropLast ++ [e] ∧ e.text = [] := by
  obtain ⟨e, hlast, -, htext, -⟩ := (covers_lex b.text).getLast?_eq
  exact ⟨e, (List.dropLast_append_getLast? e hlast).symm, htext⟩

theorem textOf_leaves (b : Blanks) : textOf b.leaves = b.text := by
  obtain ⟨e, htokens, htext⟩ := b.tokens_lex
  have hall := (covers_lex b.text).flatMap_text
  rw [htokens, List.flatMap_append] at hall
  rw [List.flatMap_singleton, htext, List.append_nil] at hall
  rw [textOf, leaves, List.flatMap_map]
  exact hall

@[simp] theorem text_elements (b : Blanks) : b.elements.flatMap Element.text = b.text := by
  rw [elements, List.flatMap_map, ← b.textOf_leaves, textOf]
  simp

theorem isTrivia_leaves (b : Blanks) : ∀ l ∈ b.leaves, l.isTrivia = true := by
  intro l hl
  obtain ⟨t, ht, rfl⟩ := List.mem_map.1 hl
  rw [lex, Lexed.ofScanned, ← List.map_dropLast] at ht
  obtain ⟨s, hs, rfl⟩ := List.mem_map.1 ht
  exact isTrivia_of_blanks b.isBlank s hs

theorem isTrivia_elements (b : Blanks) : ∀ e ∈ b.elements, e.isTrivia = true := by
  intro e he
  obtain ⟨l, hl, rfl⟩ := List.mem_map.1 he
  exact b.isTrivia_leaves l hl

end Blanks

@[simp] theorem text_minus : Kind.minus.leaf.text = ['-'] := rfl

@[simp] theorem SettingValue.text_shape (v : SettingValue) : v.shape.text = v.text := by
  cases v with
  | strings first more =>
    have hblanks (b : Blanks) : b.leaves.flatMap (fun l => l.text) = b.text := b.textOf_leaves
    simp [shape, leaves, leavesAfter, text, Quoted.leaf, List.flatMap_map, List.flatMap_assoc,
      hblanks]
  | number n => simp [shape, leaves, text, Numeral.leaf]
  | negative n => simp [shape, leaves, text, Numeral.leaf]
  | truth b => cases b <;> simp [shape, leaves, text] <;> rfl

@[simp] theorem Setting.text_shape (s : Setting) : s.shape.text = s.text := by
  cases h : s.value <;> simp [shape, valueParts, text, h]

@[simp] theorem Separator.text_elements (s : Separator) :
    s.elements.flatMap Element.text = s.text := by
  cases s <;> simp [elements, text]

@[simp] theorem SettingList.text_shape (ss : SettingList) : ss.shape.text = ss.text := by
  simp [shape, elements, elementsAfter, text, List.flatMap_assoc]

namespace RuleHeader

theorem text_ending : ending.flatMap Element.text = "when then end".toList := by
  simp [ending, Clause.whenClause, Clause.thenClause, spread]
  rfl

theorem text_tree (h : RuleHeader) : h.tree.text = h.source := by
  have hparent : h.parentParts.flatMap Element.text = h.parentText := by
    cases hp : h.parent <;> simp [parentParts, parentText, parentShape, hp]
  have hsettings : h.settingsParts.flatMap Element.text = h.settingsText := by
    cases hs : h.settings <;> simp [settingsParts, settingsText, hs]
  simp [tree, shape, parts, source, titleShape, hparent, hsettings, text_ending]

end RuleHeader

/-! ## Views -/

namespace Ast

variable {k : Kind}

/-- The first child of a kind is the first of its children of the kind. -/
theorem childOf?_eq_head? (es : List Element) : childOf? k es = (childrenOf k es).head? := by
  rw [childrenOf, List.head?_filterMap, childOf?]

@[simp] theorem childrenOf_nil : childrenOf k [] = [] := rfl

@[simp] theorem childrenOf_cons_node (k' : Kind) (cs es : List Element) :
    childrenOf k (.node k' cs :: es) =
      if k' = k then ⟨cs⟩ :: childrenOf k es else childrenOf k es := by
  by_cases h : k' = k <;> simp [childrenOf, View.ofElement?, h]

@[simp] theorem childrenOf_cons_leaf (l : Leaf) (es : List Element) :
    childrenOf k (l.element :: es) = childrenOf k es := rfl

/-- Blanks are no children of a kind. -/
@[simp] theorem childrenOf_blanks (b : Blanks) : childrenOf k b.elements = [] := by
  rw [Blanks.elements]
  induction b.leaves with
  | nil => rfl
  | cons l ls ih => exact ih

/-- Blanks are no significant tokens. -/
@[simp] theorem significantTokens_blanks (b : Blanks) (es : List Element) :
    significantTokens (b.elements ++ es) = significantTokens es := by
  have hnone : significantTokens b.elements = [] := by
    rw [significantTokens, List.filter_eq_nil_iff]
    intro l hl
    obtain ⟨e, he, hleaf⟩ := List.mem_filterMap.1 hl
    obtain ⟨m, hm, rfl⟩ := List.mem_map.1 he
    cases hleaf
    simpa using b.isTrivia_leaves m hm
  have happend : significantTokens (b.elements ++ es) =
      significantTokens b.elements ++ significantTokens es := by
    simp [significantTokens, tokens]
  rw [happend, hnone, List.nil_append]

theorem significantTokens_cons_leaf {l : Leaf} (hl : l.isTrivia = false) (es : List Element) :
    significantTokens (l.element :: es) = l :: significantTokens es := by
  simp [significantTokens, tokens, Leaf.element, hl]

end Ast

namespace Title

theorem isTrivia_leaf (t : Title) : t.leaf.isTrivia = false := by
  cases t <;> rfl

/-- The quotes of a name are taken off. -/
theorem unquote_leaf (t : Title) : Ast.unquote t.leaf.text = t.name := by
  cases t with
  | quoted q =>
    have hends (c : Char) : ((c :: (q.content ++ [c])).getLast? == some c) = true := by
      rw [← List.cons_append, List.getLast?_append]
      simp
    rcases q.isQuote with h | h <;>
      simp [Ast.unquote, leaf, Quoted.leaf, Quoted.text, name, h, hends]
  | plain n =>
    have hquote (c : Char) (hc : Lexeme.isWordStart c = false) : n.text.head? ≠ some c := by
      intro h
      have := n.isStart
      rw [h, Option.any_some, hc] at this
      cases this
    simp [Ast.unquote, leaf, Identifier.leaf, name, hquote '"' (by decide),
      hquote '\x27' (by decide)]

end Title

namespace AttributeKey

theorem isTrivia_leaf (k : AttributeKey) : k.leaf.isTrivia = false := by
  cases k with
  | known k h _ =>
    have hname : k.isName = true := by simp [Kind.isName, Kind.isSoftKeyword, h]
    exact Kind.isTrivia_of_isName hname
  | unknown => rfl

theorem isAttributeKeyword_leaf (k : AttributeKey) :
    k.leaf.kind.isAttributeKeyword = k.isKnown := by
  cases k with
  | known k h _ => exact h
  | unknown => rfl

end AttributeKey

namespace Setting

/-- What is to be told of an attribute: the key as written, whether the language knows it, and the
value as written. -/
def told (s : Setting) : Option (List Char) × Bool × Option (List Char) :=
  (some s.key.leaf.text, s.key.isKnown, s.value.map fun (_, v) => v.text)

/-- The node of an attribute. -/
def view (s : Setting) : Attribute :=
  ⟨s.key.leaf.element :: s.valueParts⟩

theorem told_view (s : Setting) : (s.view.key?, s.view.isKnown, s.view.value?) = s.told := by
  have hkey : s.view.keyToken? = some s.key.leaf := by
    rw [Attribute.keyToken?, view, Ast.significantTokens_cons_leaf s.key.isTrivia_leaf]
    rfl
  have hvalue : s.view.value? = s.value.map fun (_, v) => v.text := by
    rw [Attribute.value?, Ast.childOf?_eq_head?, view, Ast.childrenOf_cons_leaf]
    cases h : s.value with
    | none => simp [valueParts, h]
    | some gv =>
      simp only [valueParts, h, Option.map_some, Option.getD_some, Ast.childrenOf_append,
        Ast.childrenOf_blanks, List.nil_append, SettingValue.shape, Ast.childrenOf_cons_node,
        if_true, List.head?_cons]
      rw [← SettingValue.text_shape]
      rfl
  rw [told, Attribute.key?, Attribute.isKnown, hkey, hvalue]
  simp [AttributeKey.isAttributeKeyword_leaf]

end Setting

theorem SettingList.childrenOf_elements (ss : SettingList) :
    Ast.childrenOf .attribute ss.elements = ss.all.map Setting.view := by
  have hmore (more : List (Separator × Setting)) :
      Ast.childrenOf .attribute (elementsAfter more) = more.map fun p => p.2.view := by
    induction more with
    | nil => rfl
    | cons p more ih =>
      obtain ⟨s, a⟩ := p
      rw [elementsAfter_cons, Ast.childrenOf_append, List.map_cons]
      cases s <;>
        simp [Separator.elements, Setting.shape, Setting.view, Ast.childrenOf_append, ih]
  rw [elements, Setting.shape, Ast.childrenOf_cons_node, if_pos rfl, hmore, all]
  simp [Setting.view]

namespace RuleHeader

/-- The node of a rule with the header. -/
def view (h : RuleHeader) : RuleDecl :=
  ⟨h.parts⟩

theorem rules_tree (h : RuleHeader) : CompilationUnit.rules ⟨h.tree.children⟩ = [h.view] :=
  rfl

theorem name?_view (h : RuleHeader) : h.view.name? = some h.title.2.name := by
  rw [RuleDecl.name?, Ast.declName?, Ast.childOf?_eq_head?]
  simp [view, parts, titleShape, Ast.childrenOf_append,
    Ast.significantTokens_cons_leaf h.title.2.isTrivia_leaf, h.title.2.unquote_leaf]

/-- The children of a rule of a kind that has nothing to do with names and clauses. -/
theorem childrenOf_view (h : RuleHeader) (k : Kind)
    (hk : k ∉ [Kind.ruleName, .whenClause, .thenClause]) :
    Ast.childrenOf k h.view.children =
      Ast.childrenOf k h.parentParts ++ Ast.childrenOf k h.settingsParts := by
  simp only [List.mem_cons, List.not_mem_nil, or_false, not_or] at hk
  have hending : Ast.childrenOf k ending = [] := by
    simp [ending, Clause.whenClause, Clause.thenClause, spread, Ne.symm hk.2.1, Ne.symm hk.2.2]
  simp [view, parts, titleShape, Ne.symm hk.1, Ast.childrenOf_append, hending]

theorem parent?_view (h : RuleHeader) :
    h.view.parent? = h.parent.map fun (_, _, t) => t.name := by
  have hsettings : Ast.childrenOf .ruleExtends h.settingsParts = [] := by
    cases hs : h.settings <;> simp [settingsParts, SettingList.shape, hs, Ast.childrenOf_append]
  rw [RuleDecl.parent?, Ast.childOf?_eq_head?, h.childrenOf_view _ (by decide), hsettings,
    List.append_nil]
  cases hp : h.parent with
  | none => simp [parentParts, hp]
  | some p =>
    obtain ⟨g, g', t⟩ := p
    have hextends : Ast.significantTokens (Kind.extendsKw.leaf.element ::
        (g'.elements ++ [t.leaf.element])) = [Kind.extendsKw.leaf, t.leaf] := by
      rw [Ast.significantTokens_cons_leaf rfl, Ast.significantTokens_blanks,
        Ast.significantTokens_cons_leaf t.isTrivia_leaf]
      rfl
    have hfind : [Kind.extendsKw.leaf, t.leaf].find? (fun l => l.kind != .extendsKw) =
        some t.leaf := by
      cases t <;> rfl
    simp [parentParts, parentShape, hp, hextends, hfind, t.unquote_leaf, Ast.childrenOf_append]

theorem attributes_view (h : RuleHeader) :
    h.view.attributes.map (fun a => (a.key?, a.isKnown, a.value?)) =
      h.attributes.map Setting.told := by
  have hparent : Ast.childrenOf .attributeList h.parentParts = [] := by
    cases hp : h.parent <;> simp [parentParts, parentShape, hp, Ast.childrenOf_append]
  have hlist : h.view.attributes = h.attributes.map Setting.view := by
    rw [RuleDecl.attributes, Ast.childOf?_eq_head?, h.childrenOf_view _ (by decide), hparent,
      List.nil_append]
    cases hs : h.settings with
    | none => simp [settingsParts, attributes, hs]
    | some p =>
      simp [settingsParts, attributes, SettingList.shape, hs, p.2.childrenOf_elements,
        Ast.childrenOf_append]
  rw [hlist, List.map_map]
  exact List.map_congr_left fun s _ => s.told_view

end RuleHeader

end RuleLang
