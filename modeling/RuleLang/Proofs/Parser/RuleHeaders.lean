import RuleLang.Proofs.Grammar.YieldsHeaders
import RuleLang.Proofs.Parser.TypeDeclarations

/-!
# Rule headers are read back

A rule is written with a header and with any blanks between its words. Its text is read as its tree,
whose typed view has the name, the parent and the attributes of the header. Words, strings and
numbers of a header only come before blanks and commas, and there they are the tokens that they are
alone.

## Main definitions

* `Leaf.Stands` — a token that is read as it is before blanks and commas.

## Main statements

* `RuleHeader.lexes_tree` — the text of a rule with a header falls into its tokens.
* `RuleHeader.rules_parse_source` — a header is read back, and the keys that are no keywords are
  noted.
-/

namespace RuleLang

open Element Lexeme Text

/-! ## What a token may come before -/

namespace Lexeme

theorem normal_of_isDigit {c : Char} (hc : c.isDigit = true) (rest : List Char) :
    normal c rest = ⟨(numberLength (c :: rest)).2, (numberLength (c :: rest)).1, none⟩ := by
  have hascii : ∀ n < 0x80, (Char.ofNat n).isDigit = true →
      isLineBreak (Char.ofNat n) = false ∧ isBlank (Char.ofNat n) = false ∧
        Char.ofNat n ≠ '/' ∧ Char.ofNat n ≠ '"' ∧ Char.ofNat n ≠ '\x27' := by
    decide +kernel
  have hother := hascii c.toNat (toNat_lt_of_isDigit hc)
  rw [Char.ofNat_toNat] at hother
  obtain ⟨hbreak, hblank, hslash, hquote, hquote'⟩ := hother hc
  simp [normal, hc, hbreak, hblank, hslash, hquote, hquote']

/-- A minus comes before a digit. -/
theorem normal_minus {d : Char} (hd : d.isDigit = true) (rest : List Char) :
    normal '-' (d :: rest) = ⟨.minus, 1, none⟩ := by
  have hpairs : ∀ p ∈ doublePunctuation, p.1.1 = '-' → p.1.2.isDigit = false := by decide
  refine normal_single (by decide) (by decide) (lookup_double_eq_none ?_)
  rintro p hp hfirst rfl
  rw [hpairs p hp hfirst] at hd
  cases hd

/-- A comma comes before anything. -/
theorem normal_comma (rest : List Char) : normal ',' rest = ⟨.comma, 1, none⟩ := by
  cases rest with
  | nil => rfl
  | cons d rest =>
    have hpairs : ∀ p ∈ doublePunctuation, p.1.1 ≠ ',' := by decide
    exact normal_single (by decide) (by decide)
      (lookup_double_eq_none fun p hp hfirst => absurd hfirst (hpairs p hp))

/-- A blank sees the blanks after it and one character more. -/
theorem normal_blank_append {c d : Char} (hc : isBlank c = true) (hd : isBlank d = false)
    (w z : List Char) : normal c (w ++ d :: z) = normal c w := by
  have hbreak : isLineBreak d = false := by
    cases h : isLineBreak d with
    | false => rfl
    | true => rw [isBlank_of_isLineBreak h] at hd; cases hd
  have hnewline : newlineLength (c :: (w ++ d :: z)) = newlineLength (c :: w) := by
    have hlf : d ≠ '\n' := by
      rintro rfl
      exact absurd hd (by decide)
    rw [newlineLength_cons, newlineLength_cons, head?_append_closing w z (Ne.symm hlf)]
  have hblanks : blankLength (c :: (w ++ d :: z)) = blankLength (c :: w) := by
    rw [blankLength, ← List.cons_append,
      takeWhile_append_of_head (c :: w) (by simp [isInlineBlank, hd]), blankLength]
  simp only [normal, hc, hnewline, hblanks, if_true]

end Lexeme

/-- What comes next is no blank. -/
def Dark (ls : List Leaf) : Prop :=
  ∃ d z, textOf ls = d :: z ∧ Text.isBlank d = false

/-- A blank or a comma comes next. -/
def Parting (ls : List Leaf) : Prop :=
  ∃ d z, textOf ls = d :: z ∧ (Text.isBlank d = true ∨ d = ',')

/-! ## Blanks and commas -/

variable {ls : List Leaf}

namespace Blanks

variable (b : Blanks)

theorem lexes_leaves : Lexes .normal b.leaves := by
  obtain ⟨e, htokens, -⟩ := b.tokens_lex
  obtain ⟨e', hlast, hkind, htext, -⟩ := (covers_lex b.text).getLast?_eq
  have he : e = e' := by
    rw [htokens, List.getLast?_concat] at hlast
    exact Option.some.inj hlast
  subst he
  refine lexes_iff_lex.2 ?_
  rw [b.textOf_leaves]
  refine ⟨?_, ?_⟩
  · rw [htokens, List.map_append, ← leaves, List.map_singleton, Token.leaf, hkind, htext]
  · refine List.filterMap_eq_nil_iff.2 fun s hs => ?_
    rw [Scanned.error?, (scan_of_blanks b.isBlank s hs).1]
    rfl

theorem isBlank_of_mem : ∀ l ∈ b.leaves, ∀ c ∈ l.text, Text.isBlank c = true := by
  intro l hl c hc
  refine b.isBlank c ?_
  rw [← b.textOf_leaves]
  exact List.mem_flatMap.2 ⟨l, hl, hc⟩

/-- Blanks come before what is no blank. -/
theorem lexes (hdark : Dark ls) (hls : Lexes .normal ls) : Lexes .normal (b.leaves ++ ls) := by
  obtain ⟨d, z, htext, hd⟩ := hdark
  have hblank := b.isBlank_of_mem
  have hleaves := b.lexes_leaves
  generalize b.leaves = ms at hblank hleaves
  induction ms with
  | nil => exact hls
  | cons l ms ih =>
    obtain ⟨c, rest, mode', hl, hnext, hms⟩ := hleaves
    have hc : Text.isBlank c = true := hblank l List.mem_cons_self c (by simp [hl])
    have hnormal := normal_blank_append hc hd (rest ++ textOf ms) z
    have htrivia : (normal c (rest ++ textOf ms)).kind.isTrivia = true := isTrivia_of_isBlank hc
    have hthen : ((normal c (rest ++ textOf ms)).kind == .thenKw) = false :=
      Kind.ne_then_of_isTrivia htrivia
    rw [next_normal, hthen] at hnext
    obtain ⟨hlexeme, rfl⟩ := Prod.mk.inj hnext
    refine ⟨c, rest, .normal, hl, ?_, ih (fun m hm => hblank m (.tail _ hm)) hms⟩
    have htextOf : textOf (ms ++ ls) = textOf ms ++ d :: z := by rw [textOf_append, htext]
    change next .normal c (rest ++ textOf (ms ++ ls)) = _
    rw [htextOf, ← List.append_assoc, next_normal, hnormal, hthen, hlexeme]
    rfl

/-- Blanks before a comma part what comes before them from the comma. -/
theorem parting_comma (ls : List Leaf) : Parting (b.leaves ++ Kind.comma.leaf :: ls) := by
  have hblank := b.isBlank
  rw [Parting, textOf_append, b.textOf_leaves]
  cases h : b.text with
  | nil => exact ⟨',', textOf ls, rfl, .inr rfl⟩
  | cons c text => exact ⟨c, _, rfl, .inl (hblank c (by simp [h]))⟩

/-- A comma between blanks. -/
theorem lexes_comma (c : Blanks) (hdark : Dark ls) (hls : Lexes .normal ls) :
    Lexes .normal (b.leaves ++ Kind.comma.leaf :: (c.leaves ++ ls)) := by
  refine b.lexes ⟨',', _, rfl, by decide⟩ ⟨',', [], .normal, rfl, ?_, c.lexes hdark hls⟩
  rw [next_normal, normal_comma]
  rfl

end Blanks

theorem Gap.parting (g : Gap) (ls : List Leaf) : Parting (g.leaves ++ ls) := by
  have hblank := g.isBlank
  have hne := g.ne_nil
  rw [Parting, textOf_append, g.textOf_leaves]
  cases h : g.text with
  | nil => exact absurd h hne
  | cons c text => exact ⟨c, _, rfl, .inl (hblank c (by simp [h]))⟩

/-! ## Words, strings and numbers -/

/-- A token that is read as it is before blanks and commas. -/
structure Leaf.Stands (l : Leaf) : Prop where
  dark : ∀ ls, Dark (l :: ls)
  lexes : ∀ {ls}, Parting ls → Lexes .normal ls → Lexes .normal (l :: ls)

theorem closesNumber_of_parting {d : Char} (h : Text.isBlank d = true ∨ d = ',') :
    ClosesNumber d := by
  rcases h with h | rfl
  · have hne {e : Char} (he : Text.isBlank e = false) : d ≠ e := by
      rintro rfl
      rw [h] at he
      cases he
    exact ⟨⟨isWordPart_of_isBlank h, hne (by decide)⟩, hne (by decide), hne (by decide)⟩
  · exact ⟨⟨by decide, by decide⟩, by decide, by decide⟩

namespace Leaf

variable {l : Leaf} {c : Char} {w : List Char}

/-- A token whose lexeme is the same before blanks and commas. -/
theorem Stands.of_normal (htext : l.text = c :: w) (hc : Text.isBlank c = false)
    (hthen : l.kind ≠ .thenKw)
    (hnormal : ∀ d z, Text.isBlank d = true ∨ d = ',' →
      normal c (w ++ d :: z) = ⟨l.kind, w.length + 1, none⟩) : l.Stands := by
  refine ⟨fun ls => ⟨c, w ++ textOf ls, by rw [textOf_cons, htext]; rfl, hc⟩, ?_⟩
  rintro ls ⟨d, z, hls, hd⟩ hlexes
  refine ⟨c, w, .normal, htext, ?_, hlexes⟩
  rw [hls, next_normal, hnormal d z hd, if_neg (by simpa using hthen), htext, List.length_cons]

/-- A word that is a lexeme of its own. -/
theorem IsWord.stands (h : l.IsWord) (hstart : l.text.head?.any isWordStart = true) :
    l.Stands := by
  obtain ⟨c, w, htext, hnormal, hc⟩ := h.exists_normal
  have hstarts : startsWord c = true := startsWord_of_isWordStart (by simpa [htext] using hstart)
  refine .of_normal htext hc h.ne_thenKw fun d z hd => ?_
  rw [normal_of_startsWord hstarts] at hnormal ⊢
  rw [← List.cons_append, wordLength_append_closing (closesNumber_of_parting hd).1, hnormal]

end Leaf

theorem Identifier.stands (n : Identifier) : n.leaf.Stands :=
  n.isWord.stands n.isStart

/-- The keywords of headers. -/
def headerKeywords : List Kind :=
  [.ruleKw, .extendsKw, .trueKw, .falseKw, .salienceKw, .noLoopKw, .agendaGroupKw, .ruleflowGroupKw,
    .activationGroupKw, .autoFocusKw, .lockOnActiveKw, .dateEffectiveKw, .dateExpiresKw, .dialectKw,
    .enabledKw, .durationKw, .timerKw, .calendarsKw, .refractKw, .directKw]

theorem Kind.stands_leaf {k : Kind} (h : k ∈ headerKeywords) : k.leaf.Stands := by
  have hlex : ∀ k ∈ headerKeywords,
      (lex k.leaf.text).tokens.map Token.leaf = [k.leaf, ⟨.eof, []⟩] ∧
        (lex k.leaf.text).errors = [] := by
    decide +kernel
  have hkind : ∀ k ∈ headerKeywords, (k.isTrivia = false ∧ k ≠ .hash ∧ k ≠ .thenKw) ∧
      k.leaf.text.head?.any isWordStart = true := by
    decide
  exact (Leaf.IsWord.of_lex (hlex k h).1 (hlex k h).2 (hkind k h).1).stands (hkind k h).2

theorem AttributeKey.stands (k : AttributeKey) : k.leaf.Stands := by
  cases k with
  | known k h single =>
    have hmem : ∀ k : Kind, k.isAttributeKeyword = true → k ≠ .attributesKw →
        k ∈ headerKeywords := by
      intro k h single
      cases k <;> first | decide | exact absurd rfl single | cases h
    exact Kind.stands_leaf (hmem k h single)
  | unknown n => exact n.stands

theorem Quoted.stands (q : Quoted) : q.leaf.Stands := by
  have hquote : Text.isBlank q.quote = false ∧
      ∀ rest, normal q.quote rest = string q.quote rest := by
    rcases q.isQuote with h | h <;> rw [h] <;> exact ⟨by decide, fun _ => rfl⟩
  have hstring : string q.quote (q.content ++ [q.quote]) =
      ⟨.stringLit, (q.content ++ [q.quote]).length + 1, none⟩ := by
    simp [string, stringLength, q.closes]
  refine .of_normal rfl hquote.1 (show Kind.stringLit ≠ .thenKw by decide) fun d z _ => ?_
  rw [hquote.2, string_append (congrArg Lexeme.fault hstring), hstring]
  rfl

theorem Title.stands (t : Title) : t.leaf.Stands := by
  cases t with
  | quoted q => exact q.stands
  | plain n => exact n.stands

namespace Numeral

variable (n : Numeral)

theorem exists_digit : ∃ c w, n.text = c :: w ∧ c.isDigit = true := by
  have hdigit := n.isDigit
  cases h : n.text with
  | nil => simp [h] at hdigit
  | cons c w => exact ⟨c, w, rfl, by simpa [h] using hdigit⟩

theorem stands : n.leaf.Stands := by
  obtain ⟨c, w, htext, hc⟩ := n.exists_digit
  have hwhole := n.whole
  rw [htext] at hwhole
  have hblank : Text.isBlank c = false := by
    cases h : Text.isBlank c with
    | false => rfl
    | true =>
      have hpart := isWordPart_of_isBlank h
      rw [isWordPart_of_isDigit hc] at hpart
      cases hpart
  have hthen : n.kind ≠ .thenKw := by
    rcases n.isNumber with h | h <;> rw [h] <;> decide
  refine .of_normal htext hblank hthen fun d z hd => ?_
  rw [normal_of_isDigit hc, ← List.cons_append,
    numberLength_append_closing (closesNumber_of_parting hd), hwhole]
  rfl

/-- A minus comes before a number. -/
theorem lexes_minus (hls : Lexes .normal (n.leaf :: ls)) :
    Lexes .normal (Kind.minus.leaf :: n.leaf :: ls) := by
  obtain ⟨c, w, htext, hc⟩ := n.exists_digit
  refine ⟨'-', [], .normal, rfl, ?_, hls⟩
  rw [textOf_cons, show n.leaf.text = c :: w from htext, List.nil_append, List.cons_append,
    next_normal, normal_minus hc]
  rfl

end Numeral

/-! ## Attributes -/

namespace SettingValue

/-- Strings with commas before them. -/
theorem lexes_strings (more : List (Blanks × Blanks × Quoted)) (hparting : Parting ls)
    (hls : Lexes .normal ls) :
    Parting (leavesAfter more ++ ls) ∧ Lexes .normal (leavesAfter more ++ ls) := by
  induction more with
  | nil => exact ⟨hparting, hls⟩
  | cons p more ih =>
    obtain ⟨b, c, q⟩ := p
    have hquoted := q.stands.lexes ih.1 ih.2
    simp only [leavesAfter_cons, List.append_assoc, List.cons_append]
    exact ⟨b.parting_comma _, b.lexes_comma c (q.stands.dark _) hquoted⟩

theorem dark (v : SettingValue) (ls : List Leaf) : Dark (v.leaves ++ ls) := by
  cases v with
  | strings first more => exact first.stands.dark _
  | number n => exact n.stands.dark _
  | negative n => exact ⟨'-', _, rfl, by decide⟩
  | truth b => cases b <;> exact (Kind.stands_leaf (by decide)).dark _

theorem lexes (v : SettingValue) (hparting : Parting ls) (hls : Lexes .normal ls) :
    Lexes .normal (v.leaves ++ ls) := by
  cases v with
  | strings first more =>
    have hmore := lexes_strings more hparting hls
    exact first.stands.lexes hmore.1 hmore.2
  | number n => exact n.stands.lexes hparting hls
  | negative n => exact n.lexes_minus (n.stands.lexes hparting hls)
  | truth b => cases b <;> exact (Kind.stands_leaf (by decide)).lexes hparting hls

end SettingValue

theorem Blanks.leavesOf_elements (b : Blanks) : leavesOf b.elements = b.leaves :=
  RuleLang.leavesOf_elements b.leaves

namespace Setting

theorem lexes (s : Setting) (hparting : Parting ls) (hls : Lexes .normal ls) :
    Lexes .normal (s.shape.leaves ++ ls) := by
  cases h : s.value with
  | none => simpa [shape, valueParts, h] using s.key.stands.lexes hparting hls
  | some p =>
    obtain ⟨g, v⟩ := p
    have hvalue := g.lexes (v.dark ls) (v.lexes hparting hls)
    have hkey := s.key.stands.lexes (g.parting _) hvalue
    simpa [shape, valueParts, h, g.leavesOf_elements, SettingValue.shape,
      RuleLang.leavesOf_elements] using hkey

theorem dark (s : Setting) (ls : List Leaf) : Dark (s.shape.leaves ++ ls) := by
  simpa [shape] using s.key.stands.dark _

end Setting

namespace Separator

theorem parting (s : Separator) (ls : List Leaf) : Parting (leavesOf s.elements ++ ls) := by
  cases s with
  | blanks g => simpa [elements, g.leavesOf_elements] using g.parting ls
  | comma b c =>
    simpa [elements, b.leavesOf_elements] using b.parting_comma (leavesOf c.elements ++ ls)

theorem lexes (s : Separator) (hdark : Dark ls) (hls : Lexes .normal ls) :
    Lexes .normal (leavesOf s.elements ++ ls) := by
  cases s with
  | blanks g => simpa [elements, g.leavesOf_elements] using g.lexes hdark hls
  | comma b c =>
    simpa [elements, b.leavesOf_elements, c.leavesOf_elements] using b.lexes_comma c hdark hls

end Separator

namespace SettingList

theorem lexes (ss : SettingList) (hparting : Parting ls) (hls : Lexes .normal ls) :
    Lexes .normal (ss.shape.leaves ++ ls) := by
  have hmore (more : List (Separator × Setting)) :
      Parting (leavesOf (elementsAfter more) ++ ls) ∧
        Lexes .normal (leavesOf (elementsAfter more) ++ ls) := by
    induction more with
    | nil => exact ⟨hparting, hls⟩
    | cons p more ih =>
      obtain ⟨s, a⟩ := p
      have hone := s.lexes (a.dark _) (a.lexes ih.1 ih.2)
      simp only [elementsAfter_cons, leavesOf_append, leavesOf_cons, List.append_assoc]
      exact ⟨s.parting _, hone⟩
  simpa [shape, elements] using ss.first.lexes (hmore ss.more).1 (hmore ss.more).2

theorem dark (ss : SettingList) (ls : List Leaf) : Dark (ss.shape.leaves ++ ls) := by
  simpa [shape, elements] using ss.first.dark _

end SettingList

/-! ## Headers -/

namespace RuleHeader

/-- What comes after a header. -/
theorem lexes_ending : Dark (leavesOf ending) ∧ Lexes .normal (leavesOf ending) := by
  have hleaves : leavesOf ending =
      [Kind.whenKw.leaf, Leaf.blank, Kind.thenKw.leaf, Leaf.blank, Kind.endKw.leaf] := by
    simp [ending, Clause.whenClause, Clause.thenClause, spread]
  rw [hleaves]
  refine ⟨⟨'w', _, rfl, by decide⟩, 'w', ['h', 'e', 'n'], .normal, rfl, ?_,
    ' ', [], .normal, rfl, ?_,
    't', ['h', 'e', 'n'], .consequence, rfl, ?_, ' ', [], .consequence, rfl, ?_,
    'e', ['n', 'd'], .normal, rfl, ?_, trivial⟩
  all_goals decide +kernel

theorem lexes_settings (h : RuleHeader) :
    Parting (leavesOf h.settingsParts ++ (h.last.leaves ++ leavesOf ending)) ∧
      Lexes .normal (leavesOf h.settingsParts ++ (h.last.leaves ++ leavesOf ending)) := by
  have hlast := h.last.lexes lexes_ending.1 lexes_ending.2
  cases hs : h.settings with
  | none => simpa [settingsParts, hs] using ⟨h.last.parting _, hlast⟩
  | some p =>
    obtain ⟨g, ss⟩ := p
    have hsettings := g.lexes (ss.dark _) (ss.lexes (h.last.parting _) hlast)
    simpa [settingsParts, hs, g.leavesOf_elements] using ⟨g.parting _, hsettings⟩

theorem lexes_parent (h : RuleHeader) (hparting : Parting ls) (hls : Lexes .normal ls) :
    Parting (leavesOf h.parentParts ++ ls) ∧ Lexes .normal (leavesOf h.parentParts ++ ls) := by
  cases hp : h.parent with
  | none => simpa [parentParts, hp] using ⟨hparting, hls⟩
  | some p =>
    obtain ⟨g, g', t⟩ := p
    have hextends : Kind.extendsKw.leaf.Stands := Kind.stands_leaf (by decide)
    have hname := hextends.lexes (g'.parting _)
      (g'.lexes (t.stands.dark ls) (t.stands.lexes hparting hls))
    simpa [parentParts, parentShape, hp, g.leavesOf_elements, g'.leavesOf_elements] using
      ⟨g.parting _, g.lexes (hextends.dark _) hname⟩

/-- The text of a rule with a header falls into the tokens of its tree. -/
theorem lexes_tree (h : RuleHeader) : Lexes .normal h.tree.leaves := by
  have hrule : Kind.ruleKw.leaf.Stands := Kind.stands_leaf (by decide)
  obtain ⟨hparting, hrest⟩ := h.lexes_parent h.lexes_settings.1 h.lexes_settings.2
  have htitle := h.title.2.stands
  have hall := hrule.lexes (h.title.1.parting _)
    (h.title.1.lexes (htitle.dark _) (htitle.lexes hparting hrest))
  simpa [tree, shape, parts, titleShape, Blanks.leavesOf_elements] using hall

/-- The keys that are no keywords are noted. -/
theorem complaints_attributes (h : RuleHeader) :
    (h.attributes.flatMap fun s => s.key.complaints) =
      (h.attributes.filter fun s => !s.key.isKnown).map fun s =>
        .unknownAttribute s.key.leaf.text := by
  induction h.attributes with
  | nil => rfl
  | cons s ss ih =>
    rw [List.flatMap_cons, ih, List.filter_cons]
    cases hk : s.key <;>
      simp [AttributeKey.complaints, AttributeKey.isKnown, AttributeKey.leaf, Identifier.leaf, hk]

/-- A rule header is read back: the text of a rule with it is read without errors, with one warning
for each key that is no keyword, as a file with one rule, which has the name, the parent and the
attributes of the header. -/
theorem rules_parse_source (h : RuleHeader) :
    ∃ (file : CompilationUnit) (rule : RuleDecl) (warnings : List SyntaxError),
      parse h.source = ⟨file.element, [], warnings⟩ ∧
      warnings.map SyntaxError.complaint =
        ((h.attributes.filter fun s => !s.key.isKnown).map fun s =>
          .unknownAttribute s.key.leaf.text) ∧
      file.rules = [rule] ∧ rule.name? = some h.title.2.name ∧
      rule.parent? = (h.parent.map fun (_, _, t) => t.name) ∧
      rule.attributes.map (fun a => (a.key?, a.isKnown, a.value?)) =
        h.attributes.map Setting.told := by
  obtain ⟨warnings, hparse, hwarnings⟩ := h.notes_tree.parse_eq h.lexes_tree
  refine ⟨⟨[h.shape]⟩, h.view, warnings, ?_, ?_, h.rules_tree, h.name?_view, h.parent?_view,
    h.attributes_view⟩
  · rw [← h.text_tree]
    exact hparse
  · rw [hwarnings, h.complaints_attributes]

/-- A comma goes on with strings, and it parts attributes. -/
example :
    (parse "rule a calendars 'x' , 'y', foo -1 dialect when then end".toList).syntaxErrors.map
      SyntaxError.complaint = [.unknownAttribute "foo".toList] := by
  decide +kernel

end RuleHeader

end RuleLang
