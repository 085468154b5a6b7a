import Mathlib.Data.List.Forall2
import Mathlib.Logic.Function.Basic
import RuleLang.Element.Dump
import RuleLang.Proofs.Lexeme.Ending
import RuleLang.Proofs.Text.Quoted

/-!
# A dump determines its tree

A line of a dump shows where its indentation, its kind and its byte range end, so the depth, the
kind and the text of an element are read off its line. The depths in preorder say which elements
are the children of which node. Texts are quoted, so each element has one line whatever its text.

## Main definitions

* `Element.Entry` — what is read off the line of an element, and makes up the tree.

## Main statements

* `Element.Placed.entry_eq_of_line_eq` — a line determines its entry.
* `Element.preorderOf_inj` — the entries in preorder determine the elements.
* `Element.dump_determines` — a dump with all trivia determines its tree, and has one line for each
  element.
-/

namespace RuleLang

open Text

/-! ## Names and ranges -/

namespace Kind

theorem mem_all (k : Kind) : k ∈ all := by
  cases k <;> decide

theorem ofName?_name (k : Kind) : ofName? k.name = some k := by
  have hall : ∀ k ∈ all, ofName? k.name = some k := by decide +kernel
  exact hall k k.mem_all

theorem name_injective : Function.Injective name := by
  intro j k h
  have hread := congrArg ofName? h
  rwa [ofName?_name, ofName?_name, Option.some.injEq] at hread

theorem isAlpha_of_mem_name (k : Kind) : ∀ c ∈ k.name.toList, c.isAlpha = true := by
  have hall : k.name.toList.all Char.isAlpha = true := by cases k <;> rfl
  exact List.all_eq_true.1 hall

/-- What comes after the indentation is no blank. -/
theorem head_name_append (k : Kind) (rest : List Char) :
    (k.name.toList ++ '@' :: rest).head?.any (· == ' ') = false := by
  cases hk : k.name.toList with
  | nil => rfl
  | cons c cs =>
    have hc := k.isAlpha_of_mem_name c (hk ▸ List.mem_cons_self)
    refine beq_eq_false_iff_ne.2 ?_
    rintro rfl
    cases hc

end Kind

theorem Span.isDigit_of_mem_describe (s : Span) :
    ∀ c ∈ s.describe.toList, c.isDigit = true ∨ c = '.' := by
  have hdigits (n : Nat) : ∀ c ∈ (toString n).toList, c.isDigit = true := fun c hc =>
    Nat.isDigit_of_mem_toDigits (by decide) (by decide) (Nat.toList_repr ▸ hc)
  intro c hc
  simp only [describe, String.toList_append, List.mem_append] at hc
  rcases hc with (hc | hc) | hc
  · exact .inl (hdigits _ c hc)
  · exact .inr (by simpa using hc)
  · exact .inl (hdigits _ c hc)

theorem Span.ne_blank_of_mem_describe (s : Span) :
    ∀ c ∈ s.describe.toList, (c != ' ') = true := by
  intro c hc
  rcases s.isDigit_of_mem_describe c hc with hc | rfl
  · refine bne_iff_ne.2 ?_
    rintro rfl
    cases hc
  · rfl

/-! ## Lines -/

/-- Two texts that start with characters of a class and go on with another one part in one way. -/
theorem Text.append_inj_of_head {p : Char → Bool} {x y r s : List Char} (hx : ∀ c ∈ x, p c = true)
    (hy : ∀ c ∈ y, p c = true) (hr : r.head?.any p = false) (hs : s.head?.any p = false)
    (h : x ++ r = y ++ s) : x = y ∧ r = s := by
  have hfront := congrArg (List.takeWhile p) h
  rw [Lexeme.takeWhile_append_of_head x hr, Lexeme.takeWhile_append_of_head y hs,
    List.takeWhile_eq_self_iff.2 hx, List.takeWhile_eq_self_iff.2 hy] at hfront
  exact ⟨hfront, List.append_cancel_left (hfront ▸ h)⟩

namespace Element

/-- The text of a token. -/
def text? : Element → Option (List Char)
  | .token _ text => some text
  | .node _ _ => none

/-- What the line of an element tells about the tree. -/
structure Entry where
  depth : Nat
  kind : Kind
  /-- The text of a token. -/
  text? : Option (List Char)

/-- A text in quotes after a blank. -/
def quoteAfter : Option (List Char) → List Char
  | some text => ' ' :: quote text
  | none => []

theorem quoteAfter_injective : Function.Injective quoteAfter := by
  intro x y h
  cases x with
  | none =>
    cases y with
    | none => rfl
    | some text => cases h
  | some text =>
    cases y with
    | none => cases h
    | some text' => rw [quote_injective (List.cons.inj h).2]

namespace Placed

variable {p q : Placed} {indent : Nat}

def entry (p : Placed) : Entry :=
  ⟨p.depth, p.element.kind, p.element.text?⟩

theorem line_eq (indent : Nat) (p : Placed) :
    p.line indent = List.replicate (p.depth * indent) ' ' ++
      (p.element.kind.name.toList ++
        '@' :: (p.span.describe.toList ++ quoteAfter p.element.text?)) := by
  obtain ⟨depth, offset, element⟩ := p
  cases element with
  | token k t => simp [line, text?, quoteAfter]
  | node k cs => simp [line, text?, quoteAfter]

/-- The entry of an element is read off its line. -/
theorem entry_eq_of_line_eq (hindent : 1 ≤ indent) (h : p.line indent = q.line indent) :
    p.entry = q.entry := by
  have hblank (n : Nat) : ∀ c ∈ List.replicate n ' ', (c == ' ') = true := fun c hc =>
    beq_iff_eq.2 (List.eq_of_mem_replicate hc)
  have hquote (text : Option (List Char)) : (quoteAfter text).head?.any (· != ' ') = false := by
    cases text <;> rfl
  -- Indentation, name, range and text each end where the next character is of another class.
  rw [line_eq, line_eq] at h
  obtain ⟨hdepth, h⟩ := append_inj_of_head (hblank _) (hblank _)
    (Kind.head_name_append ..) (Kind.head_name_append ..) h
  obtain ⟨hkind, h⟩ := append_inj_of_head p.element.kind.isAlpha_of_mem_name
    q.element.kind.isAlpha_of_mem_name rfl rfl h
  obtain ⟨-, h⟩ := append_inj_of_head p.span.ne_blank_of_mem_describe
    q.span.ne_blank_of_mem_describe (hquote _) (hquote _) (List.cons.inj h).2
  have hdepth : p.depth = q.depth :=
    Nat.eq_of_mul_eq_mul_right hindent (by simpa using congrArg List.length hdepth)
  rw [entry, entry, hdepth, Kind.name_injective (String.toList_inj.1 hkind), quoteAfter_injective h]

end Placed

/-! ## Preorder -/

@[simp] theorem preorder_token (d o : Nat) (k : Kind) (t : List Char) :
    (token k t).preorder d o = [⟨d, o, token k t⟩] := by
  simp [preorder]

@[simp] theorem preorder_node (d o : Nat) (k : Kind) (cs : List Element) :
    (node k cs).preorder d o = ⟨d, o, node k cs⟩ :: preorderOf (d + 1) o cs := by
  simp [preorder]

theorem exists_preorder (d o : Nat) (e : Element) : ∃ ps, e.preorder d o = ⟨d, o, e⟩ :: ps := by
  cases e with
  | token k t => exact ⟨[], preorder_token d o k t⟩
  | node k cs => exact ⟨_, preorder_node d o k cs⟩

/-- The entries start above a depth, so none of them is read as an element at this depth. -/
def StartsAbove (d : Nat) (es : List Entry) : Prop :=
  ∀ e, es.head? = some e → e.depth < d

theorem startsAbove_nil (d : Nat) : StartsAbove d [] :=
  nofun

/-- Siblings are no children of the one before them. -/
theorem startsAbove_preorderOf {d o : Nat} (es : List Element) {r : List Entry}
    (hr : StartsAbove d r) :
    StartsAbove (d + 1) ((preorderOf d o es).map Placed.entry ++ r) := by
  intro entry hentry
  cases es with
  | nil => exact Nat.lt_succ_of_lt (hr entry hentry)
  | cons e es =>
    obtain ⟨ps, hps⟩ := e.exists_preorder d o
    rw [preorderOf, hps] at hentry
    cases hentry
    exact Nat.lt_succ_self d

/-- Where elements are read, the entries do not start above them. -/
theorem not_startsAbove_preorderOf {d o : Nat} (e : Element) (es : List Element) (r : List Entry) :
    ¬StartsAbove d ((preorderOf d o (e :: es)).map Placed.entry ++ r) := by
  intro h
  obtain ⟨ps, hps⟩ := e.exists_preorder d o
  rw [preorderOf, hps] at h
  exact Nat.lt_irrefl d (h _ rfl)

/-!
Both lists may go on with entries that lie above, and they may start at different offsets: an entry
does not tell its offset.
-/

mutual

/-- The entries of an element in preorder end where they start above its children. -/
theorem preorder_inj {d o o' : Nat} (x y : Element) {r s : List Entry}
    (hr : StartsAbove (d + 1) r) (hs : StartsAbove (d + 1) s)
    (h : (x.preorder d o).map Placed.entry ++ r = (y.preorder d o').map Placed.entry ++ s) :
    x = y ∧ r = s := by
  match x, y with
  | .token k t, .token k' t' =>
    simp only [preorder_token, List.map_cons, List.map_nil, List.cons_append, List.nil_append,
      List.cons.injEq] at h
    obtain ⟨hentry, hrest⟩ := h
    cases hentry
    exact ⟨rfl, hrest⟩
  | .token k t, .node k' cs' =>
    rw [preorder_token, preorder_node] at h
    cases (List.cons.inj h).1
  | .node k cs, .token k' t' =>
    rw [preorder_token, preorder_node] at h
    cases (List.cons.inj h).1
  | .node k cs, .node k' cs' =>
    simp only [preorder_node, List.map_cons, List.cons_append, List.cons.injEq] at h
    obtain ⟨hentry, hrest⟩ := h
    cases hentry
    obtain ⟨rfl, rfl⟩ := preorderOf_inj cs cs' hr hs hrest
    exact ⟨rfl, rfl⟩

/-- The entries of siblings in preorder end where they start above them. -/
theorem preorderOf_inj {d o o' : Nat} (xs ys : List Element) {r s : List Entry}
    (hr : StartsAbove d r) (hs : StartsAbove d s)
    (h : (preorderOf d o xs).map Placed.entry ++ r = (preorderOf d o' ys).map Placed.entry ++ s) :
    xs = ys ∧ r = s := by
  match xs, ys with
  | [], [] => exact ⟨rfl, h⟩
  | [], y :: ys =>
    cases h
    exact absurd hr (not_startsAbove_preorderOf y ys s)
  | x :: xs, [] =>
    cases h
    exact absurd hs (not_startsAbove_preorderOf x xs r)
  | x :: xs, y :: ys =>
    simp only [preorderOf, List.map_append, List.append_assoc] at h
    obtain ⟨rfl, hrest⟩ := preorder_inj x y (startsAbove_preorderOf xs hr)
      (startsAbove_preorderOf ys hs) h
    obtain ⟨rfl, rfl⟩ := preorderOf_inj xs ys hr hs hrest
    exact ⟨rfl, rfl⟩

end

/-! ## Dumps -/

theorem isPrintable_of_mem_line (indent : Nat) (p : Placed) :
    ∀ c ∈ p.line indent, isPrintable c = true := by
  have hblanks : ∀ c ∈ List.replicate (p.depth * indent) ' ', isPrintable c = true := by
    intro c hc
    rw [List.eq_of_mem_replicate hc]
    decide
  have hname : ∀ c ∈ p.element.kind.name.toList, isPrintable c = true := fun c hc =>
    isPrintable_of_isAlphanum (Bool.or_eq_true_iff.2 (.inl (p.element.kind.isAlpha_of_mem_name c hc)))
  have hspan : ∀ c ∈ p.span.describe.toList, isPrintable c = true := by
    intro c hc
    rcases p.span.isDigit_of_mem_describe c hc with hc | rfl
    · exact isPrintable_of_isAlphanum (Bool.or_eq_true_iff.2 (.inr hc))
    · decide
  have hquote : ∀ c ∈ quoteAfter p.element.text?, isPrintable c = true := by
    cases p.element.text? with
    | none => nofun
    | some text => exact List.forall_mem_cons.2 ⟨by decide, isPrintable_of_mem_quote text⟩
  rw [Placed.line_eq]
  exact List.forall_mem_append.2 ⟨hblanks, List.forall_mem_append.2 ⟨hname,
    List.forall_mem_cons.2 ⟨by decide, List.forall_mem_append.2 ⟨hspan, hquote⟩⟩⟩⟩

theorem splitOn_flatMap_lines {lines : List (List Char)} (h : ∀ line ∈ lines, '\n' ∉ line) :
    (lines.flatMap (· ++ ['\n'])).splitOn '\n' = lines ++ [[]] := by
  induction lines with
  | nil => exact List.splitOn_nil _
  | cons line lines ih =>
    obtain ⟨hline, hlines⟩ := List.forall_mem_cons.1 h
    rw [List.flatMap_cons, List.append_assoc, List.singleton_append,
      List.splitOn_append_cons_self_of_not_mem hline, ih hlines, List.cons_append]

theorem dumpLines_trivia (indent : Nat) (root : Element) :
    root.dumpLines ⟨true, indent⟩ = root.elements.map (Placed.line indent) := by
  simp [dumpLines]

theorem isLineBreak_of_mem_line (indent : Nat) (p : Placed) :
    ∀ c ∈ p.line indent, isLineBreak c = false := fun c hc =>
  isLineBreak_of_isPrintable (isPrintable_of_mem_line indent p c hc)

theorem splitOn_dump (indent : Nat) (root : Element) :
    (root.dump ⟨true, indent⟩).splitOn '\n' = root.elements.map (Placed.line indent) ++ [[]] := by
  rw [dump, dumpLines_trivia]
  refine splitOn_flatMap_lines (List.forall_mem_map.2 fun p _ hmem => ?_)
  cases isLineBreak_of_mem_line indent p _ hmem

/-- A tree is the only one with its dump. -/
theorem dump_injective {indent : Nat} (hindent : 1 ≤ indent) :
    Function.Injective (dump ⟨true, indent⟩) := by
  intro x y h
  have hsplit := congrArg (List.splitOn '\n') h
  rw [splitOn_dump, splitOn_dump] at hsplit
  have hlines := List.append_cancel_right hsplit
  have hentries : x.elements.map Placed.entry = y.elements.map Placed.entry := by
    rw [← List.forall₂_eq_eq_eq, List.forall₂_map_left_iff, List.forall₂_map_right_iff] at hlines ⊢
    exact hlines.imp fun p q => Placed.entry_eq_of_line_eq hindent
  exact (preorder_inj x y (startsAbove_nil _) (startsAbove_nil _) (congrArg (· ++ []) hentries)).1

/-- The lines of a dump are the elements in preorder, and no other tree has the same dump. -/
theorem dump_determines (indent : Nat) (hindent : 1 ≤ indent) :
    Function.Injective (dump ⟨true, indent⟩) ∧
      ∀ root : Element,
        (root.dump ⟨true, indent⟩).splitOn '\n' =
          root.elements.map (Placed.line indent) ++ [[]] ∧
        ∀ p ∈ root.elements, ∀ c ∈ p.line indent, isLineBreak c = false :=
  ⟨dump_injective hindent, fun root =>
    ⟨splitOn_dump indent root, fun p _ => isLineBreak_of_mem_line indent p⟩⟩

/-- An empty node, an empty token, and a token whose text looks like a line of a dump. -/
theorem dump_determines_lookalike :
    1 ≤ 1 ∧
      (node .error [node .error [], token .error [], token .ident "a\n Ident@1..2".toList]).dump
          ⟨true, 1⟩ ≠
        (node .error [token .error [], node .error [], token .ident "a\n Ident@1..2".toList]).dump
          ⟨true, 1⟩ ∧
      ((node .error [node .error [], token .error [], token .ident "a\n Ident@1..2".toList]).dump
          ⟨true, 1⟩).splitOn '\n' =
        ["Error@0..13".toList, " Error@0..0".toList, " Error@0..0 \"\"".toList,
          " Ident@0..13 \"a\\n Ident@1..2\"".toList, []] := by
  refine ⟨le_rfl, ?_, ?_⟩
  · intro h
    cases (dump_determines 1 le_rfl).1 h
  · rw [((dump_determines 1 le_rfl).2 _).1]
    decide +kernel

end Element

end RuleLang
