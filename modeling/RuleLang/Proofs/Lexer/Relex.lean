import RuleLang.Element
import RuleLang.Proofs.Lexer.Coverage

/-!
# Which leaves are tokens of their text

A list of leaves is put together to a text. The text falls into these leaves again exactly if each of
them is the lexeme that opens the rest of the text.

## Main definitions

* `textOf` — the text of a list of leaves.
* `Lexes` — each leaf is the lexeme that opens the text from there on, and is well formed.

## Main statements

* `lexes_iff_lex` — the leaves are the tokens of their text.
-/

namespace RuleLang

/-- The text of a list of leaves. -/
def textOf (ls : List Leaf) : List Char :=
  ls.flatMap Leaf.text

@[simp] theorem textOf_nil : textOf [] = [] := rfl

@[simp] theorem textOf_cons (l : Leaf) (ls : List Leaf) : textOf (l :: ls) = l.text ++ textOf ls :=
  rfl

/-- Each leaf is the lexeme that opens the text from there on, and is well formed. -/
def Lexes : Mode → List Leaf → Prop
  | _, [] => True
  | mode, l :: ls =>
    ∃ c rest mode', l.text = c :: rest ∧
      Lexeme.next mode c (rest ++ textOf ls) = (⟨l.kind, l.text.length, none⟩, mode') ∧
      Lexes mode' ls

/-- Kind and text of a token that was scanned. -/
def Scanned.leaf (s : Scanned) : Leaf :=
  s.token.leaf

/-- A leaf that is the lexeme that opens the text comes first. -/
theorem scan_textOf_cons {mode mode' : Mode} {p : Position} {l : Leaf} {ls : List Leaf} {c : Char}
    {rest : List Char} {fault : Option Fault} (htext : l.text = c :: rest)
    (hnext : Lexeme.next mode c (rest ++ textOf ls) = (⟨l.kind, l.text.length, fault⟩, mode')) :
    scan mode p 0 (textOf (l :: ls)) =
      ⟨⟨l.kind, l.text, p⟩, fault⟩ :: scan mode' (p.advance l.text) 0 (textOf ls) := by
  have htake : (c :: (rest ++ textOf ls)).take (c :: rest).length = c :: rest :=
    @List.take_left _ (c :: rest) (textOf ls)
  have hdrop : (c :: (rest ++ textOf ls)).drop (c :: rest).length = textOf ls :=
    @List.drop_left _ (c :: rest) (textOf ls)
  rw [textOf_cons, htext, List.cons_append, scan_cons, hnext]
  simp only [htext, htake, hdrop]

/-- If the leaves are the tokens of their text, the first of them is the lexeme that opens it. -/
theorem exists_next_of_scan {mode : Mode} {p : Position} {l : Leaf} {ls : List Leaf}
    (h : (scan mode p 0 (textOf (l :: ls))).map Scanned.leaf = l :: ls ++ [⟨.eof, []⟩]) :
    ∃ c rest fault mode', l.text = c :: rest ∧
      Lexeme.next mode c (rest ++ textOf ls) = (⟨l.kind, l.text.length, fault⟩, mode') ∧
      (scan mode' (p.advance l.text) 0 (textOf ls)).map Scanned.leaf = ls ++ [⟨.eof, []⟩] := by
  cases hsrc : textOf (l :: ls) with
  | nil => simp [hsrc, scan] at h
  | cons c rest =>
    rw [hsrc, scan_cons] at h
    dsimp only at h
    obtain ⟨hl, hleaves⟩ := List.cons.inj h
    have hlen := Lexeme.length_next_le mode c rest
    have htext : l.text = (c :: rest).take (Lexeme.next mode c rest).1.length :=
      (congrArg Leaf.text hl).symm
    have htextlen : l.text.length = (Lexeme.next mode c rest).1.length := by
      rw [htext, List.length_take]
      exact Nat.min_eq_left hlen
    have hdrop : (c :: rest).drop (Lexeme.next mode c rest).1.length = textOf ls := by
      rw [← hsrc, textOf_cons, ← htextlen, List.drop_left]
    have hpos := Lexeme.length_next_pos mode c rest
    obtain ⟨text, htl⟩ : ∃ text, l.text = c :: text := by
      obtain ⟨n, hn⟩ := Nat.exists_eq_succ_of_ne_zero hpos.ne'
      exact ⟨rest.take n, by rw [htext, hn, List.take_succ_cons]⟩
    have hrest : text ++ textOf ls = rest := by
      rw [textOf_cons, htl, List.cons_append] at hsrc
      exact (List.cons.inj hsrc).2
    have hk : l.kind = (Lexeme.next mode c rest).1.kind := (congrArg Leaf.kind hl).symm
    rw [hdrop, ← htext] at hleaves
    exact ⟨c, text, (Lexeme.next mode c rest).1.fault, (Lexeme.next mode c rest).2, htl,
      by rw [hrest, hk, htextlen], hleaves⟩

theorem lexes_iff_scan {mode : Mode} {p : Position} {ls : List Leaf} :
    Lexes mode ls ↔
      (scan mode p 0 (textOf ls)).map Scanned.leaf = ls ++ [⟨.eof, []⟩] ∧
        ∀ s ∈ scan mode p 0 (textOf ls), s.fault = none := by
  induction ls generalizing mode p with
  | nil => simp [Lexes, scan, Scanned.leaf, Token.leaf]
  | cons l ls ih =>
    constructor
    · rintro ⟨c, rest, mode', htext, hnext, hls⟩
      obtain ⟨hleaves, hfault⟩ := (ih (p := p.advance l.text)).1 hls
      rw [scan_textOf_cons htext hnext]
      exact ⟨by simp [hleaves, Scanned.leaf, Token.leaf], List.forall_mem_cons.2 ⟨rfl, hfault⟩⟩
    · rintro ⟨hleaves, hfault⟩
      obtain ⟨c, rest, fault, mode', htext, hnext, hls⟩ := exists_next_of_scan hleaves
      rw [scan_textOf_cons htext hnext] at hfault
      obtain ⟨hnone, hrest⟩ := List.forall_mem_cons.1 hfault
      obtain rfl : fault = none := hnone
      exact ⟨c, rest, mode', htext, hnext, ih.2 ⟨hls, hrest⟩⟩

/-- The leaves are the tokens of their text, and the text has no malformed token. -/
theorem lexes_iff_lex {ls : List Leaf} :
    Lexes .normal ls ↔
      (lex (textOf ls)).tokens.map Token.leaf = ls ++ [⟨.eof, []⟩] ∧
        (lex (textOf ls)).errors = [] := by
  rw [lexes_iff_scan (p := .origin)]
  refine and_congr ?_ ?_
  · simp only [lex, Lexed.ofScanned, List.map_map]
    rfl
  · simp [lex, Lexed.ofScanned, List.filterMap_eq_nil_iff, Scanned.error?]

end RuleLang
