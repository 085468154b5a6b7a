import RuleLang.Proofs.Lexeme.Boundary
import RuleLang.Proofs.Lexer.Relex
import RuleLang.Proofs.Recipe.SpelledJoins

/-!
# When words for symbols are read back

A word that takes the place of a symbol may run together with what stands next to the symbol. Then
the text no longer falls into the leaves that it was put together from.

## Main definitions

* `Apart` — a word does not run together with the leaves next to it.
* `Detached` — no word that takes the place of a symbol runs together with its neighbours.

## Main statements

* `lexes_respelled_iff` — leaves with words for symbols are read back exactly if the words stand
  apart.
-/

namespace RuleLang

open Lexeme

/-- A word for a symbol does not run together with the leaves before it, of which the nearest comes
first, and with the leaves after it. -/
structure Apart (before after : List Leaf) : Prop where
  left : (before.head?.bind fun l => l.text.getLast?).any isWordPart = false
  right : (after.head?.bind fun l => l.text.head?).any isWordPart = false
  /-- In front of a word `!.` is a single token. -/
  bang : ¬ [['.'], ['!']] <+: before.map Leaf.text

/-- Each leaf of the second list that differs from its counterpart stands apart from its neighbours.
The leaves before the second list are given with the nearest first. -/
def Detached : List Leaf → List Leaf → List Leaf → Prop
  | before, l :: ls, l' :: ls' => (l' ≠ l → Apart before ls') ∧ Detached (l' :: before) ls ls'
  | _, _, _ => True

instance (before after : List Leaf) : Decidable (Apart before after) :=
  decidable_of_iff
    ((before.head?.bind fun l => l.text.getLast?).any isWordPart = false ∧
      (after.head?.bind fun l => l.text.head?).any isWordPart = false ∧
      ¬ [['.'], ['!']] <+: before.map Leaf.text)
    ⟨fun h => ⟨h.1, h.2.1, h.2.2⟩, fun h => ⟨h.left, h.right, h.bang⟩⟩

/-- Whether words run together can be read off the leaves. -/
instance decidableDetached : (before ls ls' : List Leaf) → Decidable (Detached before ls ls')
  | _, [], _ => .isTrue trivial
  | _, _ :: _, [] => .isTrue trivial
  | before, l :: ls, l' :: ls' =>
    have := decidableDetached (l' :: before) ls ls'
    inferInstanceAs (Decidable ((l' ≠ l → Apart before ls') ∧ Detached (l' :: before) ls ls'))

namespace Leaf

/-- The text of a word for a symbol. -/
theorem word_text {k : Kind} (hk : k = .ampAmp ∨ k = .pipePipe) :
    ∃ c w, (word k).text = c :: w ∧
      (c = 'a' ∧ w = ['n', 'd'] ∧ (word k).kind = .andKw ∨
        c = 'o' ∧ w = ['r'] ∧ (word k).kind = .orKw) := by
  rcases hk with rfl | rfl
  · exact ⟨'a', ['n', 'd'], rfl, .inl ⟨rfl, rfl, rfl⟩⟩
  · exact ⟨'o', ['r'], rfl, .inr ⟨rfl, rfl, rfl⟩⟩

theorem word_ne {l : Leaf} (hk : l.kind = .ampAmp ∨ l.kind = .pipePipe) : word l.kind ≠ l := by
  intro h
  have := congrArg Leaf.kind h
  rcases hk with hk | hk <;> rw [hk] at this <;> cases this

end Leaf

theorem Lexes.append {mode : Mode} {a b : List Leaf} (h : Lexes mode (a ++ b)) :
    ∃ mode', Lexes mode' b := by
  induction a generalizing mode with
  | nil => exact ⟨mode, h⟩
  | cons l a ih =>
    obtain ⟨c, rest, mode', -, -, h⟩ := h
    exact ih h

theorem Lexes.text_ne_nil {mode : Mode} {ls : List Leaf} (h : Lexes mode ls) :
    ∀ l ∈ ls, l.text ≠ [] := by
  induction ls generalizing mode with
  | nil => exact fun l hl => absurd hl List.not_mem_nil
  | cons l ls ih =>
    obtain ⟨c, rest, mode', htext, -, h⟩ := h
    exact List.forall_mem_cons.2 ⟨by simp [htext], ih h⟩

/-- A symbol is read outside consequences. -/
theorem Lexes.symbol {mode : Mode} {l : Leaf} {ls : List Leaf} (h : Lexes mode (l :: ls))
    (hk : l.kind = .ampAmp ∨ l.kind = .pipePipe) :
    mode = .normal ∧ l.text = (l.kind.spelling?.getD "").toList ∧ Lexes .normal ls := by
  obtain ⟨c, rest, mode', htext, hnext, h⟩ := h
  obtain ⟨hmode, rfl, hlen, after, hafter⟩ := next_symbol hk hnext
  refine ⟨hmode, ?_, h⟩
  have hsymbol : (l.kind.spelling?.getD "").toList.length = 2 := by
    rcases hk with hk | hk <;> rw [hk] <;> rfl
  rw [← List.cons_append, ← htext] at hafter
  exact (List.append_inj hafter (hlen.trans hsymbol.symm)).1

theorem textOf_word {k : Kind} (hk : k = .ampAmp ∨ k = .pipePipe) (ls : List Leaf) :
    ∃ d x, (d = 'a' ∨ d = 'o') ∧ textOf (Leaf.word k :: ls) = d :: x := by
  obtain ⟨d, w, hword, hw⟩ := Leaf.word_text hk
  exact ⟨d, w ++ textOf ls, hw.imp And.left And.left, by rw [textOf_cons, hword, List.cons_append]⟩

theorem Lexes.left {mode : Mode} {l : Leaf} {ls : List Leaf} {k : Kind}
    (hk : k = .ampAmp ∨ k = .pipePipe) (h : Lexes mode (l :: Leaf.word k :: ls)) :
    l.text.getLast?.any isWordPart = false := by
  obtain ⟨c, rest, mode', htext, hnext, -⟩ := h
  obtain ⟨d, x, hd, hx⟩ := textOf_word hk ls
  rw [hx, htext] at hnext
  rw [htext]
  exact getLast?_of_next hd hnext

theorem Lexes.right {mode : Mode} {ls : List Leaf} {k : Kind} (hk : k = .ampAmp ∨ k = .pipePipe)
    (h : Lexes mode (Leaf.word k :: ls)) :
    (ls.head?.bind fun l => l.text.head?).any isWordPart = false := by
  obtain ⟨d, w, hword, hw⟩ := Leaf.word_text hk
  obtain ⟨c, rest, mode', htext, hnext, hls⟩ := h
  obtain ⟨rfl, rfl⟩ := List.cons.inj (hword.symm.trans htext)
  rw [hword] at hnext
  have hhead := (of_next_word hw hnext).2.2
  cases ls with
  | nil => rfl
  | cons l ls =>
    obtain ⟨c, rest, htext⟩ := List.exists_cons_of_ne_nil (hls.text_ne_nil l List.mem_cons_self)
    rw [List.head?_cons, Option.bind_some, htext]
    rwa [textOf_cons, htext] at hhead

theorem Lexes.bang {mode : Mode} {l₁ l₂ : Leaf} {ls : List Leaf} {k : Kind}
    (hk : k = .ampAmp ∨ k = .pipePipe) (h : Lexes mode (l₁ :: l₂ :: Leaf.word k :: ls))
    (h₁ : l₁.text = ['!']) : l₂.text ≠ ['.'] := by
  intro h₂
  obtain ⟨c, rest, mode', htext, hnext, -⟩ := h
  obtain ⟨d, x, hd, hx⟩ := textOf_word hk ls
  obtain ⟨rfl, rfl⟩ := List.cons.inj (h₁.symm.trans htext)
  rw [textOf_cons, hx, h₁, h₂] at hnext
  exact next_bang hd hnext

/-- A word that is read stands apart from the leaves around it. -/
theorem Lexes.apart {mode : Mode} {before after : List Leaf} {k : Kind}
    (hk : k = .ampAmp ∨ k = .pipePipe)
    (h : Lexes mode (before.reverse ++ Leaf.word k :: after)) : Apart before after := by
  refine ⟨?_, ?_, ?_⟩
  · cases before with
    | nil => rfl
    | cons l before =>
      rw [List.reverse_cons, List.append_assoc] at h
      exact h.append.choose_spec.left hk
  · exact h.append.choose_spec.right hk
  · rintro ⟨rest, hrest⟩
    cases before with
    | nil => cases hrest
    | cons l₂ before =>
      cases before with
      | nil => cases (List.cons.inj hrest).2
      | cons l₁ before =>
        obtain ⟨h₂, htail⟩ := List.cons.inj hrest
        obtain ⟨h₁, -⟩ := List.cons.inj htail
        rw [List.reverse_cons, List.reverse_cons, List.append_assoc, List.append_assoc] at h
        exact h.append.choose_spec.bang hk h₁.symm h₂.symm

/-- Words that are read stand apart. -/
theorem Lexes.detached {mode : Mode} {before ls ls' : List Leaf}
    (h : Lexes mode (before.reverse ++ ls')) (hls : List.Forall₂ Leaf.Respelled ls ls') :
    Detached before ls ls' := by
  induction hls generalizing before with
  | nil => trivial
  | @cons l l' ls ls' hl hls ih =>
    refine ⟨fun hne => ?_, ih (by simpa using h)⟩
    rcases hl with hl | ⟨hk, rfl⟩
    · exact absurd hl hne
    · exact h.apart hk

theorem Lexes.head?_textOf {mode : Mode} {ls : List Leaf} (h : Lexes mode ls) :
    (textOf ls).head? = ls.head?.bind fun l => l.text.head? := by
  cases ls with
  | nil => rfl
  | cons l ls =>
    obtain ⟨c, rest, mode', htext, -, -⟩ := h
    rw [textOf_cons, htext, List.head?_cons, Option.bind_some, htext]
    rfl

/-- A symbol and the word for it make a seam if no part of a word comes before them. -/
theorem Lexes.seam {mode : Mode} {l : Leaf} {ls : List Leaf} (h : Lexes mode (l :: ls))
    (hk : l.kind = .ampAmp ∨ l.kind = .pipePipe) {b : Char} (hb : isWordPart b = false)
    (ls' : List Leaf) : Seam b (textOf (l :: ls)) (textOf (Leaf.word l.kind :: ls')) := by
  refine ⟨hb, ?_, ?_⟩
  · rw [textOf_cons, (h.symbol hk).2.1]
    rcases hk with hk | hk <;> rw [hk]
    · exact .inl rfl
    · exact .inr rfl
  · rcases hk with hk | hk <;> rw [hk]
    · exact ⟨'d' :: textOf ls', .inl rfl⟩
    · exact ⟨textOf ls', .inr rfl⟩

namespace Detached

variable {mode : Mode} {before ls ls' : List Leaf}

/-- Texts are alike if words that stand apart take the place of symbols. -/
theorem alike {b : Char} (h : Detached before ls ls') (hls : List.Forall₂ Leaf.Respelled ls ls')
    (hlex : Lexes mode ls)
    (hb : (before.head?.bind fun l => l.text.getLast?).any isWordPart = false →
      isWordPart b = false) : Alike b (textOf ls) (textOf ls') := by
  induction hls generalizing before b mode with
  | nil => exact .refl b []
  | @cons l l' ls ls' hl hls ih =>
    rcases hl with rfl | ⟨hk, rfl⟩
    · obtain ⟨c, rest, mode', htext, -, hrest⟩ := hlex
      refine .append l'.text (ih h.2 hrest fun hlast => ?_)
      rw [List.head?_cons, Option.bind_some] at hlast
      have hne : l'.text ≠ [] := by simp [htext]
      rw [List.getLast?_eq_some_getLast hne] at hlast
      rwa [List.getLast_cons hne]
    · exact .seam (hlex.seam hk (hb (h.1 (Leaf.word_ne hk)).left) ls')

/-- No seam comes right after `!.`. -/
theorem not_seam {l : Leaf} {u v : List Char} (h : Detached before (l :: ls) (l :: ls'))
    (hls : List.Forall₂ Leaf.Respelled ls ls') (hlex : Lexes mode ls) (hl : l.text = ['!'])
    (hu : textOf ls = '.' :: u) (hv : textOf ls' = '.' :: v) : ¬ Seam '.' u v := by
  intro hseam
  have hheads {c : Char} (hx : u.head? = some c) (hy : v.head? = some c) : False := by
    obtain ⟨rest, rfl | rfl⟩ := hseam.spelling <;>
      rcases hseam.symbol with hs | hs <;> simp [hs] at hx hy <;> rw [← hx] at hy <;> cases hy
  cases hls with
  | nil => cases hu
  | @cons l₂ l₂' ls ls' hl₂ hls =>
    have hwhole := hlex
    obtain ⟨c, t, mode', htext, -, hrest⟩ := hlex
    rw [textOf_cons, htext, List.cons_append, List.cons.injEq] at hu
    obtain ⟨rfl, hu⟩ := hu
    rcases hl₂ with rfl | ⟨hk, rfl⟩
    · rw [textOf_cons, htext, List.cons_append, List.cons.injEq] at hv
      have hv := hv.2
      cases t with
      | cons e t => exact hheads (by rw [← hu]; rfl) (by rw [← hv]; rfl)
      | nil =>
        cases hls with
        | nil =>
          rw [← hu] at hseam
          exact absurd hseam.symbol (by simp)
        | @cons l₃ l₃' ls ls' hl₃ hls =>
          by_cases hne : l₃' = l₃
          · obtain ⟨c, t, -, htext₃, -, -⟩ := hrest
            refine hheads (c := c) ?_ ?_
            · rw [← hu, List.nil_append, textOf_cons, htext₃]
              rfl
            · rw [← hv, List.nil_append, textOf_cons, hne, htext₃]
              rfl
          · refine (h.2.2.1 hne).bang ⟨before.map Leaf.text, ?_⟩
            rw [List.map_cons, List.map_cons, hl, htext]
            rfl
    · have := (hwhole.symbol hk).2.1
      rw [htext] at this
      rcases hk with hk | hk <;> rw [hk] at this <;> cases (List.cons.inj this).1

/-- Words that stand apart are read. -/
theorem lexes (h : Detached before ls ls') (hls : List.Forall₂ Leaf.Respelled ls ls')
    (hlex : Lexes mode ls) : Lexes mode ls' := by
  induction hls generalizing before mode with
  | nil => trivial
  | @cons l l' ls ls' hl hls ih =>
    have hwhole := hlex
    obtain ⟨c, rest, mode', htext, hnext, hrest⟩ := hlex
    rcases hl with rfl | ⟨hk, rfl⟩
    · refine ⟨c, rest, mode', htext, ?_, ih h.2 hrest⟩
      rw [htext] at hnext ⊢
      refine next_of_alike rfl (h.2.alike hls hrest ?_) ?_ hnext
      · rw [List.head?_cons, Option.bind_some, htext,
          List.getLast?_eq_some_getLast (List.cons_ne_nil c rest)]
        exact id
      · rintro u v rfl rfl hu hv
        exact h.not_seam hls hrest htext hu hv
    · obtain ⟨hmode, -, hrest⟩ := hwhole.symbol hk
      obtain ⟨d, w, hword, hw⟩ := Leaf.word_text hk
      have hls' := ih h.2 hrest
      have hright := (h.1 (Leaf.word_ne hk)).right
      rw [← hls'.head?_textOf] at hright
      refine ⟨d, w, .normal, hword, ?_, hls'⟩
      rw [hmode, hword]
      exact next_word hw hright

end Detached

/-- Leaves with words for symbols are read back exactly if the words stand apart. -/
theorem lexes_respelled_iff {mode : Mode} {ls ls' : List Leaf} (hlex : Lexes mode ls)
    (hls : List.Forall₂ Leaf.Respelled ls ls') : Lexes mode ls' ↔ Detached [] ls ls' :=
  ⟨fun h => h.detached hls, fun h => h.lexes hls hlex⟩

end RuleLang
