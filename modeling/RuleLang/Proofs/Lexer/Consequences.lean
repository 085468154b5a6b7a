import RuleLang.Proofs.Lexer.Part

/-!
# The tokens of a consequence

Two scanners have to agree on where a consequence ends. The search for the closing `end` decides how
long the consequence is, and it is read as one token without the blanks at its end. What reads on
from there knows nothing of the search, and has to meet that very `end` as a keyword.

## Main definitions

* `OpensConsequence` — the tokens that may follow a `then`.
* `ConsequencesInPlace` — in a list of tokens, consequences stand after `then` and nowhere else.

## Main statements

* `consequencesInPlace_lex` — the tokens of every text.
-/

namespace RuleLang

open Text Lexeme

/-- The tokens that may follow a `then`: trivia, at most one consequence with blanks after it, and
then the closing `end` or the end of the text. -/
def OpensConsequence (tokens : List Token) : Prop :=
  ∃ trivia action blanks close rest,
    tokens = trivia ++ action ++ blanks ++ close :: rest ∧
      (∀ t ∈ trivia, t.isTrivia = true) ∧
      action.length ≤ 1 ∧ (∀ a ∈ action, a.kind = .actionText) ∧
      (∀ b ∈ blanks, b.kind = .whitespace ∨ b.kind = .newline) ∧
      (close.kind = .endKw ∨ close.kind = .eof)

/-- What precedes a consequence: `then` and trivia. -/
def EndsWithThen (tokens : List Token) : Prop :=
  ∃ front t trivia, tokens = front ++ t :: trivia ∧ t.kind = .thenKw ∧
    ∀ u ∈ trivia, u.isTrivia = true

/-- Without trivia at its start and without blanks at its end. -/
structure IsTrimmed (text : List Char) : Prop where
  ne_nil : text ≠ []
  start : startsTrivia text = false
  stop : text.getLast?.any isBlank = false

/-- Every `then` opens a consequence, and consequences stand nowhere else. -/
structure ConsequencesInPlace (tokens : List Token) : Prop where
  opens : ∀ before t after, tokens = before ++ t :: after → t.kind = .thenKw →
    OpensConsequence after
  action : ∀ before a after, tokens = before ++ a :: after → a.kind = .actionText →
    EndsWithThen before ∧ IsTrimmed a.text

/-! ## The text of a consequence -/

namespace Lexeme

theorem getLast?_trimEnd (text : List Char) : (trimEnd text).getLast?.any isBlank = false := by
  have h := List.head?_dropWhile_not isBlank text.reverse
  rw [trimEnd, List.getLast?_reverse]
  cases hd : (text.reverse.dropWhile isBlank).head? with
  | none => rfl
  | some c => simpa [hd] using h

/-- Trivia that opens a piece of a text opens the text. -/
theorem startsTrivia_of_left {w : List Char} (x : List Char) (h : startsTrivia w = true) :
    startsTrivia (w ++ x) = true := by
  cases w with
  | nil => cases h
  | cons c w =>
    cases w with
    | nil => simp_all [startsTrivia, startsLineComment_cons, startsBlockComment_cons]
    | cons d w =>
      simpa [startsTrivia, startsLineComment_cons, startsBlockComment_cons] using h

theorem isTrimmed_action {w x : List Char} (hw : w ≠ []) (hlen : actionLength (w ++ x) = w.length)
    (h : startsTrivia (w ++ x) = false) : IsTrimmed w := by
  obtain ⟨blanks, -, htrim, -⟩ := follows_action hlen
  refine ⟨hw, ?_, htrim ▸ getLast?_trimEnd _⟩
  rw [← Bool.not_eq_true] at h ⊢
  exact mt (startsTrivia_of_left x) h

/-- The word `end` is a keyword wherever it is a whole word. -/
theorem normal_end {after : List Char} (h : after.head?.any isWordPart = false) :
    normal 'e' ('n' :: 'd' :: after) = ⟨.endKw, 3, none⟩ := by
  have hend : wordLength (['e', 'n', 'd'] ++ after) = (3, .endKw) :=
    wordLength_of_keyword (List.all_eq_true.1 (by decide)) (by decide +kernel) (by decide +kernel) h
  rw [normal_letter (.inl rfl)]
  exact congrArg (fun p : Nat × Kind => (⟨p.2, p.1, none⟩ : Lexeme)) hend

theorem kind_of_isBlank {c : Char} (rest : List Char) (hc : isBlank c = true) :
    (normal c rest).kind = .whitespace ∨ (normal c rest).kind = .newline := by
  cases hbreak : isLineBreak c <;> simp [normal, hc, hbreak]

theorem next_of_isBlank {c : Char} (rest : List Char) (hc : isBlank c = true) :
    next .normal c rest = (normal c rest, .normal) := by
  rw [next_normal, if_neg]
  rcases kind_of_isBlank rest hc with h | h <;> simp [h]

theorem isBlank_of_mem_take {c : Char} {rest : List Char} (hc : isBlank c = true) :
    ∀ d ∈ (c :: rest).take (normal c rest).length, isBlank d = true := by
  obtain ⟨n, hn⟩ : ∃ n, (normal c rest).length = n + 1 :=
    Nat.exists_eq_succ_of_ne_zero (length_next_pos .normal c rest).ne'
  have hle : n + 1 ≤ rest.length + 1 := hn ▸ length_next_le .normal c rest
  have hfault : (normal c rest).fault = none := by
    cases hbreak : isLineBreak c <;> simp [normal, hc, hbreak]
  rw [hn, List.take_succ_cons]
  have hwhole : normal c (rest.take n ++ rest.drop n) =
      ⟨(normal c rest).kind, (rest.take n).length + 1, none⟩ := by
    rw [List.take_append_drop, List.length_take, Nat.min_eq_left (by omega), ← hn, ← hfault]
  exact isBlank_of_normal hc hwhole

end Lexeme

/-! ## Stages -/

/-- Where reading stands. -/
inductive Stage where
  | code
  /-- After `then`, before the consequence. -/
  | opened
  /-- After the consequence, before the `end` that closes it. -/
  | closing
  deriving DecidableEq

namespace Stage

def mode : Stage → Mode
  | code => .normal
  | opened => .consequence
  | closing => .normal

/-- What a stage knows of the text that comes next: after a consequence, the search has found where
it ends. -/
def Fits : Stage → List Char → Prop
  | closing, text => ∃ blanks x, text = blanks ++ x ∧ (∀ c ∈ blanks, isBlank c = true) ∧
      (x = [] ∨ ∃ after, x = 'e' :: 'n' :: 'd' :: after ∧ after.head?.any isWordPart = false)
  | _, _ => True

/-- From stage to stage with each token. -/
inductive Step : Stage → Token → Stage → Prop
  | plain {t : Token} (kind : t.kind ≠ .thenKw ∧ t.kind ≠ .actionText) : Step code t code
  | opens {t : Token} (kind : t.kind = .thenKw) : Step code t opened
  | trivia {t : Token} (kind : t.isTrivia = true) : Step opened t opened
  | action {t : Token} (kind : t.kind = .actionText) (text : IsTrimmed t.text) :
    Step opened t closing
  | blank {t : Token} (kind : t.kind = .whitespace ∨ t.kind = .newline) : Step closing t closing
  | close {s : Stage} {t : Token} (opened : s ≠ code) (kind : t.kind = .endKw) : Step s t code

/-- The tokens that can be read from a stage on. -/
inductive Run : Stage → List Token → Prop
  | eof {s : Stage} {t : Token} (kind : t.kind = .eof) : Run s [t]
  | cons {s s' : Stage} {t : Token} {ts : List Token} (step : Step s t s') (tail : Run s' ts) :
    Run s (t :: ts)

variable {c : Char} {rest : List Char}

/-- A stage that the lexeme of a text leads to, with the mode that reading goes on in. -/
def Goes (s : Stage) (lexeme : Lexeme) (mode : Mode) (text : List Char) (p : Position) : Prop :=
  ∃ s' : Stage, Step s ⟨lexeme.kind, text.take lexeme.length, p⟩ s' ∧ s'.mode = mode ∧
    s'.Fits (text.drop lexeme.length)

theorem goes_code (p : Position) :
    Goes code (normal c rest) (next .normal c rest).2 (c :: rest) p := by
  rw [next_normal]
  by_cases hthen : (normal c rest).kind = .thenKw
  · exact ⟨opened, .opens hthen, by simp [hthen, mode], trivial⟩
  · exact ⟨code, .plain ⟨hthen, kind_normal_ne_action c rest⟩, by simp [hthen, mode], trivial⟩

/-- The word that the search takes for the closing `end` is read as the keyword. -/
theorem goes_end {s : Stage} {after : List Char} (p : Position) (hs : s ≠ code)
    (h : after.head?.any isWordPart = false) :
    Goes s (normal 'e' ('n' :: 'd' :: after)) .normal ('e' :: 'n' :: 'd' :: after) p := by
  rw [normal_end h]
  exact ⟨code, .close hs rfl, rfl, trivial⟩

theorem goes_action (p : Position) (htrivia : startsTrivia (c :: rest) = false)
    (hpos : actionLength (c :: rest) ≠ 0) :
    Goes opened ⟨.actionText, actionLength (c :: rest), none⟩ .normal (c :: rest) p := by
  obtain ⟨w, x, hsplit, hlen⟩ : ∃ w x, c :: rest = w ++ x ∧ actionLength (c :: rest) = w.length :=
    ⟨_, _, (List.take_append_drop (actionLength (c :: rest)) _).symm, by
      rw [List.length_take, Nat.min_eq_left (actionLength_le _)]⟩
  rw [hsplit] at htrivia hlen ⊢
  have hw : w ≠ [] := by
    intro h
    rw [hsplit, hlen, h] at hpos
    exact hpos rfl
  obtain ⟨blanks, hblanks, -, hx⟩ := follows_action hlen
  refine ⟨closing, .action rfl ?_, rfl, ?_⟩
  · simpa [hlen] using isTrimmed_action hw hlen htrivia
  · simp only [hlen, List.drop_left]
    rcases hx with rfl | ⟨after, rfl, hword, -⟩
    · exact ⟨x, [], by simp, hblanks, .inl rfl⟩
    · exact ⟨blanks, _, List.append_assoc _ _ _, hblanks, .inr ⟨after, rfl, hword⟩⟩

theorem goes_opened (p : Position) :
    Goes opened (next .consequence c rest).1 (next .consequence c rest).2 (c :: rest) p := by
  by_cases htrivia : startsTrivia (c :: rest) = true
  · have hnext : next .consequence c rest = (normal c rest, .consequence) := by simp [next, htrivia]
    rw [hnext]
    exact ⟨opened, .trivia (isTrivia_of_startsTrivia htrivia), rfl, trivial⟩
  rw [Bool.not_eq_true] at htrivia
  by_cases haction : actionLength (c :: rest) = 0
  · have hblank : isBlank c = false := by
      simp only [startsTrivia, Bool.or_eq_false_iff] at htrivia
      exact htrivia.1.1
    obtain ⟨after, htext, hword, -⟩ := of_closesHere ((actionLength_eq_zero_iff hblank _).1 haction)
    obtain ⟨rfl, rfl⟩ := List.cons.inj htext
    have hnext : next .consequence 'e' ('n' :: 'd' :: after) =
        (normal 'e' ('n' :: 'd' :: after), .normal) := by
      simp [next, htrivia, haction, normal_end hword]
    rw [hnext]
    exact goes_end p (by simp) hword
  · have hnext : next .consequence c rest =
        (⟨.actionText, actionLength (c :: rest), none⟩, .normal) := by
      simp [next, htrivia, Nat.pos_of_ne_zero haction]
    rw [hnext]
    exact goes_action p htrivia haction

theorem goes_closing (p : Position) (h : Fits closing (c :: rest)) :
    Goes closing (normal c rest) (next .normal c rest).2 (c :: rest) p := by
  obtain ⟨blanks, x, htext, hblanks, hx⟩ := h
  cases blanks with
  | nil =>
    rcases hx with rfl | ⟨after, rfl, hword⟩
    · cases htext
    · obtain ⟨rfl, rfl⟩ := List.cons.inj htext
      have hnext := congrArg Prod.snd (next_normal 'e' ('n' :: 'd' :: after))
      rw [normal_end hword] at hnext
      rw [hnext]
      exact goes_end p (by simp) hword
  | cons b blanks =>
    obtain ⟨rfl, rfl⟩ := List.cons.inj htext
    have hc := hblanks c List.mem_cons_self
    have hhead : x.head?.any isBlank = false := by
      rcases hx with rfl | ⟨after, rfl, -⟩
      · rfl
      · exact (rfl : isBlank 'e' = false)
    obtain ⟨more, hmore, hdrop⟩ := eq_append_of_blanks (isBlank_of_mem_take hc) hhead
      ((List.take_append_drop (normal c (blanks ++ x)).length _).trans
        (List.cons_append : c :: blanks ++ x = c :: (blanks ++ x)).symm)
    rw [hmore] at hblanks
    exact ⟨closing, .blank (kind_of_isBlank _ hc), by rw [next_of_isBlank _ hc]; rfl,
      more, x, hdrop, fun d hd => hblanks d (List.mem_append_right _ hd), hx⟩

/-- One step of reading: the next lexeme leads from stage to stage. -/
theorem goes_next (s : Stage) (p : Position) (h : s.Fits (c :: rest)) :
    Goes s (next s.mode c rest).1 (next s.mode c rest).2 (c :: rest) p := by
  cases s with
  | code => exact goes_code p
  | opened => exact goes_opened p
  | closing => exact goes_closing p h

/-- All of reading. -/
theorem run_scan {s : Stage} {mode : Mode} (p : Position) {text : List Char}
    (hmode : s.mode = mode) (h : s.Fits text) :
    s.Run ((scan mode p 0 text).map Scanned.token) := by
  subst hmode
  induction hn : text.length using Nat.strongRecOn generalizing s p text with
  | ind n ih =>
    subst hn
    cases text with
    | nil => exact .eof rfl
    | cons c rest =>
      have hpos := length_next_pos s.mode c rest
      obtain ⟨s', hstep, hmode, hfits⟩ := goes_next s p h
      rw [scan_cons, List.map_cons]
      refine .cons hstep ?_
      rw [← hmode]
      refine ih _ ?_ _ hfits rfl
      rw [List.length_drop, List.length_cons]
      omega

end Stage

/-! ## The tokens from a stage on -/

namespace Stage.Run

variable {s s' : Stage} {t : Token} {tokens : List Token}

theorem of_kind (h : Run s (t :: tokens)) (ht : t.kind ≠ .eof) :
    ∃ s', Step s t s' ∧ Run s' tokens := by
  cases h with
  | eof kind => exact absurd kind ht
  | cons step tail => exact ⟨_, step, tail⟩

theorem of_cons (h : Run s (t :: tokens)) (ht : tokens ≠ []) :
    ∃ s', Step s t s' ∧ Run s' tokens := by
  cases h with
  | eof => exact absurd rfl ht
  | cons step tail => exact ⟨_, step, tail⟩

/-- After a consequence come blanks, and then the closing `end` or the end of the text. -/
theorem closing (h : Run .closing tokens) : ∃ blanks close rest,
    tokens = blanks ++ close :: rest ∧ (∀ b ∈ blanks, b.kind = .whitespace ∨ b.kind = .newline) ∧
      (close.kind = .endKw ∨ close.kind = .eof) := by
  generalize hs : Stage.closing = s at h
  induction h with
  | @eof s t kind => exact ⟨[], t, [], rfl, by simp, .inr kind⟩
  | @cons s s' t ts step _ ih =>
    subst hs
    cases step with
    | blank kind =>
      obtain ⟨blanks, close, rest, rfl, hblanks, hclose⟩ := ih rfl
      exact ⟨t :: blanks, close, rest, rfl, List.forall_mem_cons.2 ⟨kind, hblanks⟩, hclose⟩
    | close _ kind => exact ⟨[], t, ts, rfl, by simp, .inl kind⟩

theorem opened (h : Run .opened tokens) : OpensConsequence tokens := by
  generalize hs : Stage.opened = s at h
  induction h with
  | @eof s t kind => exact ⟨[], [], [], t, [], rfl, by simp, by simp, by simp, by simp, .inr kind⟩
  | @cons s s' t ts step tail ih =>
    subst hs
    cases step with
    | trivia kind =>
      obtain ⟨trivia, action, blanks, close, rest, rfl, htrivia, hrest⟩ := ih rfl
      exact ⟨t :: trivia, action, blanks, close, rest, rfl,
        List.forall_mem_cons.2 ⟨kind, htrivia⟩, hrest⟩
    | action kind _ =>
      obtain ⟨blanks, close, rest, rfl, hblanks, hclose⟩ := tail.closing
      exact ⟨[], [t], blanks, close, rest, rfl, by simp, le_rfl, by simpa using kind, hblanks,
        hclose⟩
    | close _ kind =>
      exact ⟨[], [], [], t, ts, rfl, by simp, by simp, by simp, by simp, .inl kind⟩

theorem ends (step : Step s t s') (hs : s' = .opened) :
    t.kind = .thenKw ∨ s = .opened ∧ t.isTrivia = true := by
  subst hs
  cases step with
  | opens kind => exact .inl kind
  | trivia kind => exact .inr ⟨rfl, kind⟩

/-- In the middle of the tokens: what is read from there on, and that a consequence comes next only
after `then` and trivia. -/
theorem split {before after : List Token} (h : Run s (before ++ t :: after)) :
    ∃ s', Run s' (t :: after) ∧ (s' = .opened →
      EndsWithThen before ∨ s = .opened ∧ ∀ u ∈ before, u.isTrivia = true) := by
  induction before generalizing s with
  | nil => exact ⟨s, h, fun hs => .inr ⟨hs, by simp⟩⟩
  | cons u before ih =>
    obtain ⟨s₁, step, tail⟩ := h.of_cons (by simp)
    obtain ⟨s', hrun, hopened⟩ := ih tail
    refine ⟨s', hrun, fun hs => ?_⟩
    rcases hopened hs with ⟨front, v, trivia, rfl, hv, htrivia⟩ | ⟨hs₁, htrivia⟩
    · exact .inl ⟨u :: front, v, trivia, rfl, hv, htrivia⟩
    · rcases ends step hs₁ with hu | ⟨hs, hu⟩
      · exact .inl ⟨[], u, before, rfl, hu, htrivia⟩
      · exact .inr ⟨hs, List.forall_mem_cons.2 ⟨hu, htrivia⟩⟩

theorem consequencesInPlace (h : Run .code tokens) : ConsequencesInPlace tokens where
  opens before t after htokens hthen := by
    obtain ⟨s, hs, -⟩ := (htokens ▸ h).split
    obtain ⟨s', step, tail⟩ := hs.of_kind (by simp [hthen])
    cases step with
    | opens _ => exact tail.opened
    | plain kind => exact absurd hthen kind.1
    | trivia kind => simp [Token.isTrivia, hthen, Kind.isTrivia] at kind
    | action kind _ => simp [hthen] at kind
    | blank kind => simp [hthen] at kind
    | close _ kind => simp [hthen] at kind
  action before a after htokens haction := by
    obtain ⟨s, hs, hopened⟩ := (htokens ▸ h).split
    obtain ⟨s', step, tail⟩ := hs.of_kind (by simp [haction])
    cases step with
    | action _ text => exact ⟨(hopened rfl).resolve_right (by simp), text⟩
    | opens kind => simp [haction] at kind
    | plain kind => exact absurd haction kind.2
    | trivia kind => simp [Token.isTrivia, haction, Kind.isTrivia] at kind
    | blank kind => simp [haction] at kind
    | close _ kind => simp [haction] at kind

end Stage.Run

/-- In the tokens of every text, every `then` opens a consequence, and consequences stand nowhere
else. -/
theorem consequencesInPlace_lex (source : List Char) : ConsequencesInPlace (lex source).tokens :=
  (Stage.run_scan (s := .code) .origin rfl trivial).consequencesInPlace

end RuleLang
