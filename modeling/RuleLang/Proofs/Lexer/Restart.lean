import Mathlib.Data.List.Induction
import RuleLang.Proofs.Lexeme.Parted
import RuleLang.Proofs.Lexer.Concat
import RuleLang.Proofs.Text.LineMap

/-!
# Reading from the middle of a text

What a lexeme is depends on the text from there on and, after `then`, on the mode. Lines and columns
that are counted over all the text before a token at once are those that were counted token by
token. So reading can start again at any token that no `then` precedes, and meets what was read
before.

Reading that starts at an offset counts the text before the offset alone. A line break that the
offset cuts in two counts twice then, as a `\r` that nothing follows and as a `\n`.

## Main statements

* `scan_split` — where and how reading goes on after its first items.
* `lexFrom_token` — reading from a token on.
* `line_lexFrom` — after a start in the middle of a line break every line is one too many.
* `position_lexFrom` — the positions are those of the whole text if reading starts anywhere else,
  and only then.
-/

namespace RuleLang

open Text

/-! ## The rest of a reading -/

/-- Reading goes on behind its first items as it would start there, in a mode that they tell. -/
theorem scan_split {mode : Mode} {p : Position} {text : List Char} {k : Option Kind}
    {before after : List Scanned} {s : Scanned} (h : scan mode p 0 text = before ++ s :: after)
    (hmode : mode = .consequence → k = some .thenKw) :
    ∃ front rest mode', text = front ++ rest ∧ Parted front rest ∧
      scan mode' (p.advance front) 0 rest = s :: after ∧
      (mode' = .consequence → lastKind k (before.map Scanned.token) = some .thenKw) := by
  induction before generalizing mode p text k with
  | nil => exact ⟨[], text, mode, rfl, .nil_left, h, hmode⟩
  | cons b before ih =>
    cases text with
    | nil => simp [scan] at h
    | cons c cs =>
      rw [scan_cons, List.cons_append, List.cons.injEq] at h
      obtain ⟨hb, h⟩ := h
      have hparted := Lexeme.parted_next mode c cs
      have hnext (hcons : (Lexeme.next mode c cs).2 = .consequence) :
          (if b.token.isTrivia then k else some b.token.kind) = some .thenKw := by
        have hkind : b.token.kind = (Lexeme.next mode c cs).1.kind := by rw [← hb]
        rw [Token.isTrivia, hkind]
        rcases Lexeme.kind_of_next (Prod.ext rfl hcons) with ⟨htrivia, hmode'⟩ | hthen
        · rw [if_pos htrivia, hmode hmode']
        · rw [hthen]
          rfl
      obtain ⟨front, rest, mode', htext, hrest, hscan, hlast⟩ := ih h hnext
      rw [htext] at hparted
      refine ⟨(c :: cs).take (Lexeme.next mode c cs).1.length ++ front, rest, mode', ?_,
        hparted.append_left hrest, ?_, hlast⟩
      · rw [List.append_assoc, ← htext, List.take_append_drop]
      · rw [Position.advance_append p hparted.of_append]
        exact hscan

/-- The first item stands where reading starts. -/
theorem position_of_scan {mode : Mode} {p : Position} {text : List Char} {s : Scanned}
    {after : List Scanned} (h : scan mode p 0 text = s :: after) : s.token.position = p := by
  cases text with
  | nil =>
    cases h
    rfl
  | cons c cs =>
    rw [scan_cons] at h
    cases h
    rfl

/-- Every token stands where counting over the text before it arrives. -/
theorem exists_position_of_mem {source : List Char} {t : Token} (h : t ∈ (lex source).tokens) :
    ∃ front rest, source = front ++ rest ∧ Parted front rest ∧
      t.position = Position.origin.advance front := by
  obtain ⟨s, hs, rfl⟩ := List.mem_map.1 h
  obtain ⟨before, after, hsplit⟩ := List.append_of_mem hs
  obtain ⟨front, rest, mode, htext, hparted, hscan, -⟩ :=
    scan_split (k := none) hsplit nofun
  exact ⟨front, rest, htext, hparted, position_of_scan hscan⟩

/-! ## Starts of tokens -/

namespace Covers

variable {n : Nat} {text : List Char} {tokens : List Token}

theorem le_start_of_mem (h : Covers n text tokens) : ∀ t ∈ tokens, n ≤ t.span.start := by
  induction h with
  | eof =>
    intro t ht
    rw [List.mem_singleton.1 ht]
    exact Nat.le_refl _
  | @cons t rest ts _ _ tail ih =>
    intro u hu
    rcases List.mem_cons.1 hu with rfl | hu
    · exact Nat.le_refl _
    · exact Nat.le_trans (Nat.le_add_right _ _) (ih u hu)

theorem pairwise_start (h : Covers n text tokens) :
    tokens.Pairwise fun t u => t.span.start < u.span.start := by
  induction h with
  | eof => exact List.pairwise_singleton _ _
  | @cons t rest ts _ text tail ih =>
    refine List.pairwise_cons.2 ⟨fun u hu => ?_, ih⟩
    have hwidth := length_le_byteLength t.text
    have hpos := List.length_pos_iff.2 text
    have hstop : t.span.stop = t.span.start + byteLength t.text := rfl
    have := tail.le_start_of_mem u hu
    omega

end Covers

/-! ## Reading again -/

theorem endsWithThen_of_lastKind {tokens : List Token} (h : lastKind none tokens = some .thenKw) :
    EndsWithThen tokens := by
  induction tokens using List.reverseRecOn with
  | nil => cases h
  | append_singleton tokens t ih =>
    rw [lastKind_append, lastKind, List.foldl_cons, List.foldl_nil] at h
    cases ht : t.isTrivia with
    | false =>
      rw [if_neg (by simp [ht])] at h
      exact ⟨tokens, t, [], rfl, Option.some.inj h, by simp⟩
    | true =>
      rw [if_pos ht] at h
      obtain ⟨front, u, trivia, rfl, hu, htrivia⟩ := ih h
      refine ⟨front, u, trivia ++ [t], by simp, hu, fun v hv => ?_⟩
      rcases List.mem_append.1 hv with hv | hv
      · exact htrivia v hv
      · rwa [List.mem_singleton.1 hv]

theorem lastKind_of_endsWithThen {tokens : List Token} (h : EndsWithThen tokens) :
    lastKind none tokens = some .thenKw := by
  obtain ⟨front, t, trivia, rfl, ht, htrivia⟩ := h
  rw [← List.singleton_append, ← List.append_assoc, lastKind_append, lastKind_of_trivia _ htrivia,
    lastKind_append, lastKind, List.foldl_cons, List.foldl_nil, Token.isTrivia, ht]
  rfl

instance (tokens : List Token) : Decidable (EndsWithThen tokens) :=
  decidable_of_iff (lastKind none tokens = some .thenKw)
    ⟨endsWithThen_of_lastKind, lastKind_of_endsWithThen⟩

/-- The errors from a byte offset on are those of the items from there on. -/
theorem filter_errors (before after : List Scanned) {n : Nat}
    (hbefore : ∀ s ∈ before, s.token.span.start < n) (hafter : ∀ s ∈ after, n ≤ s.token.span.start) :
    ((before ++ after).filterMap Scanned.error?).filter (fun e => n ≤ e.span.start) =
      after.filterMap Scanned.error? := by
  have hspan {s : Scanned} {e : LexError} (he : s.error? = some e) : e.span = s.token.span := by
    obtain ⟨fault, -, rfl⟩ := Option.map_eq_some_iff.1 he
    rfl
  have hnone : (before.filterMap Scanned.error?).filter (fun e => n ≤ e.span.start) = [] := by
    refine List.filter_eq_nil_iff.2 fun e he => ?_
    obtain ⟨s, hs, herror⟩ := List.mem_filterMap.1 he
    rw [hspan herror]
    simpa using hbefore s hs
  have hall : (after.filterMap Scanned.error?).filter (fun e => n ≤ e.span.start) =
      after.filterMap Scanned.error? := by
    refine List.filter_eq_self.2 fun e he => ?_
    obtain ⟨s, hs, herror⟩ := List.mem_filterMap.1 he
    rw [hspan herror]
    simpa using hafter s hs
  rw [List.filterMap_append, List.filter_append, hnone, hall, List.nil_append]

/-- Reading from a token on meets that token and all later ones again, and exactly the errors from
there on, unless a `then` with only trivia after it comes before the token. -/
theorem lexFrom_token {source : List Char} {before after : List Token} {t : Token}
    (h : (lex source).tokens = before ++ t :: after) (hthen : ¬ EndsWithThen before) :
    lexFrom source t.span.start =
      ⟨t :: after, (lex source).errors.filter fun e => t.span.start ≤ e.span.start⟩ := by
  obtain ⟨first, second, hscanned, rfl, hsecond⟩ := List.map_eq_append_iff.1 h
  obtain ⟨s, later, rfl, rfl, rfl⟩ := List.map_eq_cons_iff.1 hsecond
  obtain ⟨front, rest, mode, rfl, hparted, hscan, hmode⟩ :=
    scan_split (k := none) hscanned nofun
  have hnormal : mode = .normal := by
    cases mode with
    | normal => rfl
    | consequence => exact absurd (endsWithThen_of_lastKind (hmode rfl)) hthen
  subst hnormal
  have hstart : s.token.span.start = byteLength front := by
    rw [Token.span, position_of_scan hscan, Position.offset_advance]
    exact Nat.zero_add _
  have hstarts := (covers_lex (front ++ rest)).pairwise_start
  rw [h, List.pairwise_append] at hstarts
  obtain ⟨-, hlater, hbefore⟩ := hstarts
  have hfilter := filter_errors first (s :: later) (n := s.token.span.start)
    (fun b hb => hbefore _ (List.mem_map_of_mem hb) _ List.mem_cons_self)
    (fun a ha => by
      rcases List.mem_cons.1 ha with rfl | ha
      · exact Nat.le_refl _
      · exact (List.pairwise_cons.1 hlater).1 _ (List.mem_map_of_mem ha) |>.le)
  rw [← hscanned] at hfilter
  rw [lex, Lexed.ofScanned]
  dsimp only
  rw [hfilter, lexFrom, hstart, takeBytes_byteLength, dropBytes_byteLength, hscan]
  rfl

/-- A rule that ends on one line, a character that is no token, and a comment that nothing closes:
the comment is read again alone, on its line. -/
theorem lexFrom_token_comment :
    ∃ before t, (lex "then x; end\r\n\\ /*".toList).tokens = before ++ [t, ⟨.eof, [], ⟨17, 2, 5⟩⟩] ∧
      ¬EndsWithThen before ∧ t = ⟨.commentBlock, ['/', '*'], ⟨15, 2, 3⟩⟩ ∧
      lexFrom "then x; end\r\n\\ /*".toList 15 =
        ⟨[t, ⟨.eof, [], ⟨17, 2, 5⟩⟩], [⟨.unterminatedComment, ⟨15, 17⟩⟩]⟩ := by
  have hsplit : (lex "then x; end\r\n\\ /*".toList).tokens =
      (lex "then x; end\r\n\\ /*".toList).tokens.take 8 ++
        [⟨.commentBlock, ['/', '*'], ⟨15, 2, 3⟩⟩, ⟨.eof, [], ⟨17, 2, 5⟩⟩] := by decide +kernel
  have hthen : ¬EndsWithThen ((lex "then x; end\r\n\\ /*".toList).tokens.take 8) := by
    decide +kernel
  refine ⟨_, _, hsplit, hthen, rfl, (lexFrom_token hsplit hthen).trans ?_⟩
  decide +kernel

/-- After `then` a name would be read where a consequence was. -/
example : (lexFrom "then x".toList 5).tokens ≠ (lex "then x".toList).tokens.drop 2 := by
  decide +kernel

/-! ## A line break that is cut in two -/

variable {before after : List Char}

namespace Text.Parted

theorem exists_of_not (h : ¬Parted before after) :
    ∃ front rest, before = front ++ ['\r'] ∧ after = '\n' :: rest := by
  rw [Parted, Classical.not_imp, not_not] at h
  obtain ⟨front, hfront⟩ := List.getLast?_eq_some_iff.1 h.1
  obtain ⟨rest, hrest⟩ := List.head?_eq_some_iff.1 h.2
  exact ⟨front, rest, hfront, hrest⟩

theorem of_return : Parted before ('\r' :: after) := by
  simp [Parted]

end Text.Parted

/-- Each half of a line break ends a line when it is read alone. -/
theorem Position.line_advance_of_not_parted (p : Position) (h : ¬Parted before after) :
    ((p.advance before).advance after).line = (p.advance (before ++ after)).line + 1 := by
  obtain ⟨front, rest, rfl, rfl⟩ := Parted.exists_of_not h
  have hcut : (p.advance (front ++ ['\r'])).line = (p.advance front).line + 1 := by
    rw [advance_append p .of_return]
    rfl
  have hwhole : (p.advance (front ++ ['\r'] ++ '\n' :: rest)).line =
      (((p.advance front).past '\r' false).advance ('\n' :: rest)).line := by
    rw [List.append_assoc, List.singleton_append, advance_append p .of_return]
    rfl
  rw [hwhole, LineMap.line_advance (p.advance _) 0, LineMap.line_advance (past ..) 0, line_past, hcut,
    if_neg Bool.false_ne_true]
  omega

/-- Between its halves the line that a line break ends is not over. -/
theorem LineMap.line_ofSource_of_not_parted (h : ¬Parted before after) :
    ((ofSource (before ++ after)).position (byteLength before)).1 + 1 =
      (Position.origin.advance before).line := by
  obtain ⟨front, rest, rfl, rfl⟩ := Parted.exists_of_not h
  have hmin : min (byteLength (front ++ ['\r']))
      (byteLength (ofSource (front ++ ['\r'] ++ '\n' :: rest)).source) =
        byteLength (front ++ ['\r']) := by
    simp [ofSource]
  have hstarts : (ofSource (front ++ ['\r'] ++ '\n' :: rest)).starts =
      0 :: startsAfter 0 front ++ startsAfter (byteLength (front ++ ['\r'])) ('\n' :: rest) := by
    rw [ofSource, List.append_assoc, List.singleton_append, startsAfter_append 0 .of_return,
      startsAfter_cons]
    simp [endsLine]
  have hfront : ∀ n ∈ 0 :: startsAfter 0 front, decide (n ≤ byteLength (front ++ ['\r'])) = true := by
    intro n hn
    rw [decide_eq_true_eq, byteLength_append]
    rcases List.mem_cons.1 hn with rfl | hn
    · exact Nat.zero_le _
    · have := (lt_of_mem_startsAfter hn).2
      omega
  have hrest : (startsAfter (byteLength (front ++ ['\r'])) ('\n' :: rest)).takeWhile
      (· ≤ byteLength (front ++ ['\r'])) = [] := by
    have hpos : ¬byteLength (front ++ ['\r']) + '\n'.utf8Size ≤ byteLength (front ++ ['\r']) := by
      have := Char.utf8Size_pos '\n'
      omega
    have hends : endsLine '\n' rest = true := rfl
    rw [startsAfter_cons, if_pos hends]
    exact List.takeWhile_cons_of_neg (by simpa using hpos)
  have hline : (Position.origin.advance (front ++ ['\r'])).line =
      (startsAfter 0 front).length + 1 + 1 := by
    rw [Position.advance_append _ .of_return, line_advance _ 0, line_advance _ 0]
    exact congrArg (· + 1) (Nat.add_comm 1 _)
  rw [position, hline]
  simp only [hmin, hstarts, List.takeWhile_append_of_pos hfront, hrest, List.append_nil,
    List.length_cons]

/-! ## Positions of tokens -/

theorem exists_position_of_mem_lexFrom {source : List Char} {offset : Nat} {t : Token}
    (h : t ∈ (lexFrom source offset).tokens) :
    ∃ front rest, source = takeBytes offset source ++ (front ++ rest) ∧
      dropBytes offset source = front ++ rest ∧ Parted front rest ∧
      t.position = (Position.origin.advance (takeBytes offset source)).advance front := by
  obtain ⟨s, hs, rfl⟩ := List.mem_map.1 h
  obtain ⟨before, after, hsplit⟩ := List.append_of_mem hs
  obtain ⟨front, rest, mode, htext, hparted, hscan, -⟩ := scan_split (k := none) hsplit nofun
  have hsource := takeBytes_append_dropBytes offset source
  rw [htext] at hsource
  exact ⟨front, rest, hsource.symm, htext, hparted, position_of_scan hscan⟩

theorem tokens_lexFrom_ne_nil (source : List Char) (offset : Nat) :
    (lexFrom source offset).tokens ≠ [] := by
  rw [lexFrom, Lexed.ofScanned]
  cases dropBytes offset source with
  | nil => exact List.cons_ne_nil _ _
  | cons c cs =>
    rw [scan_cons]
    exact List.cons_ne_nil _ _

/-- A token starts where the text before it ends. -/
theorem Token.start_of_position {t : Token} {text front : List Char}
    (h : t.position = (Position.origin.advance text).advance front) :
    t.span.start = byteLength (text ++ front) := by
  rw [span, h, Position.offset_advance, Position.offset_advance, byteLength_append]
  exact congrArg (· + _) (Nat.zero_add _)

/-- From the middle of a line break on every line is one too many. -/
theorem line_lexFrom {source : List Char} {offset : Nat}
    (hcut : ¬Parted (takeBytes offset source) (dropBytes offset source)) :
    ∀ t ∈ (lexFrom source offset).tokens,
      t.position.line = ((LineMap.ofSource source).position t.span.start).1 + 1 := by
  intro t ht
  obtain ⟨front, rest, hsource, hdrop, hparted, hposition⟩ := exists_position_of_mem_lexFrom ht
  rw [hdrop] at hcut
  rw [Token.start_of_position hposition, hposition]
  generalize takeBytes offset source = taken at hsource hcut
  subst hsource
  -- the token stands between the two halves or behind both
  cases front with
  | nil =>
    rw [List.append_nil]
    exact (LineMap.line_ofSource_of_not_parted hcut).symm
  | cons c front =>
    have hfront : ¬Parted taken (c :: front) := fun h => hcut fun hlast => h hlast
    have hrest : Parted (taken ++ c :: front) rest := fun hlast => hparted (by simpa using hlast)
    rw [← List.append_assoc, LineMap.position_ofSource hrest]
    exact Position.line_advance_of_not_parted _ hfront

theorem position_lexFrom (source : List Char) (offset : Nat) :
    (∀ t ∈ (lexFrom source offset).tokens,
      (LineMap.ofSource source).position t.span.start = (t.position.line, t.position.column)) ↔
    Parted (takeBytes offset source) (dropBytes offset source) := by
  refine ⟨fun h => ?_, fun hstart t ht => ?_⟩
  · by_contra hcut
    obtain ⟨t, ht⟩ := List.exists_mem_of_ne_nil _ (tokens_lexFrom_ne_nil source offset)
    have hline := line_lexFrom hcut t ht
    rw [h t ht] at hline
    exact absurd hline (Nat.ne_of_lt (Nat.lt_succ_self _))
  · obtain ⟨front, rest, hsource, hdrop, hparted, hposition⟩ := exists_position_of_mem_lexFrom ht
    rw [hdrop] at hstart
    rw [Token.start_of_position hposition, hposition, ← Position.advance_append _ hstart.of_append]
    generalize takeBytes offset source = taken at hsource hstart
    subst hsource
    rw [← List.append_assoc]
    exact LineMap.position_ofSource (hstart.append_left hparted)

/-- Between `\r` and `\n` the second line seems to be over. -/
example : (lexFrom "a\r\nb".toList 2).tokens =
    [⟨.newline, ['\n'], ⟨2, 2, 1⟩⟩, ⟨.ident, ['b'], ⟨3, 3, 1⟩⟩, ⟨.eof, [], ⟨4, 3, 2⟩⟩] := by
  decide +kernel

end RuleLang
