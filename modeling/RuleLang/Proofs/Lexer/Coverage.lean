import Mathlib.Data.List.Chain
import RuleLang.Lexer
import RuleLang.Proofs.Lexeme.Length
import RuleLang.Proofs.Text.Slice

/-!
# The tokens of a text cover it

Lexing loses nothing: the tokens of a text stand one after the other without gaps, from where
reading starts to the end of the text. Only the last of them is empty, and only the last is `eof`.

## Main definitions

* `Covers` — how a list of tokens covers a text, token by token.
* `Coverage` — what this means for the spans of the tokens in the whole text.

## Main statements

* `covers_scan` — reading covers every text, in both modes.
* `Covers.coverage` — spans, slices and lengths of the tokens that cover the end of a text.
-/

namespace RuleLang

open Text

/-! ## Kinds of lexemes -/

theorem Kind.isKeyword_of_ofKeyword? {word : List Char} {k : Kind}
    (h : Kind.ofKeyword? word = some k) : k.isKeyword = true := by
  obtain ⟨j, hj, he⟩ := List.mem_map.1 (Lexeme.mem_of_lookup h)
  cases he
  exact (List.mem_filter.1 hj).2

namespace Lexeme

theorem kind_number (text : List Char) :
    (numberLength text).2 = .intLit ∨ (numberLength text).2 = .floatLit := by
  have hd : (digitsLength.decimal text).2 = .intLit ∨ (digitsLength.decimal text).2 = .floatLit := by
    unfold digitsLength.decimal
    dsimp only
    split
    · exact .inl rfl
    · exact .inr rfl
  simp only [numberLength]
  unfold digitsLength
  split
  · split
    · exact .inl rfl
    · exact hd
  · exact hd

theorem kind_word (text : List Char) :
    (wordLength text).2 = .ident ∨ (wordLength text).2.isKeyword = true := by
  unfold wordLength
  dsimp only
  cases h : (joinedLengths 0 text).reverse.findSome? fun n =>
      (Kind.ofKeyword? (text.take n)).map fun k => (n, k) with
  | none => exact .inl rfl
  | some found =>
    obtain ⟨n, -, hf⟩ := List.exists_of_findSome?_eq_some h
    obtain ⟨k, hk, rfl⟩ := Option.map_eq_some_iff.1 hf
    exact .inr (Kind.isKeyword_of_ofKeyword? hk)

/-- The kinds of punctuation. -/
theorem mem_kinds_of_punctuation {text : List Char} {k : Kind} {n : Nat}
    (h : punctuation? text = some (k, n)) :
    k ∈ .bangDot :: (doublePunctuation.map Prod.snd ++ singlePunctuation.map Prod.snd) := by
  have hlookup {α : Type} [BEq α] [LawfulBEq α] {a : α} {table : List (α × Kind)} {k : Kind}
      (hk : table.lookup a = some k) : k ∈ table.map Prod.snd :=
    List.mem_map.2 ⟨(a, k), mem_of_lookup hk, rfl⟩
  unfold punctuation? at h
  split at h
  · rename_i kind hk
    cases h
    unfold double? at hk
    split at hk
    · split at hk
      · cases hk
        exact List.mem_cons_self
      · cases hk
    · exact List.mem_cons_of_mem _ (List.mem_append_left _ (hlookup hk))
    · cases hk
  · obtain ⟨kind, hk, he⟩ := Option.map_eq_some_iff.1 h
    obtain ⟨c, -, hk⟩ := Option.bind_eq_some_iff.1 hk
    cases he
    exact List.mem_cons_of_mem _ (List.mem_append_right _ (hlookup hk))

/-- What holds of the kinds of punctuation can be checked. -/
theorem kind_of_punctuation {q : Kind → Bool} {text : List Char} {k : Kind} {n : Nat}
    (h : punctuation? text = some (k, n))
    (hq : (Kind.bangDot :: (doublePunctuation.map Prod.snd ++
      singlePunctuation.map Prod.snd)).all q = true) : q k = true :=
  List.all_eq_true.1 hq k (mem_kinds_of_punctuation h)

theorem kind_punctuation_ne_eof {text : List Char} {k : Kind} {n : Nat}
    (h : punctuation? text = some (k, n)) : k ≠ .eof :=
  bne_iff_ne.1 (kind_of_punctuation (q := (· != .eof)) h (by decide))

theorem kind_normal_ne_eof (c : Char) (rest : List Char) : (normal c rest).kind ≠ .eof := by
  unfold normal
  dsimp only
  split
  · simp
  · split
    · simp
    · split
      · unfold slash
        split
        · simp
        · split
          · simp
          · split <;> simp
      · split
        · simp [string]
        · split
          · rcases kind_number (c :: rest) with h | h <;> simp [h]
          · split
            · intro h
              dsimp only at h
              rcases kind_word (c :: rest) with hw | hw <;> rw [h] at hw
              · cases hw
              · exact absurd hw (by decide)
            · split
              · rename_i hp
                exact kind_punctuation_ne_eof hp
              · simp

theorem kind_next_ne_eof (mode : Mode) (c : Char) (rest : List Char) :
    (next mode c rest).1.kind ≠ .eof := by
  unfold next
  dsimp only
  split
  · exact kind_normal_ne_eof c rest
  · split
    · simp
    · exact kind_normal_ne_eof c rest

end Lexeme

/-! ## Token by token -/

/-- A text that starts at a byte offset falls into tokens without gaps, up to one empty `eof`. -/
inductive Covers : Nat → List Char → List Token → Prop
  | eof {t : Token} (kind : t.kind = .eof) (text : t.text = []) :
    Covers t.position.offset [] [t]
  | cons {t : Token} {rest : List Char} {ts : List Token} (kind : t.kind ≠ .eof)
    (text : t.text ≠ []) (tail : Covers t.span.stop rest ts) :
    Covers t.position.offset (t.text ++ rest) (t :: ts)

/-- Characters that belong to a token that is already read are passed over. -/
theorem scan_skip (mode : Mode) (p : Position) (skip : Nat) (text : List Char) :
    scan mode p skip text = scan mode p 0 (text.drop skip) := by
  induction text generalizing skip with
  | nil => simp [scan]
  | cons c rest ih =>
    cases skip with
    | zero => rfl
    | succ skip => exact ih skip

/-- One step of reading: the lexeme that opens the text, and then the text after it. -/
theorem scan_cons (mode : Mode) (p : Position) (c : Char) (rest : List Char) :
    scan mode p 0 (c :: rest) =
      let lexeme := (Lexeme.next mode c rest).1
      let text := (c :: rest).take lexeme.length
      ⟨⟨lexeme.kind, text, p⟩, lexeme.fault⟩ ::
        scan (Lexeme.next mode c rest).2 (p.advance text) 0 ((c :: rest).drop lexeme.length) := by
  obtain ⟨n, hn⟩ := Nat.exists_eq_succ_of_ne_zero (Lexeme.length_next_pos mode c rest).ne'
  simp only [scan, hn, List.drop_succ_cons]
  rw [scan_skip, Nat.succ_sub_one]

theorem covers_scan (mode : Mode) (p : Position) (text : List Char) :
    Covers p.offset text ((scan mode p 0 text).map Scanned.token) := by
  induction h : text.length using Nat.strongRecOn generalizing mode p text with
  | ind n ih =>
    cases text with
    | nil => exact .eof (t := ⟨.eof, [], p⟩) rfl rfl
    | cons c rest =>
      have hpos := Lexeme.length_next_pos mode c rest
      rw [scan_cons]
      generalize hl : (Lexeme.next mode c rest).1 = lexeme
      rw [hl] at hpos
      have hlt : ((c :: rest).drop lexeme.length).length < n := by
        rw [List.length_drop, h]
        simp only [List.length_cons] at h
        omega
      have ih := ih _ hlt (Lexeme.next mode c rest).2
        (p.advance ((c :: rest).take lexeme.length)) _ rfl
      rw [Position.offset_advance] at ih
      have htext : (c :: rest).take lexeme.length ≠ [] := by
        rw [Ne, List.take_eq_nil_iff]
        simp
        omega
      have := Covers.cons (t := ⟨lexeme.kind, (c :: rest).take lexeme.length, p⟩)
        (hl ▸ Lexeme.kind_next_ne_eof mode c rest) htext ih
      rwa [List.take_append_drop] at this

theorem covers_lex (source : List Char) : Covers 0 source (lex source).tokens :=
  covers_scan .normal .origin source

/-! ## Spans -/

/-- Tokens cover a text from a byte offset to its end. -/
structure Coverage (source : List Char) (start : Nat) (tokens : List Token) : Prop where
  first : tokens.head?.map (fun t => t.span.start) = some start
  contiguous : tokens.IsChain fun t u => t.span.stop = u.span.start
  slice : ∀ t ∈ tokens, IsSlice source t.span t.text
  init : ∀ t ∈ tokens.dropLast, t.text ≠ [] ∧ t.kind ≠ .eof
  last : ∃ t, tokens.getLast? = some t ∧ t.kind = .eof ∧ t.text = [] ∧
    t.span = ⟨byteLength source, byteLength source⟩
  text : IsSlice source ⟨start, byteLength source⟩ (tokens.flatMap Token.text)
  length : tokens.length ≤ byteLength source - start + 1

namespace Covers

variable {n : Nat} {text : List Char} {tokens : List Token}

theorem ne_nil (h : Covers n text tokens) : tokens ≠ [] := by
  cases h <;> simp

theorem flatMap_text (h : Covers n text tokens) : tokens.flatMap Token.text = text := by
  induction h with
  | eof _ htext => simp [htext]
  | cons _ _ _ ih => simp [ih]

theorem head_start (h : Covers n text tokens) :
    tokens.head?.map (fun t => t.span.start) = some n := by
  cases h <;> rfl

theorem isChain (h : Covers n text tokens) :
    tokens.IsChain fun t u => t.span.stop = u.span.start := by
  induction h with
  | eof => exact .singleton _
  | @cons t rest ts _ _ tail ih =>
    refine List.isChain_cons.2 ⟨fun u hu => ?_, ih⟩
    have := tail.head_start
    rw [Option.mem_def.1 hu] at this
    exact (Option.some.inj this).symm

theorem isSlice (h : Covers n text tokens) {before : List Char} (hn : byteLength before = n) :
    ∀ t ∈ tokens, IsSlice (before ++ text) t.span t.text := by
  induction h generalizing before with
  | @eof t _ htext =>
    intro u hu
    obtain rfl := List.mem_singleton.1 hu
    exact ⟨before, [], by simp [htext], hn, by simp [htext, hn, Token.span]⟩
  | @cons t rest ts _ _ tail ih =>
    intro u hu
    rcases List.mem_cons.1 hu with rfl | hu
    · exact ⟨before, rest, by simp, hn, by simp [hn, Token.span]⟩
    · have hstop : byteLength (before ++ t.text) = t.span.stop := by simp [hn, Token.span]
      have := ih hstop u hu
      rwa [List.append_assoc] at this

theorem dropLast_ne (h : Covers n text tokens) :
    ∀ t ∈ tokens.dropLast, t.text ≠ [] ∧ t.kind ≠ .eof := by
  induction h with
  | eof => simp
  | @cons t rest ts hkind htext tail ih =>
    intro u hu
    rw [List.dropLast_cons_of_ne_nil tail.ne_nil, List.mem_cons] at hu
    rcases hu with rfl | hu
    · exact ⟨htext, hkind⟩
    · exact ih u hu

theorem getLast?_eq (h : Covers n text tokens) :
    ∃ t, tokens.getLast? = some t ∧ t.kind = .eof ∧ t.text = [] ∧
      t.position.offset = n + byteLength text := by
  induction h with
  | @eof t hkind htext => exact ⟨t, rfl, hkind, htext, rfl⟩
  | @cons t rest ts _ _ tail ih =>
    obtain ⟨u, hlast, hkind, htext, hoffset⟩ := ih
    refine ⟨u, ?_, hkind, htext, ?_⟩
    · rw [List.getLast?_cons, hlast]
      rfl
    · rw [hoffset]
      simp [Token.span, Nat.add_assoc]

/-- Every token but the last takes at least one byte. -/
theorem length_le (h : Covers n text tokens) : tokens.length ≤ byteLength text + 1 := by
  induction h with
  | eof => simp
  | @cons t rest ts _ htext _ ih =>
    have := length_le_byteLength t.text
    have := List.length_pos_iff.2 htext
    simp only [List.length_cons, byteLength_append]
    omega

theorem coverage {before : List Char} (h : Covers (byteLength before) text tokens) :
    Coverage (before ++ text) (byteLength before) tokens where
  first := h.head_start
  contiguous := h.isChain
  slice := h.isSlice rfl
  init := h.dropLast_ne
  last := by
    obtain ⟨t, hlast, hkind, htext, hoffset⟩ := h.getLast?_eq
    exact ⟨t, hlast, hkind, htext, by simp [Token.span, hoffset, htext]⟩
  text := ⟨before, [], by simp [h.flatMap_text], rfl, by simp [h.flatMap_text]⟩
  length := by
    have := h.length_le
    simp only [byteLength_append]
    omega

end Covers

/-- From any byte offset on, reading covers the text from the least boundary that is not before the
offset, and no scanner on the way measures beyond the text that it is given. -/
theorem lexFrom_coverage (source : List Char) (offset : Nat) :
    (∃ start, IsLeast {n | IsBoundary source n ∧ min offset (byteLength source) ≤ n} start ∧
      Coverage source start (lexFrom source offset).tokens) ∧
    lexFrom source 0 = lex source ∧
    ∀ text, text <:+ source → Lexeme.InRange text := by
  refine ⟨⟨_, isLeast_takeBytes offset source, ?_⟩, ?_, fun text _ => Lexeme.inRange text⟩
  · have h := covers_scan .normal (Position.origin.advance (takeBytes offset source))
      (dropBytes offset source)
    rw [Position.offset_advance, show Position.origin.offset = 0 from rfl, Nat.zero_add] at h
    have := h.coverage
    rwa [takeBytes_append_dropBytes] at this
  · cases source <;> rfl

end RuleLang
