import RuleLang.Document
import RuleLang.Proofs.Diagnostic.Order
import RuleLang.Proofs.Grammar.Anchored
import RuleLang.Proofs.Lexer.Restart
import RuleLang.Proofs.Parser.Lossless
import RuleLang.Proofs.Text.LineMap

/-!
# What diagnostics point at

Every diagnostic of a document covers a token of its text and shows the line and the column of that
token, and diagnostics come in the order of the text.

## Main statements

* `LineMap.location_token` — the line map finds every token where reading left it.
* `pairwise_recorded` — errors are recorded in the order of the text.
* `Document.diagnostics_located` — places and order of the diagnostics of a document.
-/

namespace RuleLang

open Grammar Text

/-! ## Places -/

/-- The line map finds every token where reading left it. -/
theorem LineMap.location_token (sourceId : String) {source : List Char} {t : Token}
    (h : t ∈ (lex source).tokens) :
    Location.ofSpan sourceId (.ofSource source) t.span =
      ⟨sourceId, t.span, t.position.line, t.position.column⟩ := by
  obtain ⟨front, rest, rfl, hparted, hposition⟩ := exists_position_of_mem h
  have hstart : t.span.start = byteLength front := by
    rw [Token.span, hposition, Position.offset_advance]
    exact Nat.zero_add _
  rw [Location.ofSpan, hstart, LineMap.position_ofSource hparted, hposition]

/-- Malformed tokens are tokens. -/
theorem exists_token_of_lexError {source : List Char} {e : LexError} (h : e ∈ (lex source).errors) :
    ∃ t ∈ (lex source).tokens, e.span = t.span := by
  obtain ⟨s, hs, he⟩ := List.mem_filterMap.1 h
  obtain ⟨fault, -, rfl⟩ := Option.map_eq_some_iff.1 he
  exact ⟨s.token, List.mem_map_of_mem hs, rfl⟩

theorem pairwise_lexErrors (source : List Char) :
    (lex source).errors.Pairwise fun e f => e.span.start ≤ f.span.start := by
  have hstarts := (covers_lex source).pairwise_start
  rw [lex, Lexed.ofScanned] at hstarts ⊢
  refine List.Pairwise.filterMap _ (fun s s' hlt e he f hf => ?_) (List.pairwise_map.1 hstarts)
  obtain ⟨fault, -, rfl⟩ := Option.map_eq_some_iff.1 he
  obtain ⟨fault', -, rfl⟩ := Option.map_eq_some_iff.1 hf
  exact hlt.le

/-! ## Syntax errors -/

theorem anchored_read (source : List Char) (limit : Option Nat) :
    (Production.compilationUnit.read limit (lex source).tokens).Anchored (lex source).tokens := by
  obtain ⟨t, ht, -⟩ :=
    Production.exists_read? .compilationUnit limit (lex source).tokens nofun
  have hread : Production.compilationUnit.read limit (lex source).tokens = t := by
    rw [Production.read, ht, Option.getD_some]
  rw [hread]
  exact (reads_of_enter ht).anchored (.start (covers_lex source) limit)

theorem exists_token_of_syntaxError {source : List Char} {limit : Option Nat} {e : SyntaxError}
    (h : e ∈ (parse source limit).syntaxErrors) : ∃ t ∈ (lex source).tokens, e.span = t.span :=
  (anchored_read source limit).at_token e (List.mem_reverse.1 h)

/-- Errors are recorded in the order of the text. -/
theorem pairwise_recorded (source : List Char) (limit : Option Nat) :
    (parse source limit).syntaxErrors.Pairwise fun e f => e.span.start ≤ f.span.start :=
  List.pairwise_reverse.2 (anchored_read source limit).ordered

/-! ## Diagnostics -/

namespace Diagnostic

variable {sourceId : String} {map : LineMap}

theorem kind_ofSyntaxError (e : SyntaxError) :
    ((ofSyntaxError sourceId map e).kind == .lexError) = false := by
  rw [ofSyntaxError]
  split <;> rfl

theorem location_ofSyntaxError (e : SyntaxError) :
    (ofSyntaxError sourceId map e).location = .ofSpan sourceId map e.span := by
  rw [ofSyntaxError]
  split <;> rfl

theorem start_ofSyntaxError (e : SyntaxError) :
    (ofSyntaxError sourceId map e).location.span.start = e.span.start := by
  rw [location_ofSyntaxError]
  rfl

end Diagnostic

namespace Document

/-- Every diagnostic of a document stands at a token, with the line and the column of that token.
The diagnostics come in the order of the text. Those of the tokens and those of the grammar keep the
order in which they were found, and at one offset those of the tokens come first. -/
theorem diagnostics_located {config : ParserConfig} {id : TreeId} {sourceId : String}
    {source : List Char} {document : Document} (h : read config id sourceId source = .ok document) :
    let parsed := parse source (some config.maxErrors)
    let lexical := parsed.lexErrors.map (.ofLexError sourceId (.ofSource source))
    let syntactic := parsed.syntaxErrors.map (.ofSyntaxError sourceId (.ofSource source))
    (∀ d ∈ document.diagnostics, ∃ t ∈ (lex source).tokens,
      d.location = ⟨sourceId, t.span, t.position.line, t.position.column⟩) ∧
    parsed.syntaxErrors.Pairwise (fun e f => e.span.start ≤ f.span.start) ∧
    document.diagnostics.Pairwise (fun d e => d.location.span.start ≤ e.location.span.start) ∧
    document.diagnostics.filter (fun d => d.kind == .lexError) = lexical ∧
    document.diagnostics.filter (fun d => d.kind != .lexError) = syntactic ∧
    ∀ offset, document.diagnostics.filter (fun d => d.location.span.start == offset) =
      lexical.filter (fun d => d.location.span.start == offset) ++
        syntactic.filter (fun d => d.location.span.start == offset) := by
  intro parsed lexical syntactic
  have hdocument : document.diagnostics = Diagnostic.sort (lexical ++ syntactic) := by
    unfold read at h
    split at h
    · cases h
    · cases h
      rfl
  have hlexical : ∀ d ∈ lexical, (d.kind == .lexError) = true := List.forall_mem_map.2 fun _ _ => rfl
  have hsyntactic : ∀ d ∈ syntactic, (d.kind == .lexError) = false :=
    List.forall_mem_map.2 fun e _ => Diagnostic.kind_ofSyntaxError e
  have hlexicalOrder : lexical.Pairwise fun d e => d.location.span.start ≤ e.location.span.start :=
    List.pairwise_map.2 (pairwise_lexErrors source)
  have hsyntacticOrder : syntactic.Pairwise fun d e =>
      d.location.span.start ≤ e.location.span.start := by
    simpa only [syntactic, List.pairwise_map, Diagnostic.start_ofSyntaxError] using
      pairwise_recorded source (some config.maxErrors)
  have hofLexer : (lexical ++ syntactic).filter (fun d => d.kind == .lexError) = lexical := by
    rw [List.filter_append, List.filter_eq_self.2 hlexical,
      List.filter_eq_nil_iff.2 fun d hd => by simp [hsyntactic d hd], List.append_nil]
  have hofGrammar : (lexical ++ syntactic).filter (fun d => d.kind != .lexError) = syntactic := by
    rw [List.filter_append, List.filter_eq_nil_iff.2 fun d hd => by simp [bne, hlexical d hd],
      List.filter_eq_self.2 fun d hd => by simp [bne, hsyntactic d hd], List.nil_append]
  refine ⟨fun d hd => ?_, pairwise_recorded source _, hdocument ▸ Diagnostic.pairwise_sort _, ?_, ?_,
    fun offset => ?_⟩
  · rw [hdocument, Diagnostic.sort, List.mem_mergeSort, List.mem_append] at hd
    rcases hd with hd | hd
    · obtain ⟨e, he, rfl⟩ := List.mem_map.1 hd
      obtain ⟨t, ht, hspan⟩ := exists_token_of_lexError he
      exact ⟨t, ht, hspan ▸ LineMap.location_token sourceId ht⟩
    · obtain ⟨e, he, rfl⟩ := List.mem_map.1 hd
      obtain ⟨t, ht, hspan⟩ := exists_token_of_syntaxError he
      rw [Diagnostic.location_ofSyntaxError, hspan]
      exact ⟨t, ht, LineMap.location_token sourceId ht⟩
  · rw [hdocument, Diagnostic.filter_sort (hofLexer.symm ▸ hlexicalOrder), hofLexer]
  · rw [hdocument, Diagnostic.filter_sort (hofGrammar.symm ▸ hsyntacticOrder), hofGrammar]
  · rw [hdocument, Diagnostic.filter_sort, List.filter_append]
    refine List.pairwise_of_forall_mem_list fun d hd e he => ?_
    have hd : d.location.span.start = offset := by simpa using (List.mem_filter.1 hd).2
    have he : e.location.span.start = offset := by simpa using (List.mem_filter.1 he).2
    exact (hd.trans he.symm).le

/-- A character that is no token is reported twice at its offset, first as a token and then as what
begins no declaration. -/
theorem diagnostics_located_rule :
    ∃ document, read {} 0 "r.drl" "// é\r\n\\ rule R\rwhen /*".toList = .ok document ∧
      (document.diagnostics.filter fun d => d.location.span.start == 7).map
        (fun d => (d.kind, d.location.line, d.location.column)) =
        [(.lexError, 2, 1), (.syntaxError, 2, 1)] ∧
      (document.diagnostics.filter fun d => d.kind == .lexError).map
        (fun d => (d.location.line, d.location.column)) = [(2, 1), (3, 6)] := by
  have hread : read {} 0 "r.drl" "// é\r\n\\ rule R\rwhen /*".toList = .ok _ := rfl
  obtain ⟨-, -, -, hlexical, -, hoffset⟩ := diagnostics_located hread
  refine ⟨_, hread, ?_, ?_⟩
  · rw [hoffset]
    decide +kernel
  · rw [hlexical]
    decide +kernel

end Document

end RuleLang
