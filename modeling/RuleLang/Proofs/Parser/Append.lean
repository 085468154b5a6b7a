import RuleLang.Proofs.Parser.Changed
import RuleLang.Proofs.Parser.Separate

/-!
# Token lists one after the other

The declarations of a token list without syntax errors do not change when the tokens of more
declarations come after it, and these are parsed as they are alone.

## Main definitions

* `ReadsAll` — declarations are read one after the other, up to the end of the input.

## Main statements

* `parseTokens_append` — the tree and the errors of two token lists, one after the other.
-/

namespace RuleLang

open Grammar Production

/-! ## Declarations, one after the other -/

/-- Declarations are read one after the other, up to the end of the input. -/
inductive ReadsAll : Reading → Reading → Prop
  | nil {s : Reading} (h : s.ahead.current = .eof) :
    ReadsAll s { s with entered := s.entered + 1, recovering := false }
  | cons {s t u : Reading} (h : s.ahead.current ≠ .eof)
    (first : Reads body (.call (declarationAt s.ahead.current))
      { s with entered := s.entered + 1, recovering := false } t)
    (others : ReadsAll t u) : ReadsAll s u

theorem declarations_eq : Declarations.declarations =
    .seq .recovered (.look fun a => if a.current = .eof then .skip
      else .seq (.call (declarationAt a.current)) (.call .declarations)) := by
  refine congrArg (Grammar.seq .recovered) (congrArg Grammar.look (funext fun a => ?_))
  cases a.current <;> rfl

theorem starts_declarationAt {a : Ahead} (h : a.current ≠ .eof) :
    (declarationAt a.current).starts a = true := by
  unfold declarationAt
  split <;> simp [starts, opens, h]

theorem length_of_reads_declarationAt {s t : Reading} {a : Ahead} (h : a.current ≠ .eof)
    (hr : Reads body (.call (declarationAt a.current)) s t) (ha : s.ahead = a) :
    t.ahead.length < a.length := by
  subst ha
  obtain ⟨u, hu, hafter⟩ := ranking.exists_enter obeyed (s := s)
    (fun _ => starts_declarationAt h) (Nat.lt_succ_self _)
  rw [hr.unique (reads_of_enter hu)]
  exact hafter.length_lt (starts_declarationAt h)

theorem reads_declarations_iff {s t : Reading} :
    Reads body (.call .declarations) s t ↔ ReadsAll s t := by
  constructor
  · intro h
    induction hn : s.ahead.length using Nat.strongRecOn generalizing s with
    | ind n ih =>
      subst hn
      cases h with
      | call h =>
        change Reads body Declarations.declarations _ _ at h
        rw [declarations_eq] at h
        cases h with
        | seq hrec h =>
          cases hrec
          cases h with
          | look h =>
            dsimp only at h
            split at h
            · rename_i he
              cases h
              exact .nil he
            · rename_i he
              cases h with
              | seq hfirst hrest =>
                exact .cons he hfirst (ih _ (length_of_reads_declarationAt he hfirst rfl) hrest rfl)
  · intro h
    induction h with
    | nil he =>
      refine .call ?_
      change Reads body Declarations.declarations _ _
      rw [declarations_eq]
      refine .seq (.recovered _) (.look ?_)
      dsimp only
      rw [if_pos he]
      exact .skip _
    | cons he hfirst _ ih =>
      refine .call ?_
      change Reads body Declarations.declarations _ _
      rw [declarations_eq]
      refine .seq (.recovered _) (.look ?_)
      dsimp only
      rw [if_neg he]
      exact .seq hfirst ih

/-! ## Elements read earlier -/

/-- A state of reading after other elements were read into its group. -/
def Reading.framed (s : Reading) (earlier : List Element) : Reading :=
  { s with group := s.group ++ earlier }

theorem exists_body_declarationAt (k : Kind) : ∃ g, body (declarationAt k) = .group g := by
  unfold declarationAt
  split <;> exact ⟨_, rfl⟩

/-- A declaration does not depend on the elements read earlier. -/
theorem reads_declarationAt_framed {k : Kind} {s t : Reading}
    (h : Reads body (.call (declarationAt k)) s t) (earlier : List Element) :
    Reads body (.call (declarationAt k)) (s.framed earlier) (t.framed earlier) := by
  obtain ⟨g, hg⟩ := exists_body_declarationAt k
  cases h with
  | call h =>
    rw [hg] at h
    cases h with
    | @group _ _ t h =>
      refine .call ?_
      rw [hg]
      have hframed := Reads.group (s := { s.framed earlier with entered := s.entered + 1 }) h
      rwa [Reading.framed, ← List.append_assoc] at hframed

theorem ReadsAll.framed {s t : Reading} (h : ReadsAll s t) (earlier : List Element) :
    ReadsAll (s.framed earlier) (t.framed earlier) := by
  induction h with
  | nil he => exact .nil he
  | cons he hfirst _ ih => exact .cons he (reads_declarationAt_framed hfirst earlier) ih

theorem Reading.takeTokens_framed (n : Nat) (s : Reading) (earlier : List Element) :
    (s.framed earlier).takeTokens n = (s.takeTokens n).framed earlier := by
  induction n generalizing s with
  | zero => rfl
  | succ n ih =>
    have htake : (s.framed earlier).takeToken = s.takeToken.framed earlier := by
      unfold Reading.takeToken Reading.framed
      dsimp only
      split
      · split <;> rfl
      · rfl
    rw [Reading.takeTokens_succ, Reading.takeTokens_succ, htake, ih]

theorem Reading.takeTrivia_framed (s : Reading) (earlier : List Element) :
    (s.framed earlier).takeTrivia = s.takeTrivia.framed earlier :=
  Reading.takeTokens_framed _ s earlier

/-! ## Declarations before others -/

/-- Declarations without syntax errors are read in the same way before others, and these are then
read on their own. -/
theorem ReadsAll.before {ρ : Replay} (hρ : ρ.Fits False) {s t : Reading} (h : ReadsAll s t)
    (hstep : InStep s) (ht : NoErrors t) {w : List Token} {s' : Reading} (hs : ρ.Shows w s s') :
    ∃ v t', ρ.Shows v t t' ∧ ∀ x, ReadsAll t' x → ReadsAll s' x := by
  induction h generalizing w s' with
  | nil he =>
    refine ⟨w, s', ⟨hs.ended, hs.ahead, hs.group, hs.errors, ?_, hs.limit, hs.limit'⟩, fun _ => id⟩
    rw [hs.recovering, hstep.recovering]
  | @cons s u t he hfirst hrest ih =>
    have hnone : NoErrors u :=
      noErrors_of_reads (reads_declarations_iff.2 hrest) ht
    have hcur : s'.ahead.current = s.ahead.current := (hs.sees hρ (.inr he)).current
    obtain ⟨v, u', hu', hv⟩ := Replay.keeps_declaration hρ s.ahead.current
      { s with entered := s.entered + 1, recovering := false } u w
      { s' with entered := s'.entered + 1, recovering := false } rfl ⟨rfl, hstep.limit⟩ hfirst hnone
      ⟨hs.ended, hs.ahead, hs.group, hs.errors, rfl, hs.limit, hs.limit'⟩
    have hstep' : InStep u := inStep_of_reads hfirst ⟨rfl, hstep.limit⟩ hnone
    obtain ⟨z, t', hz, hall⟩ := ih hstep' ht hv
    exact ⟨z, t', hz, fun x hx => .cons (hcur ▸ he) (hcur ▸ hu') (hall x hx)⟩

/-- Declarations are read in the same way at another place. -/
theorem ReadsAll.replayed {ρ : Replay} (hρ : ρ.Fits True) {s t : Reading} (h : ReadsAll s t)
    {w : List Token} {s' : Reading} (hs : ρ.Shows w s s') :
    ∃ v t', ReadsAll s' t' ∧ ρ.Shows v t t' := by
  obtain ⟨v, t', ht', hv⟩ :=
    (reads_declarations_iff.2 h).replayed hρ (.call .declarations) (.inl trivial) hs
  exact ⟨v, t', reads_declarations_iff.1 ht', hv⟩

/-! ## Compilation units -/

/-- The state in which the declarations of a compilation unit are read. -/
def Reading.unit (tokens : List Token) : Reading :=
  ⟨tokens, [], [], false, none, 1⟩

/-- A token list is read as a compilation unit of its declarations and of the trivia after them. -/
theorem parseTokens_eq_of_reads {tokens : List Token} {t : Reading}
    (h : ReadsAll (.unit tokens) t) :
    parseTokens tokens none =
      (.node .compilationUnit t.takeTrivia.elements, t.takeTrivia.recorded) := by
  have hread : Reads body (.call .compilationUnit) (.start tokens none)
      { t.takeTrivia with group := [.node .compilationUnit t.takeTrivia.elements] } :=
    .call (.group (.enclose (.seq (reads_declarations_iff.2 h) (.trivia t))))
  obtain ⟨u, hu, -⟩ := Production.exists_read? .compilationUnit none tokens nofun
  obtain rfl := hread.unique (reads_of_enter hu)
  simp [parseTokens, Production.read, hu, Reading.elements, Reading.recorded]

theorem exists_readsAll (tokens : List Token) :
    ∃ t, ReadsAll (.unit tokens) t := by
  obtain ⟨u, hu, -⟩ := Production.exists_read? .compilationUnit none tokens nofun
  obtain ⟨t, ht, -⟩ := reads_compilationUnit (reads_of_enter hu)
  exact ⟨t, reads_declarations_iff.1 ht⟩

/-- The declarations of the first list are read up to its end if no trivia comes after them. -/
theorem ahead_of_readsAll {tokens init : List Token} {e : Token} (h : Ended tokens init e)
    {t : Reading} (ht : ReadsAll (.unit tokens) t)
    (hnodes : ∀ x ∈ t.takeTrivia.elements, x.isNode = true) : t.takeTrivia = t ∧ t.ahead = [e] := by
  have hreads := reads_declarations_iff.2 ht
  obtain ⟨taken, htaken, hne, -⟩ := (Reads.seq hreads (.trivia t)).keeps
  rw [Reading.ahead_takeTrivia] at htaken
  obtain ⟨-, hafter⟩ := h.ahead_eq htaken hne (current_of_reads_declarations hreads)
  obtain ⟨trivia, hlength, hahead, hgroup⟩ := t.takes_takeTrivia
  have hgroup : t.takeTrivia.group = (trivia.map Element.ofToken).reverse ++ t.group := hgroup
  have hahead : t.ahead = trivia ++ t.takeTrivia.ahead := hahead
  -- a token taken here is an element of the root, and no node
  cases trivia with
  | nil =>
    rw [Reading.ahead_takeTrivia, hafter] at hahead
    have hnone : t.takeTrivia = t.takeTokens 0 := congrArg (Reading.takeTokens · t) hlength.symm
    exact ⟨hnone, hahead⟩
  | cons x xs =>
    have hx : (Element.ofToken x).isNode = true := hnodes _ (by simp [Reading.elements, hgroup])
    cases hx

/-- A token list without syntax errors, and declarations after it. Their tokens are parsed as in lists
of their own, and only moved. -/
theorem parseTokens_append {tokens tokens' init init' : List Token} {e e' : Token}
    (h : Ended tokens init e) (h' : Ended tokens' init' e')
    (hclean : IsClean (parseTokens tokens none).2) {children children' : List Element}
    (hroot : (parseTokens tokens none).1 = .node .compilationUnit children)
    (hroot' : (parseTokens tokens' none).1 = .node .compilationUnit children')
    (hnodes : ∀ x ∈ children, x.isNode = true)
    (hstart : (tokens'.head?.any fun t => t.kind.isDeclarationStart) = true) (bytes lines : Nat) :
    parseTokens (init ++ tokens'.map (Token.moved bytes lines)) none =
      (.node .compilationUnit (children ++ children'),
        (parseTokens tokens none).2 ++
          (parseTokens tokens' none).2.map (SyntaxError.moved bytes)) := by
  obtain ⟨t, ht⟩ := exists_readsAll tokens
  obtain ⟨t', ht'⟩ := exists_readsAll tokens'
  have heq := parseTokens_eq_of_reads ht
  have heq' := parseTokens_eq_of_reads ht'
  rw [heq] at hroot hclean
  rw [heq'] at hroot'
  obtain rfl : t.takeTrivia.elements = children := by simpa using hroot
  obtain rfl : t'.takeTrivia.elements = children' := by simpa using hroot'
  obtain ⟨htrivia, hahead⟩ := ahead_of_readsAll h ht hnodes
  rw [htrivia] at heq hclean hnodes
  have hreads := reads_declarations_iff.2 ht
  have hnone : NoErrors t := fun x hx => hclean x (by simpa [Reading.recorded] using hx)
  have hstep : InStep t := inStep_of_reads hreads ⟨rfl, rfl⟩ hnone
  -- the declarations of the first list, before the tokens of the second one
  have hbefore : Replay.Fits ⟨0, 0, e, tokens'.map (Token.moved bytes lines), []⟩ False := by
    cases tokens' with
    | nil => cases hstart
    | cons x xs => exact ⟨h.kind, .inr ⟨id, rfl, rfl, _, _, rfl, hstart⟩⟩
  have hshows : Replay.Shows ⟨0, 0, e, tokens'.map (Token.moved bytes lines), []⟩ init
      (.unit tokens) (.unit (init ++ tokens'.map (Token.moved bytes lines))) :=
    ⟨h, by rw [Replay.moved_zero]; rfl, rfl, rfl, rfl, rfl, rfl⟩
  obtain ⟨v, u, hu, hall⟩ := ht.before hbefore ⟨rfl, rfl⟩ hnone hshows
  obtain rfl : v = [] := by simpa [hahead] using hu.ended.eq
  have herrors : u.errors = t.errors := by
    rw [hu.errors, List.append_nil]
    exact List.map_id t.errors
  -- the declarations of the second list, after the elements and the errors of the first one
  have hafter : Replay.Fits ⟨bytes, lines, e', [e'.moved bytes lines], t.errors⟩ True :=
    ⟨h'.kind, .inl ⟨trivial, rfl⟩⟩
  have hshows' : Replay.Shows ⟨bytes, lines, e', [e'.moved bytes lines], t.errors⟩ init'
      ((Reading.unit tokens').framed t.group) u :=
    ⟨h', by rw [hu.ahead, h'.eq]; simp, hu.group, herrors, hu.recovering.trans hstep.recovering, rfl,
      hu.limit'⟩
  obtain ⟨w, x, hx, hw⟩ := (ht'.framed t.group).replayed hafter hshows'
  obtain ⟨z, hz⟩ := hw.takeTrivia hafter
  rw [Reading.takeTrivia_framed] at hz
  rw [parseTokens_eq_of_reads (hall x hx), heq, heq', htrivia]
  simp [Reading.elements, Reading.recorded, hz.group, hz.errors, Reading.framed]

end RuleLang
