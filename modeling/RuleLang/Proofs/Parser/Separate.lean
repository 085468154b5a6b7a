import RuleLang.Proofs.Grammar.Replay

/-!
# Declarations are separate

A declaration without syntax errors is read in the same way whether the input ends after it or another
declaration comes next. Up to its last token it is unfinished, so that nothing after it is seen, and
what is left then tells the end of the input from a declaration in no way that matters.

## Main definitions

* `Grammar.Fails` — reading by an instruction records an error.
* `Replay.Keeps` — an instruction without syntax errors reads the same before a declaration.

## Main statements

* `Replay.keeps_declaration` — each declaration is read in the same way before another one.
* `Replay.reads_declarations` — so are any number of them.
-/

namespace RuleLang

open Grammar Production

variable {f g h otherwise : Rule} {a : Ahead}

/-! ## Errors at the end of the input -/

namespace Grammar

/-- Reading by an instruction records an error. -/
def Fails (g : Rule) (a : Ahead) : Prop :=
  ∀ s t, s.ahead = a → InStep s → Reads body g s t → ¬NoErrors t

/-- An instruction cannot be read at the end of the input. -/
def Unfinished (g : Rule) : Prop :=
  ∀ a : Ahead, a.current = .eof → Fails g a

theorem noErrors_of_reads {s t : Reading} (hr : Reads body g s t) (ht : NoErrors t) :
    NoErrors s :=
  fun e he => ht e (hr.errors_subset he)

theorem inStep_of_reads {s t : Reading} (hr : Reads body g s t) (hs : InStep s)
    (ht : NoErrors t) : InStep t :=
  (hr.accepted hs ht).1

theorem fails_complain {c : Complaint} (hc : c.isWarning = false) : Fails (.complain c) a := by
  intro s t _ hs hr ht
  cases hr
  have := ht ⟨c, s.ahead.span⟩ (by simp [complain_of_inStep hs])
  simp [SyntaxError.isWarning, hc] at this

theorem Fails.seq (hf : Fails f a) : Fails (.seq f g) a := by
  intro s t ha hs hr ht
  cases hr with
  | seq hrf hrg => exact hf _ _ ha hs hrf (noErrors_of_reads hrg ht)

theorem Fails.look {choose : Ahead → Rule} (h : Fails (choose a) a) : Fails (.look choose) a := by
  intro s t ha hs hr ht
  cases hr with
  | look hr => exact h s t ha hs (ha ▸ hr) ht

theorem Fails.call {p : Production} (h : Fails (body p) a) : Fails (.call p) a := by
  intro s t ha hs hr ht
  cases hr with
  | call hr => exact h { s with entered := s.entered + 1 } t ha ⟨hs.recovering, hs.limit⟩ hr ht

theorem Fails.node {k : Kind} (h : Fails g a) : Fails (.node k g) a := by
  intro s t ha hs hr ht
  cases hr with
  | group hr => cases hr with
    | enclose hr => exact h { s with group := [] } _ ha ⟨hs.recovering, hs.limit⟩ hr ht

theorem fails_fail {c : Kind → Complaint} (hc : (c a.current).isWarning = false) :
    Fails (.fail c) a :=
  .look (fails_complain hc)

theorem Fails.whenAt {k : Kind} (hk : a.current ≠ k) (h : Fails otherwise a) :
    Fails (.whenAt k g otherwise) a := by
  have hat : a.isAt k = false := by simpa [Ahead.isAt] using hk
  refine .look ?_
  simpa only [hat, Bool.false_eq_true, if_false] using h

namespace Unfinished

theorem left (hf : Unfinished f) : Unfinished (.seq f g) :=
  fun a ha => (hf a ha).seq

theorem right (hg : Unfinished g) : Unfinished (.seq f g) := by
  intro a ha s t hsa hs hr ht
  cases hr with
  | @seq _ _ _ u _ hrf hrg =>
    have hu : u.ahead.current = .eof := hrf.current_eof (hsa ▸ ha)
    exact hg _ hu u t rfl (inStep_of_reads hrf hs (noErrors_of_reads hrg ht)) hrg ht

theorem blockEnd {block : Block} : Unfinished (.call (.blockEnd block)) := by
  intro a ha
  refine .call (.whenAt (by simp [ha]) (.look ?_))
  have hat : a.isAt .eof = true := by simp [Ahead.isAt, ha]
  simp only [hat, if_true]
  exact fails_complain rfl

theorem expectName {role : Role} : Unfinished (.expectName role) := by
  intro a ha
  have hname : a.atName = false := by
    rw [Ahead.atName, ha]
    rfl
  refine .look ?_
  simp only [hname, Bool.false_eq_true, if_false]
  exact fails_fail rfl

theorem qualifiedName : Unfinished (.call .qualifiedName) := by
  intro a ha
  have hname : a.atName = false := by
    rw [Ahead.atName, ha]
    rfl
  refine .call (.look ?_)
  simp only [hname, Bool.false_eq_true, if_false]
  exact fails_fail rfl

/-- The body of a function. -/
theorem functionBody : Unfinished (.whenAt .lBrace (.inner .functionBody .balanced)
    (.seq (.complain .expectedFunctionBody) (.recoverTo []))) :=
  fun _ ha => .whenAt (by simp [ha]) (fails_complain rfl).seq

end Unfinished

end Grammar

/-! ## Reading before a declaration -/

namespace Replay

variable {ρ : Replay}

/-- An instruction without syntax errors reads the same before a declaration. -/
def Keeps (ρ : Replay) (g : Rule) (a : Ahead) : Prop :=
  ∀ s t w s', s.ahead = a → InStep s → Reads body g s t → NoErrors t → ρ.Shows w s s' →
    ∃ v t', Reads body g s' t' ∧ ρ.Shows v t t'

/-- Where the input ends, a declaration is seen in its place. -/
theorem Shows.current_start (hρ : ρ.Fits False) {w : List Token} {s s' : Reading}
    (h : ρ.Shows w s s') (hs : s.ahead.current = .eof) :
    s'.ahead.current ∈ Kind.declarationStarts := by
  rcases hρ.rest with ⟨hfalse, -⟩ | ⟨-, hbytes, hlines, x, xs, hrest, hx⟩
  · exact hfalse.elim
  · have hnone : Ahead.nthToken? 0 w = none := by
      cases hw : Ahead.nthToken? 0 w with
      | none => rfl
      | some t =>
        exfalso
        have hcur : s.ahead.currentToken? = some t := by
          rw [h.ended.eq]
          exact Ahead.nthToken?_append hw _
        have hkind : t.kind = .eof := (Ahead.current_eq_of_currentToken? hcur).symm.trans hs
        have hmem {u : Ahead} (hu : Ahead.nthToken? 0 u = some t) : t ∈ u := by
          induction u with
          | nil => cases hu
          | cons y ys ih =>
            simp only [Ahead.nthToken?] at hu
            split at hu
            · exact List.mem_cons_of_mem y (ih hu)
            · cases hu
              exact List.mem_cons_self
        exact h.ended.init t (hmem hw) hkind
    have htrivia := (Kind.Closes.of_start hx).isTrivia
    have hcur : s'.ahead.currentToken? = some x := by
      rw [h.ahead, hbytes, hlines, moved_zero, hrest]
      exact Ahead.nthToken?_append_cons htrivia hnone
    rw [Ahead.current_eq_of_currentToken? hcur]
    exact Kind.mem_declarationStarts hx

/-- A test that neither the end of the input nor a declaration passes. -/
theorem Shows.test_eq (hρ : ρ.Fits False) {w : List Token} {s s' : Reading}
    (h : ρ.Shows w s s') {test : Ahead → Bool}
    (same : ∀ {a b}, Ahead.Sees False a b → test b = test a)
    (closed : ∀ a : Ahead, a.current ∈ Kind.eof :: Kind.declarationStarts → test a = false) :
    test s'.ahead = test s.ahead := by
  by_cases hs : s.ahead.current = .eof
  · rw [closed _ (List.mem_cons_of_mem _ (h.current_start hρ hs)),
      closed _ (hs ▸ List.mem_cons_self)]
  · exact same (h.sees hρ (.inr hs))

namespace Keeps

theorem skip : ρ.Keeps .skip a := by
  intro s t w s' _ _ hr _ hs
  cases hr
  exact ⟨w, s', .skip s', hs⟩

theorem trivia (hρ : ρ.Fits False) : ρ.Keeps .trivia a := by
  intro s t w s' _ _ hr _ hs
  cases hr
  obtain ⟨v, hv⟩ := hs.takeTrivia hρ
  exact ⟨v, _, .trivia s', hv⟩

theorem lineTrivia (hρ : ρ.Fits False) : ρ.Keeps .lineTrivia a := by
  intro s t w s' _ _ hr _ hs
  cases hr
  obtain ⟨v, hv⟩ := hs.takeLineTrivia hρ
  exact ⟨v, _, .lineTrivia s', hv⟩

theorem take (hρ : ρ.Fits False) {n : Nat} (hn : n ≤ a.significant) : ρ.Keeps (.take n) a := by
  intro s t w s' ha _ hr _ hs
  cases hr
  obtain ⟨v, hv⟩ := hs.bumps hρ (n := n) (.inr (ha ▸ hn))
  exact ⟨v, _, .take n s', hv⟩

theorem seq_of (hf : ρ.Keeps f a)
    (hg : ∀ s u, s.ahead = a → Reads body f s u → ρ.Keeps g u.ahead) : ρ.Keeps (.seq f g) a := by
  intro s t w s' ha hstep hr ht hs
  cases hr with
  | @seq _ _ _ u _ hrf hrg =>
    have hu := noErrors_of_reads hrg ht
    obtain ⟨v, u', hu', hv⟩ := hf s u w s' ha hstep hrf hu hs
    obtain ⟨z, t', ht', hz⟩ :=
      hg s u ha hrf u t v u' rfl (inStep_of_reads hrf hstep hu) hrg ht hv
    exact ⟨z, t', .seq hu' ht', hz⟩

theorem seq (hf : ρ.Keeps f a) (hg : ∀ b, ρ.Keeps g b) : ρ.Keeps (.seq f g) a :=
  .seq_of hf fun _ u _ _ => hg u.ahead

theorem trivia_seq (hρ : ρ.Fits False) (hg : ρ.Keeps g a.afterTrivia) :
    ρ.Keeps (.seq .trivia g) a := by
  refine .seq_of (.trivia hρ) fun s u ha hr => ?_
  cases hr
  rwa [Reading.ahead_takeTrivia, ha]

theorem take_seq (hρ : ρ.Fits False) {n : Nat} (hn : n ≤ a.significant)
    (hg : ρ.Keeps g (a.after n)) : ρ.Keeps (.seq (.take n) g) a := by
  refine .seq_of (.take hρ hn) fun s u ha hr => ?_
  cases hr
  rwa [Reading.ahead_bumps, ha]

/-- What comes before the last token of a declaration. -/
theorem front (hρ : ρ.Fits False) (hf : Steady False f) (hlast : Unfinished g)
    (hg : ∀ b, ρ.Keeps g b) : ρ.Keeps (.seq f g) a := by
  intro s t w s' ha hstep hr ht hs
  cases hr with
  | @seq _ _ _ u _ hrf hrg =>
    have hu := inStep_of_reads hrf hstep (noErrors_of_reads hrg ht)
    have hleft : u.ahead.current ≠ .eof := fun he => hlast _ he u t rfl hu hrg ht
    obtain ⟨v, u', hu', hv⟩ := hrf.replayed hρ hf (.inr hleft) hs
    obtain ⟨z, t', ht', hz⟩ := hg u.ahead u t v u' rfl hu hrg ht hv
    exact ⟨z, t', .seq hu' ht', hz⟩

theorem group (hg : ρ.Keeps g a) : ρ.Keeps (.group g) a := by
  intro s t w s' ha hstep hr ht hs
  cases hr with
  | @group _ _ u hr =>
    obtain ⟨v, u', hu', hv⟩ := hg { s with group := [] } u w { s' with group := [] } ha
      ⟨hstep.recovering, hstep.limit⟩ hr ht
      ⟨hs.ended, hs.ahead, rfl, hs.errors, hs.recovering, hs.limit, hs.limit'⟩
    exact ⟨v, _, .group hu', hv.ended, hv.ahead, by rw [hv.group, hs.group], hv.errors,
      hv.recovering, hv.limit, hv.limit'⟩

theorem enclose {k : Kind} (hg : ρ.Keeps g a) : ρ.Keeps (.enclose k g) a := by
  intro s t w s' ha hstep hr ht hs
  cases hr with
  | @enclose _ _ _ u hr =>
    obtain ⟨v, u', hu', hv⟩ := hg s u w s' ha hstep hr ht hs
    exact ⟨v, _, .enclose hu', hv.ended, hv.ahead, by rw [hv.group], hv.errors, hv.recovering,
      hv.limit, hv.limit'⟩

theorem call {p : Production} (hp : ρ.Keeps (body p) a) : ρ.Keeps (.call p) a := by
  intro s t w s' ha hstep hr ht hs
  cases hr with
  | call hr =>
    obtain ⟨v, t', ht', hv⟩ := hp { s with entered := s.entered + 1 } t w
      { s' with entered := s'.entered + 1 } ha ⟨hstep.recovering, hstep.limit⟩ hr ht
      ⟨hs.ended, hs.ahead, hs.group, hs.errors, hs.recovering, hs.limit, hs.limit'⟩
    exact ⟨v, t', .call ht', hv⟩

theorem when (hρ : ρ.Fits False) {test : Ahead → Bool}
    (same : ∀ {a b}, Ahead.Sees False a b → test b = test a)
    (closed : ∀ a : Ahead, a.current ∈ Kind.eof :: Kind.declarationStarts → test a = false)
    (hg : test a = true → ρ.Keeps g a) (ho : test a = false → ρ.Keeps otherwise a) :
    ρ.Keeps (.when test g otherwise) a := by
  intro s t w s' ha hstep hr ht hs
  have htest := hs.test_eq hρ same closed
  cases hr with
  | look hr =>
    dsimp only at hr
    rw [ha] at hr htest
    cases hc : test a with
    | true =>
      rw [hc] at hr htest
      obtain ⟨v, t', ht', hv⟩ := hg hc s t w s' ha hstep (by simpa using hr) ht hs
      exact ⟨v, t', .look (by simpa [htest] using ht'), hv⟩
    | false =>
      rw [hc] at hr htest
      obtain ⟨v, t', ht', hv⟩ := ho hc s t w s' ha hstep (by simpa using hr) ht hs
      exact ⟨v, t', .look (by simpa [htest] using ht'), hv⟩

theorem of_fails (h : Fails g a) : ρ.Keeps g a :=
  fun s t _ _ ha hstep hr ht _ => absurd ht (h s t ha hstep hr)

/-! ### Derived instructions -/

theorem node {k : Kind} (hg : ρ.Keeps g a) : ρ.Keeps (.node k g) a :=
  .group (.enclose hg)

theorem inner (hρ : ρ.Fits False) {k : Kind} (hg : ρ.Keeps g a.afterTrivia) :
    ρ.Keeps (.inner k g) a :=
  .trivia_seq hρ (.node hg)

/-- A kind that is neither the end of the input nor the start of a declaration. -/
theorem whenAt (hρ : ρ.Fits False) {k : Kind} (hk : k ∉ Kind.eof :: Kind.declarationStarts)
    (hg : a.isAt k = true → ρ.Keeps g a) (ho : a.isAt k = false → ρ.Keeps otherwise a) :
    ρ.Keeps (.whenAt k g otherwise) a := by
  refine .when hρ (fun hs => hs.isAt k) (fun b hb => ?_) hg ho
  have hne : b.current ≠ k := fun he => hk (he ▸ hb)
  simpa [Ahead.isAt] using hne

theorem bump (hρ : ρ.Fits False) (h : a.current ≠ .eof) : ρ.Keeps .bump a :=
  .take hρ (Ahead.one_le_significant h)

theorem eat (hρ : ρ.Fits False) {k : Kind} (hk : k ∉ Kind.eof :: Kind.declarationStarts)
    (ho : ρ.Keeps otherwise a) : ρ.Keeps (.eat k .skip otherwise) a := by
  refine .whenAt hρ hk (fun h => .seq (.bump hρ ?_) fun _ => .skip) fun _ => ho
  have hcur : a.current = k := by simpa [Ahead.isAt] using h
  rintro he
  exact hk (by rw [← hcur, he]; exact List.mem_cons_self)

theorem whenName (hρ : ρ.Fits False) (hg : a.atName = true → ρ.Keeps g a)
    (ho : a.atName = false → ρ.Keeps otherwise a) :
    ρ.Keeps (.when (·.atName) g otherwise) a := by
  have hall : ∀ k ∈ Kind.eof :: Kind.declarationStarts, k.isName = false := by decide
  exact .when hρ (fun hs => hs.atName) (fun b hb => hall _ hb) hg ho

theorem expectName (hρ : ρ.Fits False) {role : Role} : ρ.Keeps (.expectName role) a :=
  .whenName hρ (fun h => .bump hρ (ne_eof_of_atName h)) fun _ => .of_fails (fails_fail rfl)

/-! ### The last tokens of a declaration -/

theorem blockEnd (hρ : ρ.Fits False) {block : Block} : ρ.Keeps (.call (.blockEnd block)) a := by
  refine .call (.eat hρ (by decide) (.of_fails (.look ?_)))
  dsimp only
  split
  · exact fails_complain rfl
  · exact fails_fail rfl

/-- The parts of a name, one after the other. -/
theorem nameParts (hρ : ρ.Fits False) : ρ.Keeps (.call .nameParts) a := by
  induction hn : a.length using Nat.strongRecOn generalizing a with
  | ind n ih =>
    subst hn
    have hall : ∀ k ∈ Kind.eof :: Kind.declarationStarts, (k == .dot) = false := by decide
    refine .call (.when hρ (fun hs => by rw [hs.isAt, hs.nextName]) (fun b hb => ?_)
      (fun h => ?_) fun _ => .skip)
    · rw [Ahead.isAt, hall _ hb, Bool.false_and]
    · obtain ⟨hdot, hname⟩ := Bool.and_eq_true_iff.1 h
      have hcur : a.current ≠ .eof := ne_eof_of_isAt hdot rfl
      have hnext : a.nth 1 ≠ .eof := by
        intro he
        rw [he] at hname
        cases hname
      exact .take_seq hρ (Ahead.two_le_significant hcur hnext)
        (ih _ (Ahead.length_after_lt Nat.two_pos hcur) rfl)

theorem qualifiedName (hρ : ρ.Fits False) : ρ.Keeps (.call .qualifiedName) a := by
  refine .call (.whenName hρ (fun h => .inner hρ (.seq (.bump hρ ?_) fun _ => .nameParts hρ))
    fun _ => .of_fails (fails_fail rfl))
  rw [Ahead.current_afterTrivia]
  exact ne_eof_of_atName h

/-- A bracketed group. -/
theorem balanced (hρ : ρ.Fits False) : ρ.Keeps .balanced a := by
  intro s t w s' ha hstep hr ht hs
  obtain ⟨hfalse, -⟩ | ⟨-, hbytes, hlines, x, xs, hrest, hx⟩ := hρ.rest
  · exact hfalse.elim
  cases hr with
  | look hr =>
    dsimp only at hr
    cases hr with
    | @seq _ _ _ u _ htake hclose =>
      have hclosed : (s.ahead.balanced 0).2 = true := by
        by_contra hopen
        rw [if_neg hopen] at hclose
        exact fails_complain rfl u t rfl
          (inStep_of_reads htake hstep (noErrors_of_reads hclose ht)) hclose ht
      rw [hs.ended.eq] at hclosed
      obtain ⟨hsame, hle⟩ := Ahead.balanced_of_closed hs.ended.kind hclosed ρ.rest
      have hsame' : s'.ahead.balanced 0 = s.ahead.balanced 0 := by
        rw [hs.ahead, hbytes, hlines, moved_zero, hs.ended.eq, hsame]
      cases htake
      rw [← hs.ended.eq] at hle hclosed
      obtain ⟨v, hv⟩ := hs.bumps hρ (n := (s.ahead.balanced 0).1) (.inr hle)
      rw [if_pos hclosed] at hclose
      cases hclose
      refine ⟨v, _, .look ?_, hv⟩
      dsimp only
      rw [hsame', if_pos hclosed]
      exact .seq (.take _ s') (.skip _)

end Keeps

/-! ## Declarations -/

/-- The last tokens of a declaration: they are read in the same way before another one, and cannot be
missing. -/
structure Closing (ρ : Replay) (g : Rule) : Prop where
  unfinished : Unfinished g
  keeps (a : Ahead) : ρ.Keeps g a

namespace Closing

/-- What comes before the last tokens is steady. -/
theorem before (hρ : ρ.Fits False) (hs : Steady False (.seq f g))
    (hg : Steady False g → ρ.Closing g) : ρ.Closing (.seq f g) := by
  cases hs with
  | seq hsf hsg =>
    have h := hg hsg
    exact ⟨h.unfinished.right, fun a => .front hρ hsf h.unfinished h.keeps⟩

/-- A declaration that `end` closes. -/
theorem blockEnd (hρ : ρ.Fits False) {block : Block} :
    ρ.Closing (.call (.blockEnd block) >> .lineTrivia) where
  unfinished := Unfinished.blockEnd.left
  keeps _ := .seq (.blockEnd hρ) fun _ => .lineTrivia hρ

theorem semicolon (hρ : ρ.Fits False) (a : Ahead) :
    ρ.Keeps (.seq (.eat .semicolon) .lineTrivia) a :=
  .seq (.eat hρ (by decide) .skip) fun _ => .lineTrivia hρ

theorem qualifiedName (hρ : ρ.Fits False) :
    ρ.Closing (.call .qualifiedName >> Grammar.eat .semicolon >> .lineTrivia) where
  unfinished := Unfinished.qualifiedName.left
  keeps _ := .seq (.qualifiedName hρ) (semicolon hρ)

theorem importedName (hρ : ρ.Fits False) :
    ρ.Closing (.call .qualifiedName >>
      Grammar.when (fun a => a.isAt .dot && a.nth 1 == .star) (.take 2) >>
      Grammar.eat .semicolon >> .lineTrivia) where
  unfinished := Unfinished.qualifiedName.left
  keeps _ := by
    have hall : ∀ k ∈ Kind.eof :: Kind.declarationStarts, (k == .dot) = false := by decide
    refine .seq (.qualifiedName hρ) fun a => .seq (.when hρ
      (fun hs => hs.isAt_nextIs _ _ (by decide)) (fun b hb => ?_) (fun h => ?_) fun _ => .skip)
      (semicolon hρ)
    · rw [Ahead.isAt, hall _ hb, Bool.false_and]
    · obtain ⟨hdot, hstar⟩ := Bool.and_eq_true_iff.1 h
      have hnext : a.nth 1 ≠ .eof := by
        rw [beq_iff_eq.1 hstar]
        decide
      exact .take hρ (Ahead.two_le_significant (ne_eof_of_isAt hdot rfl) hnext)

theorem globalName (hρ : ρ.Fits False) :
    ρ.Closing (Grammar.expectName .globalName >> Grammar.eat .semicolon >> .lineTrivia) where
  unfinished := Unfinished.expectName.left
  keeps _ := .seq (.expectName hρ) (semicolon hρ)

theorem functionBody (hρ : ρ.Fits False) :
    ρ.Closing (.seq (.whenAt .lBrace (.inner .functionBody .balanced)
      (.seq (.complain .expectedFunctionBody) (.recoverTo []))) .lineTrivia) where
  unfinished := Unfinished.functionBody.left
  keeps _ := .seq (.whenAt hρ (by decide) (fun _ => .inner hρ (.balanced hρ))
    fun _ => .of_fails (fails_complain rfl).seq) fun _ => .lineTrivia hρ

/-- A declaration is a node of its own. -/
theorem node {k : Kind} (hs : Steady False (.node k g)) (hg : Steady False g → ρ.Closing g) :
    ρ.Keeps (.node k g) a := by
  cases hs with
  | group hs => cases hs with
    | enclose hs => exact .node ((hg hs).keeps a)

end Closing

end Replay

/-- The production of the declaration that a keyword opens. -/
def Production.declarationAt : Kind → Production
  | .packageKw => .packageDecl
  | .importKw => .importDecl
  | .globalKw => .globalDecl
  | .functionKw => .functionDecl
  | .queryKw => .queryDecl
  | .declareKw => .declareDecl
  | .ruleKw => .ruleDecl
  | _ => .strayTokens

namespace Replay

variable {ρ : Replay}

/-- Each declaration is read in the same way before another one. -/
theorem keeps_declaration (hρ : ρ.Fits False) (k : Kind) :
    ρ.Keeps (.call (declarationAt k)) a := by
  unfold declarationAt
  split
  · exact .call (Closing.node steady_packageDecl fun h => .before hρ h fun _ => .qualifiedName hρ)
  · exact .call (Closing.node steady_importDecl fun h => .before hρ h fun h =>
      .before hρ h fun _ => .importedName hρ)
  · exact .call (Closing.node steady_globalDecl fun h => .before hρ h fun h =>
      .before hρ h fun _ => .globalName hρ)
  · exact .call (Closing.node steady_functionDecl fun h => .before hρ h fun h =>
      .before hρ h fun h => .before hρ h fun h => .before hρ h fun _ => .functionBody hρ)
  · exact .call (Closing.node steady_queryDecl fun h => .before hρ h fun h =>
      .before hρ h fun h => .before hρ h fun h => .before hρ h fun _ => .blockEnd hρ)
  · exact .call (Closing.node steady_declareDecl fun h => .before hρ h fun h =>
      .before hρ h fun h => .before hρ h fun h => .before hρ h fun h =>
        .before hρ h fun h => .before hρ h fun _ => .blockEnd hρ)
  · exact .call (Closing.node steady_ruleDecl fun h => .before hρ h fun h =>
      .before hρ h fun h => .before hρ h fun h => .before hρ h fun h =>
        .before hρ h fun h => .before hρ h fun h => .before hρ h fun h =>
          .before hρ h fun h => .before hρ h fun _ => .blockEnd hρ)
  · exact .of_fails (.call (.node (fails_fail rfl).seq))

end Replay

end RuleLang
