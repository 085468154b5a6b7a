import RuleLang.Proofs.Grammar.Taking

/-!
# Reading comes to an end

Whether reading ends depends only on the tokens ahead and on whether reading is out of step. So the
weakest precondition of an instruction is computed over these two, and what it says of a nested
production is what is known of that production.

Productions are ranked: one that is entered before a token was taken ranks below the one around it.
As a token that is taken is worth 64 ranks, the nesting is bounded by the tokens ahead.

## Main definitions

* `Grammar.wp` — what must hold before an instruction so that it ends and something holds after it.
* `Grammar.Ranking` — ranks of productions, when they may be entered and what holds after them.
* `Grammar.Ends` — an instruction ends and takes some number of tokens, if it enters productions
  below a rank.

## Main statements

* `Grammar.run_of_wp` — the evaluator ends where the weakest precondition holds.
* `Grammar.Ranking.exists_enter` — productions whose bodies obey a ranking end within its bound.
-/

namespace RuleLang.Grammar

variable {P : Type}

/-! ## Weakest preconditions -/

/-- What holds of the tokens ahead and of being out of step. -/
abbrev Condition := Ahead → Bool → Prop

/-- What must hold before an instruction so that it ends and `Q` holds after it, if `spec` tells the
same of productions. -/
def wp (spec : P → Condition → Condition) : Grammar P → Condition → Condition
  | skip, Q => Q
  | trivia, Q => fun a r => Q a.afterTrivia r
  | lineTrivia, Q => fun a r => Q a.afterLine r
  | take n, Q => fun a r => Q (a.after n) r
  | seq first second, Q => first.wp spec (second.wp spec Q)
  | look choose, Q => fun a r => (choose a).wp spec Q a r
  | ifRecovering yes no, Q => fun a r => if r then yes.wp spec Q a r else no.wp spec Q a r
  | recovered, Q => fun a _ => Q a false
  | complain c, Q => fun a r => Q a (r || !c.isWarning)
  | call p, Q => spec p Q
  | group body, Q => body.wp spec Q
  | enclose _ body, Q => body.wp spec Q

theorem run_of_wp {enter : P → Reading → Option Reading} {spec : P → Condition → Condition}
    (h : ∀ p Q s, spec p Q s.ahead s.recovering →
      ∃ t, enter p s = some t ∧ Q t.ahead t.recovering) {g : Grammar P} {Q : Condition}
    {s : Reading} (hg : g.wp spec Q s.ahead s.recovering) :
    ∃ t, g.run enter s = some t ∧ Q t.ahead t.recovering := by
  induction g generalizing Q s with
  | skip => exact ⟨s, rfl, hg⟩
  | trivia => exact ⟨_, rfl, by rwa [Reading.takeTrivia_eq]⟩
  | lineTrivia => exact ⟨_, rfl, by rwa [Reading.takeLineTrivia_eq]⟩
  | take n => exact ⟨_, rfl, by rwa [Reading.ahead_bumps, Reading.recovering_bumps]⟩
  | seq f g ihf ihg =>
    obtain ⟨t, ht, hQ⟩ := ihf hg
    obtain ⟨u, hu, hQ⟩ := ihg hQ
    exact ⟨u, by simp only [run, ht, hu], hQ⟩
  | look choose ih => exact ih _ hg
  | ifRecovering yes no ihy ihn =>
    simp only [wp] at hg
    simp only [run]
    split at hg
    · rename_i hs
      rw [if_pos hs]
      exact ihy hg
    · rename_i hs
      rw [if_neg hs]
      exact ihn hg
  | recovered => exact ⟨_, rfl, hg⟩
  | complain c =>
    exact ⟨_, rfl, by rwa [Reading.ahead_complain, Reading.recovering_complain]⟩
  | call p => exact h p Q s hg
  | group body ih =>
    obtain ⟨t, ht, hQ⟩ := ih (s := { s with group := [] }) hg
    exact ⟨{ t with group := t.group ++ s.group }, by simp only [run, ht], hQ⟩
  | enclose kind body ih =>
    obtain ⟨t, ht, hQ⟩ := ih hg
    exact ⟨{ t with group := [.node kind t.group.reverse] }, by simp only [run, ht], hQ⟩

theorem wp_mono {spec : P → Condition → Condition}
    (h : ∀ p Q Q', (∀ a r, Q a r → Q' a r) → ∀ a r, spec p Q a r → spec p Q' a r)
    {g : Grammar P} {Q Q' : Condition} (hQ : ∀ a r, Q a r → Q' a r) {a : Ahead} {r : Bool}
    (hg : g.wp spec Q a r) : g.wp spec Q' a r := by
  induction g generalizing Q Q' a r with
  | skip | trivia | lineTrivia | take | recovered | complain => exact hQ _ _ hg
  | seq f g ihf ihg => exact ihf (fun _ _ => ihg hQ) hg
  | look choose ih => exact ih _ hQ hg
  | ifRecovering yes no ihy ihn =>
    simp only [wp] at hg ⊢
    split at hg
    · rename_i hr
      rw [if_pos hr]
      exact ihy hQ hg
    · rename_i hr
      rw [if_neg hr]
      exact ihn hQ hg
  | call p => exact h p Q Q' hQ _ _ hg
  | group body ih | enclose kind body ih => exact ih hQ hg

theorem wp_recovered_look (spec : P → Condition → Condition) (choose : Ahead → Grammar P)
    (Q : Condition) (a : Ahead) (r : Bool) :
    (.recovered >> .look choose : Grammar P).wp spec Q a r = (choose a).wp spec Q a false := rfl

/-! ## Rankings -/

structure Ranking (P : Type) where
  rank : P → Nat
  /-- Where a production may be entered. -/
  ready : P → Ahead → Prop
  /-- What is known of the tokens ahead before and after a production. -/
  after : P → Ahead → Ahead → Prop
  rank_lt (p : P) : rank p < 64
  length_le {p : P} {a b : Ahead} : after p a b → b.length ≤ a.length

namespace Ranking

variable (ρ : Ranking P)

/-- What a ranking tells of productions that are entered within a bound. -/
def spec (depth : Nat) (p : P) (Q : Condition) : Condition := fun a _ =>
  64 * a.length + ρ.rank p < depth ∧ ρ.ready p a ∧ ∀ b r, ρ.after p a b → Q b r

theorem spec_mono (depth : Nat) (p : P) (Q Q' : Condition) (hQ : ∀ a r, Q a r → Q' a r)
    (a : Ahead) (r : Bool) (h : ρ.spec depth p Q a r) : ρ.spec depth p Q' a r :=
  ⟨h.1, h.2.1, fun b s hb => hQ b s (h.2.2 b s hb)⟩

/-- The body of a production obeys a ranking. -/
def Obeyed (rules : P → Grammar P) : Prop :=
  ∀ p depth a r, ρ.ready p a → 64 * a.length + ρ.rank p ≤ depth →
    (rules p).wp (ρ.spec depth) (fun b _ => ρ.after p a b) a r

theorem exists_enter {rules : P → Grammar P} (h : ρ.Obeyed rules) {p : P} {s : Reading}
    {depth : Nat} (hs : ρ.ready p s.ahead) (hd : 64 * s.ahead.length + ρ.rank p < depth) :
    ∃ t, enter rules depth p s = some t ∧ ρ.after p s.ahead t.ahead := by
  induction depth generalizing p s with
  | zero => exact absurd hd (Nat.not_lt_zero _)
  | succ depth ih =>
    have hspec : ∀ p Q s, ρ.spec depth p Q s.ahead s.recovering →
        ∃ t, enter rules depth p s = some t ∧ Q t.ahead t.recovering := by
      rintro p Q s ⟨hlt, hready, hQ⟩
      obtain ⟨t, ht, hafter⟩ := ih hready hlt
      exact ⟨t, ht, hQ _ _ hafter⟩
    exact run_of_wp (s := { s with entered := s.entered + 1 }) hspec
      (h p depth s.ahead s.recovering hs (by omega))

end Ranking

/-! ## Counting tokens -/

variable {ρ : Ranking P} {m k : Nat} {f g body otherwise : Grammar P} {a : Ahead}

/-- From some tokens ahead an instruction ends and takes at least `k` tokens, if productions of a
rank below `m` may be entered before a token is taken. -/
def Ends (ρ : Ranking P) (m k : Nat) (g : Grammar P) (a : Ahead) : Prop :=
  ∀ depth n r, a.length ≤ n → 64 * n + m ≤ depth →
    g.wp (ρ.spec depth) (fun b _ => b.length + k ≤ n) a r

namespace Ends

theorem weaken (h : Ends ρ m 1 g a) : Ends ρ m 0 g a := by
  intro depth n r ha hd
  exact wp_mono (ρ.spec_mono depth) (fun b _ hb => by omega) (h depth n r ha hd)

/-- Before a token is taken ranks count, after it they do not. -/
theorem seq {l : Nat} (hf : Ends ρ m k f a) (hg : ∀ b, Ends ρ (m + 64 * k) l g b) :
    Ends ρ m (k + l) (f >> g) a := by
  intro depth n r ha hd
  change f.wp (ρ.spec depth) (g.wp (ρ.spec depth) fun b _ => b.length + (k + l) ≤ n) a r
  refine wp_mono (ρ.spec_mono depth) (fun b s hb => ?_) (hf depth n r ha hd)
  refine wp_mono (ρ.spec_mono depth) (fun c _ hc => ?_)
    (hg b depth (n - k) s (by omega) (by omega))
  omega

theorem seq_zero (hf : Ends ρ m 0 f a) (hg : ∀ b, Ends ρ m k g b) : Ends ρ m k (f >> g) a := by
  have := seq hf hg
  rwa [Nat.zero_add] at this

theorem seq_one (hf : Ends ρ m 1 f a) (hg : ∀ b, Ends ρ (m + 64) 0 g b) :
    Ends ρ m 1 (f >> g) a :=
  seq hf hg

theorem look {choose : Ahead → Grammar P} (h : Ends ρ m k (choose a) a) :
    Ends ρ m k (.look choose) a := h

theorem ifRecovering (hf : Ends ρ m k f a) (hg : Ends ρ m k g a) :
    Ends ρ m k (.ifRecovering f g) a := by
  intro depth n r ha hd
  simp only [wp]
  split
  · exact hf depth n r ha hd
  · exact hg depth n r ha hd

theorem call {p : P} (hr : ρ.rank p < m) (hp : ρ.ready p a)
    (hk : ∀ b, ρ.after p a b → b.length + k ≤ a.length) : Ends ρ m k (.call p) a := by
  intro depth n r ha hd
  refine ⟨by omega, hp, fun b _ hb => ?_⟩
  have := hk b hb
  omega

theorem call_zero {p : P} (hr : ρ.rank p < m) (hp : ρ.ready p a) : Ends ρ m 0 (.call p) a :=
  call hr hp fun _ hb => ρ.length_le hb

theorem skip : Ends ρ m 0 .skip a := fun _ _ _ ha _ => ha

theorem complain {c : Complaint} : Ends ρ m 0 (.complain c) a := fun _ _ _ ha _ => ha

theorem recovered : Ends ρ m 0 .recovered a := fun _ _ _ ha _ => ha

theorem trivia : Ends ρ m 0 .trivia a :=
  fun _ _ _ ha _ => a.length_afterTrivia_le.trans ha

theorem lineTrivia : Ends ρ m 0 .lineTrivia a :=
  fun _ _ _ ha _ => a.length_afterLine_le.trans ha

theorem take {n : Nat} : Ends ρ m 0 (.take n) a :=
  fun _ _ _ ha _ => (Ahead.length_after_le n a).trans ha

theorem take_one {n : Nat} (hn : 0 < n) (h : a.current ≠ .eof) : Ends ρ m 1 (.take n) a :=
  fun _ _ _ ha _ => (Nat.succ_le_of_lt (Ahead.length_after_lt hn h)).trans ha

theorem group (h : Ends ρ m k body a) : Ends ρ m k (.group body) a := h

theorem enclose {kind : Kind} (h : Ends ρ m k body a) : Ends ρ m k (.enclose kind body) a := h

/-! ## Derived instructions -/

theorem node {kind : Kind} (h : Ends ρ m k body a) : Ends ρ m k (.node kind body) a := h

theorem inner {kind : Kind} (h : Ends ρ m k body a.afterTrivia) :
    Ends ρ m k (.inner kind body) a :=
  fun depth n r ha hd => h depth n r (a.length_afterTrivia_le.trans ha) hd

theorem innerGroup (h : Ends ρ m k body a.afterTrivia) : Ends ρ m k (.innerGroup body) a :=
  fun depth n r ha hd => h depth n r (a.length_afterTrivia_le.trans ha) hd

theorem when {test : Ahead → Bool} (hb : test a = true → Ends ρ m k body a)
    (ho : test a = false → Ends ρ m k otherwise a) :
    Ends ρ m k (.when test body otherwise) a := by
  refine look ?_
  split
  · exact hb ‹_›
  · exact ho (Bool.eq_false_iff.2 ‹_›)

theorem skip_seq (h : Ends ρ m k g a) : Ends ρ m k (.skip >> g) a := h

theorem complain_seq {c : Complaint} (h : Ends ρ m k g a) : Ends ρ m k (.complain c >> g) a :=
  fun depth n _ ha hd => h depth n _ ha hd

theorem fail_seq {c : Kind → Complaint} (h : Ends ρ m k g a) : Ends ρ m k (.fail c >> g) a :=
  complain_seq h

theorem look_seq {choose : Ahead → Grammar P} (h : Ends ρ m k (choose a >> g) a) :
    Ends ρ m k (.look choose >> g) a := h

theorem seq_assoc {h : Grammar P} (hs : Ends ρ m k (f >> (g >> h)) a) :
    Ends ρ m k ((f >> g) >> h) a := hs

/-- Where the test is known, only one of the two ways goes on. -/
theorem when_seq {test : Ahead → Bool} (hb : test a = true → Ends ρ m k (body >> g) a)
    (ho : test a = false → Ends ρ m k (otherwise >> g) a) :
    Ends ρ m k (.when test body otherwise >> g) a := by
  intro depth n r ha hd
  change (if test a then body else otherwise).wp _ _ a r
  split
  · exact hb ‹_› depth n r ha hd
  · exact ho (Bool.eq_false_iff.2 ‹_›) depth n r ha hd

theorem whenAt {c : Kind} (hb : a.current = c → Ends ρ m k body a)
    (ho : a.current ≠ c → Ends ρ m k otherwise a) : Ends ρ m k (.whenAt c body otherwise) a :=
  when (fun h => hb (beq_iff_eq.1 h)) fun h => ho (beq_eq_false_iff_ne.1 h)

theorem bump_one (h : a.current ≠ .eof) : Ends ρ m 1 .bump a :=
  take_one Nat.one_pos h

/-- A token is taken, so ranks do not count after it. -/
theorem take_seq {n : Nat} (hn : 0 < n) (h : a.current ≠ .eof)
    (hg : ∀ b, Ends ρ (m + 64) 0 g b) : Ends ρ m 1 (.take n >> g) a :=
  seq_one (take_one hn h) hg

theorem bump_seq (h : a.current ≠ .eof) (hg : ∀ b, Ends ρ (m + 64) 0 g b) :
    Ends ρ m 1 (.bump >> g) a :=
  take_seq Nat.one_pos h hg

theorem fail {c : Kind → Complaint} : Ends ρ m 0 (.fail c) a := look complain

theorem eat {c : Kind} (hc : (c == .eof) = false) (hb : ∀ b, Ends ρ (m + 64) 0 body b)
    (ho : Ends ρ m 0 otherwise a) : Ends ρ m 0 (.eat c body otherwise) a :=
  whenAt (fun h => (bump_seq (Ahead.current_ne_eof h hc) hb).weaken) fun _ => ho

theorem expect {c : Kind} (hc : (c == .eof) = false) (hb : ∀ b, Ends ρ (m + 64) 0 body b) :
    Ends ρ m 0 (.expect c body) a :=
  eat hc hb fail

theorem expect_skip {c : Kind} (hc : (c == .eof) = false) : Ends ρ m 0 (.expect c) a :=
  expect hc fun _ => skip

theorem expectName {role : Role} : Ends ρ m 0 (.expectName role) a :=
  when (fun _ => take) fun _ => fail

theorem balanced : Ends ρ m 0 .balanced a := by
  refine look ?_
  dsimp only
  refine seq_zero take fun b => ?_
  split
  · exact skip
  · exact complain

/-- A bracketed group has at least one token. -/
theorem balanced_one (h : Ahead.isOpening a.current = true) : Ends ρ m 1 .balanced a := by
  have hc : a.current ≠ .eof := by
    intro he
    rw [he] at h
    cases h
  refine look ?_
  dsimp only
  refine seq_one (take_one (Ahead.balanced_pos hc) hc) fun b => ?_
  split
  · exact skip
  · exact complain

theorem wrapError {n : Nat} : Ends ρ m 0 (.wrapError n) a := by
  unfold Grammar.wrapError
  split
  · exact skip
  · exact inner take

theorem recoverTo {stops : List Kind} : Ends ρ m 0 (.recoverTo stops) a :=
  seq_zero (look wrapError) fun _ => when (fun _ => recovered) fun _ => skip

/-- A stretch of tokens that is not empty is wrapped. -/
theorem recoverTo_one {stops : List Kind} (h : a.current ≠ .eof)
    (hs : (a.current == .eof || stops.contains a.current || a.current.isBoundaryKeyword) = false) :
    Ends ρ m 1 (.recoverTo stops) a := by
  have hn : 0 < a.countUntil fun k => k == .eof || stops.contains k || k.isBoundaryKeyword :=
    Ahead.countUntil_pos h hs
  refine seq_one (look ?_) fun _ => when (fun _ => recovered) fun _ => skip
  rw [Grammar.wrapError, if_neg hn.ne']
  exact inner (take_one hn (by simpa using h))

/-- After an error reading is out of step. -/
theorem recovering_seq {c : Kind → Complaint} {rest : Grammar P} (hc : (c a.current).isWarning = false)
    (h : Ends ρ m k (f >> rest) a) : Ends ρ m k (.seq (.fail c) (.seq (.ifRecovering f g) rest)) a := by
  intro depth n r ha hd
  change wp _ (.seq (.ifRecovering f g) rest) _ a (r || !(c a.current).isWarning)
  rw [hc, Bool.not_false, Bool.or_true]
  exact h depth n true ha hd

theorem recoverInParens : Ends ρ m 0 .recoverInParens a := by
  refine ifRecovering (look ?_) skip
  split
  · exact seq_zero wrapError fun _ => recovered
  · exact skip

end Ends

end RuleLang.Grammar
