import RuleLang.Proofs.Grammar.Spends

/-!
# How many productions are entered

Every production has a price, and every significant token that is taken earns 64. Reading by a body
spends no more than the price of its production, less one for entering it, and what its tokens earn.
So the productions that are entered are counted by the tokens that are taken, and entering a
production again without a token would cost more than there is.

## Main definitions

* `Grammar.Calls` — reading by an instruction enters a production in a state.
* `Reading.account` — the productions entered so far, and what the tokens ahead will earn.
* `Grammar.Prices` — prices of productions, where they may be entered, and what they give back.
* `Grammar.Pays` — reading by an instruction from one budget leaves another one.

## Main statements

* `Grammar.Prices.account_of_enter` — productions whose bodies keep to their prices do so at any
  depth.
-/

namespace RuleLang

open Grammar

/-! ## What the tokens ahead will earn -/

theorem Ahead.significant_afterLine (a : Ahead) : a.afterLine.significant = a.significant := by
  have hsplit := List.take_append_drop (Reading.lineTriviaLength a) a
  have htrivia : ∀ t ∈ a.take (Reading.lineTriviaLength a), t.isTrivia = true :=
    fun t => Reading.isTrivia_of_mem_lineTrivia
  have hzero : Ahead.significant (a.take (Reading.lineTriviaLength a)) = 0 :=
    significant_of_lastKind (lastKind_of_trivia none htrivia)
  conv_rhs => rw [← hsplit, significant_append fun t ht =>
    Reading.kind_ne_eof_of_isTrivia (htrivia t ht), hzero, Nat.zero_add]
  rfl

namespace Reading

/-- The productions entered so far, and what the tokens ahead will earn. -/
def account (s : Reading) : Nat :=
  s.entered + 64 * s.ahead.significant

theorem entered_takeTokens (n : Nat) (s : Reading) : (s.takeTokens n).entered = s.entered := by
  induction n generalizing s with
  | zero => rfl
  | succ n ih =>
    rw [takeTokens_succ, ih, takeToken]
    split
    · split <;> rfl
    · rfl

theorem entered_bumps (n : Nat) (s : Reading) : (s.bumps n).entered = s.entered := by
  rw [bumps_eq_takeTokens, entered_takeTokens]

theorem entered_complain (s : Reading) (c : Complaint) : (s.complain c).entered = s.entered := by
  unfold complain
  dsimp only
  split <;> split <;> first | rfl | (split <;> rfl)

theorem account_takeTrivia (s : Reading) : s.takeTrivia.account = s.account := by
  rw [account, ahead_takeTrivia, Ahead.significant_afterTrivia, takeTrivia, entered_takeTokens, account]

theorem account_takeLineTrivia (s : Reading) : s.takeLineTrivia.account = s.account := by
  rw [account, ahead_takeLineTrivia, Ahead.significant_afterLine, takeLineTrivia, entered_takeTokens,
    account]

theorem account_bumps (n : Nat) (s : Reading) :
    (s.bumps n).account = s.entered + 64 * (s.ahead.significant - n) := by
  rw [account, ahead_bumps, Ahead.significant_after, entered_bumps]

theorem account_complain (s : Reading) (c : Complaint) : (s.complain c).account = s.account := by
  rw [account, ahead_complain, entered_complain, account]

end Reading

namespace Grammar

variable {P : Type}

/-! ## Calls -/

/-- Reading by an instruction enters a production in a state. What that production enters in turn
does not count. -/
inductive Calls (enter : P → Reading → Option Reading) (q : P) (u : Reading) :
    Grammar P → Reading → Prop
  | call : Calls enter q u (.call q) u
  | first {f g : Grammar P} {s : Reading} : Calls enter q u f s → Calls enter q u (.seq f g) s
  | second {f g : Grammar P} {s t : Reading} : f.run enter s = some t → Calls enter q u g t →
    Calls enter q u (.seq f g) s
  | look {choose : Ahead → Grammar P} {s : Reading} : Calls enter q u (choose s.ahead) s →
    Calls enter q u (.look choose) s
  | ifRecovering {yes no : Grammar P} {s : Reading} :
    Calls enter q u (if s.recovering then yes else no) s → Calls enter q u (.ifRecovering yes no) s
  | group {body : Grammar P} {s : Reading} : Calls enter q u body { s with group := [] } →
    Calls enter q u (.group body) s
  | enclose {kind : Kind} {body : Grammar P} {s : Reading} : Calls enter q u body s →
    Calls enter q u (.enclose kind body) s

/-- Productions that are entered are counted. -/
theorem Reads.entered_le {rules : P → Grammar P} {g : Grammar P} {s t : Reading}
    (h : Reads rules g s t) : s.entered ≤ t.entered := by
  induction h with
  | skip | recovered => exact Nat.le_refl _
  | trivia s => exact (Reading.entered_takeTokens _ s).ge
  | lineTrivia s => exact (Reading.entered_takeTokens _ s).ge
  | take n s => exact (Reading.entered_bumps n s).ge
  | seq _ _ ihf ihg => exact ihf.trans ihg
  | look _ ih | ifRecovering _ ih | group _ ih | enclose _ ih => exact ih
  | complain c s => exact (Reading.entered_complain s c).ge
  | call _ ih => exact (Nat.le_succ _).trans ih

theorem Calls.entered_le {rules : P → Grammar P} {depth : Nat} {q : P} {u s : Reading} {g : Grammar P}
    (h : Calls (enter rules depth) q u g s) : s.entered ≤ u.entered := by
  induction h with
  | call => exact Nat.le_refl _
  | second hf _ ih => exact (reads_of_run (fun _ _ _ => reads_of_enter) hf).entered_le.trans ih
  | first _ ih | look _ ih | ifRecovering _ ih | group _ ih | enclose _ ih => exact ih

/-! ## Prices -/

/-- What productions cost. A production may be entered where it is `ready`, and what is left of its
price and of what its tokens earn comes back to the one that entered it. -/
structure Prices (P : Type) where
  price : P → Nat
  price_pos (p : P) : 0 < price p
  ready : P → Ahead → Prop
  refund : P → Ahead → Nat

namespace Prices

variable (β : Prices P)

/-- Productions keep to their prices. -/
def Kept (enter : P → Reading → Option Reading) : Prop :=
  ∀ p s t, β.ready p s.ahead → enter p s = some t →
    t.account + β.refund p s.ahead ≤ s.account + β.price p

end Prices

/-- From some tokens ahead, reading by an instruction spends no more than a budget and what its
tokens earn, and leaves a budget. The productions that it enters are ready, and the budget covers
them. -/
structure Pays (β : Prices P) (budget left : Nat) (g : Grammar P) (a : Ahead) : Prop where
  ends : ∀ enter, β.Kept enter → ∀ s t, s.ahead = a → g.run enter s = some t →
    t.account + left ≤ s.account + budget
  calls : ∀ enter, β.Kept enter → ∀ s q u, s.ahead = a → Calls enter q u g s →
    β.ready q u.ahead ∧ u.account + β.price q ≤ s.account + budget

variable {β : Prices P} {m k l : Nat} {f g body otherwise : Grammar P} {a : Ahead}

namespace Pays

theorem mono (h : Pays β m k g a) {m' k' : Nat} (hm : m ≤ m') (hk : k' ≤ k) : Pays β m' k' g a where
  ends enter hE s t ha ht := by
    have := h.ends enter hE s t ha ht
    omega
  calls enter hE s q u ha hq := by
    obtain ⟨hready, hle⟩ := h.calls enter hE s q u ha hq
    exact ⟨hready, by omega⟩

/-- More than enough is left. -/
theorem enough (h : Pays β m l g a) (hk : k.ble l = true) : Pays β m k g a :=
  h.mono (Nat.le_refl m) (Nat.le_of_ble_eq_true hk)

/-- An instruction that enters no production. -/
theorem of_account (hends : ∀ enter s t, s.ahead = a → g.run enter s = some t →
      t.account + k ≤ s.account + m)
    (hcalls : ∀ enter q u s, ¬Calls enter q u g s) : Pays β m k g a where
  ends enter _ s t ha ht := hends enter s t ha ht
  calls enter _ s q u _ hq := absurd hq (hcalls enter q u s)

theorem skip : Pays β m m .skip a :=
  of_account (fun _ _ _ _ ht => by cases ht; exact Nat.le_refl _) nofun

theorem recovered : Pays β m m .recovered a :=
  of_account (fun _ _ _ _ ht => by cases ht; exact Nat.le_refl _) nofun

theorem trivia : Pays β m m .trivia a :=
  of_account (fun _ s _ _ ht => by cases ht; rw [s.account_takeTrivia]) nofun

theorem lineTrivia : Pays β m m .lineTrivia a :=
  of_account (fun _ s _ _ ht => by cases ht; rw [s.account_takeLineTrivia]) nofun

theorem complain {c : Complaint} : Pays β m m (.complain c) a :=
  of_account (fun _ s _ _ ht => by cases ht; rw [s.account_complain]) nofun

theorem take {n : Nat} : Pays β m m (.take n) a := by
  refine of_account (fun _ s _ _ ht => ?_) nofun
  cases ht
  rw [Reading.account_bumps, Reading.account]
  omega

/-- Each token that is taken earns 64, so one at least does. -/
theorem take_one {n : Nat} (hn : 0 < n) (h : a.current ≠ .eof) : Pays β m (m + 64) (.take n) a := by
  refine of_account (fun _ s _ ha ht => ?_) nofun
  cases ht
  have := Ahead.one_le_significant h
  rw [Reading.account_bumps, Reading.account, ha]
  omega

theorem seq (hf : Pays β m l f a) (hg : ∀ b, Pays β l k g b) : Pays β m k (f >> g) a where
  ends enter hE s u ha hu := by
    change (Grammar.seq f g).run enter s = some u at hu
    rw [run] at hu
    split at hu
    · rename_i t ht
      have := hf.ends enter hE s t ha ht
      have := (hg _).ends enter hE t u rfl hu
      omega
    · cases hu
  calls enter hE s q u ha hq := by
    cases hq with
    | first hq => exact hf.calls enter hE s q u ha hq
    | @second _ _ _ t ht hq =>
      have := hf.ends enter hE s t ha ht
      obtain ⟨hready, hle⟩ := (hg _).calls enter hE t q u rfl hq
      exact ⟨hready, by omega⟩

theorem look {choose : Ahead → Grammar P} (h : Pays β m k (choose a) a) : Pays β m k (.look choose) a where
  ends enter hE s t ha ht := h.ends enter hE s t ha (ha ▸ ht)
  calls enter hE s q u ha hq := by
    cases hq with
    | look hq => exact h.calls enter hE s q u ha (ha ▸ hq)

theorem ifRecovering (hf : Pays β m k f a) (hg : Pays β m k g a) :
    Pays β m k (.ifRecovering f g) a where
  ends enter hE s t ha ht := by
    rw [run] at ht
    split at ht
    · exact hf.ends enter hE s t ha ht
    · exact hg.ends enter hE s t ha ht
  calls enter hE s q u ha hq := by
    cases hq with
    | ifRecovering hq =>
      split at hq
      · exact hf.calls enter hE s q u ha hq
      · exact hg.calls enter hE s q u ha hq

theorem call {p : P} (hready : β.ready p a) (hm : β.price p ≤ m) :
    Pays β m (m - β.price p + β.refund p a) (.call p) a where
  ends enter hE s t ha ht := by
    have := hE p s t (ha ▸ hready) ht
    rw [ha] at this
    omega
  calls enter hE s q u ha hq := by
    cases hq
    exact ⟨ha ▸ hready, by omega⟩

theorem group (h : Pays β m k body a) : Pays β m k (.group body) a where
  ends enter hE s t ha ht := by
    rw [run] at ht
    split at ht
    · rename_i u hu
      cases ht
      exact h.ends enter hE { s with group := [] } u ha hu
    · cases ht
  calls enter hE s q u ha hq := by
    cases hq with
    | group hq => exact h.calls enter hE { s with group := [] } q u ha hq

theorem enclose {kind : Kind} (h : Pays β m k body a) : Pays β m k (.enclose kind body) a where
  ends enter hE s t ha ht := by
    rw [run] at ht
    split at ht
    · rename_i u hu
      cases ht
      exact h.ends enter hE s u ha hu
    · cases ht
  calls enter hE s q u ha hq := by
    cases hq with
    | enclose hq => exact h.calls enter hE s q u ha hq

/-! ## Derived instructions -/

theorem node {kind : Kind} (h : Pays β m k body a) : Pays β m k (.node kind body) a :=
  group (enclose h)

/-- Trivia earns nothing. -/
theorem trivia_seq (h : Pays β m k g a.afterTrivia) : Pays β m k (.trivia >> g) a where
  ends enter hE s t ha ht := by
    have := h.ends enter hE s.takeTrivia t (by rw [Reading.ahead_takeTrivia, ha]) ht
    rwa [s.account_takeTrivia] at this
  calls enter hE s q u ha hq := by
    cases hq with
    | first hq => cases hq
    | second ht hq =>
      cases ht
      have := h.calls enter hE s.takeTrivia q u (by rw [Reading.ahead_takeTrivia, ha]) hq
      rwa [s.account_takeTrivia] at this

theorem inner {kind : Kind} (h : Pays β m k body a.afterTrivia) : Pays β m k (.inner kind body) a :=
  trivia_seq (node h)

theorem innerGroup (h : Pays β m k body a.afterTrivia) : Pays β m k (.innerGroup body) a :=
  trivia_seq (group h)

theorem when {test : Ahead → Bool} (hb : test a = true → Pays β m k body a)
    (ho : test a = false → Pays β m k otherwise a) : Pays β m k (.when test body otherwise) a := by
  refine look ?_
  split
  · exact hb ‹_›
  · exact ho (Bool.eq_false_iff.2 ‹_›)

theorem whenAt {c : Kind} (hb : a.current = c → Pays β m k body a)
    (ho : a.current ≠ c → Pays β m k otherwise a) : Pays β m k (.whenAt c body otherwise) a :=
  when (fun h => hb (beq_iff_eq.1 h)) fun h => ho (beq_eq_false_iff_ne.1 h)

theorem take_seq {n : Nat} (hn : 0 < n) (h : a.current ≠ .eof) (hg : ∀ b, Pays β (m + 64) k g b) :
    Pays β m k (.take n >> g) a :=
  seq (take_one hn h) hg

theorem bump_seq (h : a.current ≠ .eof) (hg : ∀ b, Pays β (m + 64) k g b) :
    Pays β m k (.bump >> g) a :=
  take_seq Nat.one_pos h hg

theorem fail {c : Kind → Complaint} : Pays β m m (.fail c) a :=
  look complain

theorem eat {c : Kind} (hc : (c == .eof) = false) (hb : ∀ b, Pays β (m + 64) k body b)
    (ho : Pays β m k otherwise a) : Pays β m k (.eat c body otherwise) a :=
  whenAt (fun h => bump_seq (Ahead.current_ne_eof h hc) hb) fun _ => ho

/-- A token that may be left out, and nothing after it. -/
theorem eat_skip {c : Kind} (hc : (c == .eof) = false) : Pays β m m (.eat c) a :=
  eat hc (fun _ => skip.mono (Nat.le_refl _) (Nat.le_add_right _ _)) skip

theorem expect {c : Kind} (hc : (c == .eof) = false) (hb : ∀ b, Pays β (m + 64) m body b) :
    Pays β m m (.expect c body) a :=
  eat hc hb fail

theorem expect_skip {c : Kind} (hc : (c == .eof) = false) : Pays β m m (.expect c) a :=
  expect hc fun _ => skip.mono (Nat.le_refl _) (Nat.le_add_right _ _)

theorem expectName {role : Role} : Pays β m m (.expectName role) a :=
  when (fun _ => take) fun _ => fail

theorem balanced : Pays β m m .balanced a := by
  refine look (seq take fun _ => ?_)
  split
  · exact skip
  · exact complain

/-- A bracketed group has at least one token. -/
theorem balanced_one (h : Ahead.isOpening a.current = true) : Pays β m (m + 64) .balanced a := by
  have hc : a.current ≠ .eof := by
    intro he
    rw [he] at h
    cases h
  refine look (seq (take_one (Ahead.balanced_pos hc) hc) fun _ => ?_)
  split
  · exact skip
  · exact complain

theorem wrapError {n : Nat} : Pays β m m (.wrapError n) a := by
  unfold Grammar.wrapError
  split
  · exact skip
  · exact inner take

theorem recoverTo {stops : List Kind} : Pays β m m (.recoverTo stops) a :=
  seq (look wrapError) fun _ => when (fun _ => recovered) fun _ => skip

/-- A stretch of tokens that is not empty is wrapped. -/
theorem recoverTo_one {stops : List Kind} (h : a.current ≠ .eof)
    (hs : (a.current == .eof || stops.contains a.current || a.current.isBoundaryKeyword) = false) :
    Pays β m (m + 64) (.recoverTo stops) a := by
  have hn : 0 < a.countUntil fun k => k == .eof || stops.contains k || k.isBoundaryKeyword :=
    Ahead.countUntil_pos h hs
  refine seq (look ?_) fun _ => when (fun _ => recovered) fun _ => skip
  rw [Grammar.wrapError, if_neg hn.ne']
  exact inner (take_one hn (by simpa using h))

theorem recoverInParens : Pays β m m .recoverInParens a := by
  refine ifRecovering (look ?_) skip
  split
  · exact seq wrapError fun _ => recovered
  · exact skip

/-- A complaint changes neither the tokens ahead nor the budget. -/
theorem complain_seq {c : Complaint} (h : Pays β m k g a) : Pays β m k (.complain c >> g) a where
  ends enter hE s t ha ht := by
    have := h.ends enter hE (s.complain c) t (by rw [Reading.ahead_complain, ha]) ht
    rwa [s.account_complain] at this
  calls enter hE s q u ha hq := by
    cases hq with
    | first hq => cases hq
    | second ht hq =>
      cases ht
      have := h.calls enter hE (s.complain c) q u (by rw [Reading.ahead_complain, ha]) hq
      rwa [s.account_complain] at this

theorem look_seq {choose : Ahead → Grammar P} (h : Pays β m k (choose a >> g) a) :
    Pays β m k (.look choose >> g) a where
  ends enter hE s t ha ht := by
    subst ha
    exact h.ends enter hE s t rfl ht
  calls enter hE s q u ha hq := by
    subst ha
    refine h.calls enter hE s q u rfl ?_
    cases hq with
    | first hq => cases hq with
      | look hq => exact .first hq
    | second ht hq => exact .second ht hq

theorem fail_seq {c : Kind → Complaint} (h : Pays β m k g a) : Pays β m k (.fail c >> g) a :=
  look_seq (complain_seq h)

theorem skip_seq (h : Pays β m k g a) : Pays β m k (.skip >> g) a where
  ends enter hE s t ha ht := h.ends enter hE s t ha ht
  calls enter hE s q u ha hq := by
    cases hq with
    | first hq => cases hq
    | second ht hq =>
      cases ht
      exact h.calls enter hE s q u ha hq

/-- Where the test is known, only one of the two ways goes on. -/
theorem when_seq {test : Ahead → Bool} (hb : test a = true → Pays β m k (body >> g) a)
    (ho : test a = false → Pays β m k (otherwise >> g) a) :
    Pays β m k (.when test body otherwise >> g) a := by
  refine look_seq ?_
  split
  · exact hb ‹_›
  · exact ho (Bool.eq_false_iff.2 ‹_›)

/-- One token is taken first, whatever the rest of the first instruction does. -/
theorem bump_seq_seq (h : a.current ≠ .eof) (hf : ∀ b, Pays β (m + 64) l f b)
    (hg : ∀ b, Pays β l k g b) : Pays β m k ((.bump >> f) >> g) a :=
  seq (bump_seq h hf) hg

/-- After an error reading is out of step. -/
theorem recovering_seq {c : Kind → Complaint} {rest : Grammar P}
    (hc : (c a.current).isWarning = false) (h : Pays β m k (f >> rest) a) :
    Pays β m k (.seq (.fail c) (.seq (.ifRecovering f g) rest)) a := by
  refine look_seq ?_
  have hrecovering (s : Reading) : (s.complain (c a.current)).recovering = true := by
    rw [Reading.recovering_complain, hc, Bool.not_false, Bool.or_true]
  have hrun (enter : P → Reading → Option Reading) (s : Reading) :
      (.seq (.complain (c a.current)) (.seq (.ifRecovering f g) rest) : Grammar P).run enter s =
        (.seq f rest : Grammar P).run enter (s.complain (c a.current)) := by
    simp only [run, hrecovering, if_true]
  refine ⟨fun enter hE s t ha ht => ?_, fun enter hE s q u ha hq => ?_⟩
  · have ht := (hrun enter s).symm.trans ht
    have := h.ends enter hE (s.complain (c a.current)) t (by rw [Reading.ahead_complain, ha]) ht
    rwa [s.account_complain] at this
  · cases hq with
    | first hq => cases hq
    | second ht hq =>
      cases ht
      have := h.calls enter hE (s.complain (c a.current)) q u (by rw [Reading.ahead_complain, ha])
      rw [s.account_complain] at this
      refine this ?_
      cases hq with
      | first hq => cases hq with
        | ifRecovering hq =>
          rw [if_pos (hrecovering s)] at hq
          exact .first hq
      | second ht hq =>
        rw [run, if_pos (hrecovering s)] at ht
        exact .second ht hq

end Pays

/-! ## Productions -/

namespace Prices

/-- The body of a production keeps to its price, less one for entering it. -/
def Obeyed (β : Prices P) (rules : P → Grammar P) : Prop :=
  ∀ p a, β.ready p a → Pays β (β.price p - 1) (β.refund p a) (rules p) a

variable {rules : P → Grammar P}

theorem account_enter (s : Reading) :
    { s with entered := s.entered + 1 : Reading }.account = s.account + 1 := by
  simp only [Reading.account]
  omega

/-- Productions whose bodies keep to their prices do so at any depth. -/
theorem account_of_enter (h : β.Obeyed rules) (depth : Nat) : β.Kept (enter rules depth) := by
  induction depth with
  | zero => exact fun _ _ _ _ ht => nomatch ht
  | succ depth ih =>
    intro p s t hready ht
    have hle := (h p s.ahead hready).ends _ ih { s with entered := s.entered + 1 } t rfl ht
    have := β.price_pos p
    rw [account_enter] at hle
    omega

end Prices

/-! ## Cycles -/

/-- Reading by a production enters another one: both with the states in which they are entered. -/
def Invokes (rules : P → Grammar P) (x y : P × Reading) : Prop :=
  ∃ depth, Calls (enter rules depth) y.1 y.2 (rules x.1)
    { x.2 with entered := x.2.entered + 1 }

namespace Prices

variable {rules : P → Grammar P} {x y : P × Reading}

/-- The price of a production, and what the tokens ahead of it will earn. -/
def worth (β : Prices P) (x : P × Reading) : Nat :=
  β.price x.1 + 64 * x.2.ahead.significant

/-- A production is worth more than those it enters. -/
theorem worth_lt (h : β.Obeyed rules) (hready : β.ready x.1 x.2.ahead) (hxy : Invokes rules x y) :
    β.ready y.1 y.2.ahead ∧ β.worth y < β.worth x := by
  obtain ⟨p, s⟩ := x
  obtain ⟨q, u⟩ := y
  obtain ⟨depth, hcalls⟩ := hxy
  obtain ⟨hq, hle⟩ := (h p s.ahead hready).calls _ (account_of_enter h depth)
    { s with entered := s.entered + 1 } q u rfl hcalls
  have hentered : s.entered + 1 ≤ u.entered := hcalls.entered_le
  have := β.price_pos p
  refine ⟨hq, ?_⟩
  rw [account_enter] at hle
  simp only [Reading.account, worth] at hle ⊢
  omega

end Prices

end Grammar

end RuleLang
