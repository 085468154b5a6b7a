import RuleLang.Proofs.Grammar.Reads

/-!
# Reading without complaint

A token list without syntax errors is read in step all the way, and apart from warnings nothing is
recorded. What is left of the state of reading are the tokens ahead and the group, and what is left
of an instruction is a relation between two such points.

## Main definitions

* `Point` — tokens ahead and elements of the group.
* `Grammar.Accepts` — reading by an instruction leads from one point to another without an error.
* `Grammar.Enters`, `Grammar.Accepted` — the same for productions, with a bound on their nesting and
  without one.

## Main statements

* `Grammar.Reads.accepted` — reading that records no error is reading without complaint.
* `Grammar.Accepted.follows` — reading without complaint is reading.
-/

namespace RuleLang

/-! ## Points -/

structure Point where
  ahead : Ahead
  /-- The elements of the current group, the newest first. -/
  group : List Element

namespace Point

/-- The next `n` tokens are moved to the group. -/
def Takes (x : Point) (n : Nat) (y : Point) : Prop :=
  ∃ ts : List Token, ts.length = n ∧ x.ahead = ts ++ y.ahead ∧
    y.group = (ts.map Element.ofToken).reverse ++ x.group

theorem Takes.unique {x y z : Point} {n : Nat} (h : x.Takes n y) (k : x.Takes n z) : y = z := by
  obtain ⟨ts, hts, ha, hg⟩ := h
  obtain ⟨us, hus, hb, hk⟩ := k
  obtain ⟨rfl, hrest⟩ := List.append_inj (ha.symm.trans hb) (hts.trans hus.symm)
  obtain ⟨_, _⟩ := y
  obtain ⟨_, _⟩ := z
  simp_all

end Point

namespace Ahead

/-- How many tokens belong to the trivia that comes next. -/
def triviaLength (a : Ahead) : Nat :=
  (a.takeWhile Token.isTrivia).length

/-- How many tokens belong to the next `n` significant tokens and the trivia before each. -/
def bumpLength : Nat → Ahead → Nat
  | _, [] => 0
  | 0, _ => 0
  | n + 1, t :: ts =>
    if t.isTrivia then bumpLength (n + 1) ts + 1
    else if t.kind == .eof then 0
    else bumpLength n ts + 1

theorem triviaLength_le (a : Ahead) : a.triviaLength ≤ a.length :=
  (List.takeWhile_prefix _).length_le

theorem bumpLength_le (n : Nat) (a : Ahead) : bumpLength n a ≤ a.length := by
  induction a generalizing n with
  | nil => simp [bumpLength]
  | cons t ts ih =>
    cases n with
    | zero => simp [bumpLength]
    | succ n =>
      have := ih n
      have := ih (n + 1)
      simp only [bumpLength, List.length_cons]
      split
      · omega
      · split <;> omega

theorem bumpLength_eof {n : Nat} {t : Token} {ts : Ahead} (h : t.kind = .eof) :
    bumpLength n (t :: ts) = 0 := by
  cases n <;> simp [bumpLength, h, isTrivia_of_kind_eof h]

theorem bumpLength_of_isTrivia {t : Token} (h : t.isTrivia = true) (n : Nat) (ts : Ahead) :
    bumpLength (n + 1) (t :: ts) = bumpLength (n + 1) ts + 1 := by
  simp [bumpLength, h]

end Ahead

namespace Reading

def point (s : Reading) : Point :=
  ⟨s.ahead, s.group⟩

theorem takeTokens_succ (n : Nat) (s : Reading) :
    s.takeTokens (n + 1) = s.takeToken.takeTokens n := rfl

theorem takeToken_cons {t : Token} {ts : Ahead} {s : Reading} (h : s.ahead = t :: ts)
    (ht : t.kind ≠ .eof) :
    s.takeToken = { s with ahead := ts, group := .ofToken t :: s.group } := by
  have ht : (t.kind == .eof) = false := by simpa using ht
  simp [takeToken, h, ht]

theorem takeTrivia_cons {t : Token} {ts : Ahead} {s : Reading} (h : s.ahead = t :: ts)
    (ht : t.isTrivia = true) : s.takeTrivia = s.takeToken.takeTrivia := by
  have hne : t.kind ≠ .eof := fun he => by simp [Ahead.isTrivia_of_kind_eof he] at ht
  rw [takeToken_cons h hne]
  simp [takeTrivia, h, ht, takeTokens, takeToken_cons h hne]

theorem bumps_of_bump_eq {s : Reading} (h : s.bump = s) (n : Nat) : s.bumps n = s := by
  induction n with
  | zero => rfl
  | succ n ih => rw [bumps, h, ih]

/-- Taking significant tokens with their trivia is taking tokens one by one. -/
theorem bumps_eq_takeTokens (n : Nat) (s : Reading) :
    s.bumps n = s.takeTokens (Ahead.bumpLength n s.ahead) := by
  obtain ⟨a, ha⟩ : ∃ a, s.ahead = a := ⟨_, rfl⟩
  rw [ha]
  induction a generalizing n s with
  | nil =>
    rw [bumps_of_bump_eq (by simp [bump, takeTrivia, takeToken, takeTokens, ha])]
    simp [Ahead.bumpLength, takeTokens]
  | cons t ts ih =>
    cases n with
    | zero => simp [bumps, Ahead.bumpLength, takeTokens]
    | succ n =>
      by_cases ht : t.isTrivia = true
      · have hne : t.kind ≠ .eof := fun he => by simp [Ahead.isTrivia_of_kind_eof he] at ht
        have := ih (n + 1) s.takeToken (by rw [takeToken_cons ha hne])
        rw [bumps, bump] at this
        rw [bumps, bump, takeTrivia_cons ha ht, this, Ahead.bumpLength_of_isTrivia ht,
          takeTokens_succ]
      · have htrivia : s.takeTrivia = s := by simp [takeTrivia, ha, ht, takeTokens]
        by_cases he : t.kind = .eof
        · have hs : s.takeToken = s := by simp [takeToken, ha, he]
          rw [bumps_of_bump_eq (by rw [bump, htrivia, hs]), Ahead.bumpLength_eof he, takeTokens]
        · rw [bumps, bump, htrivia, ih n s.takeToken (by rw [takeToken_cons ha he])]
          simp [Ahead.bumpLength, ht, he, takeTokens_succ]

/-- Taking tokens, none of them `eof`, moves them to the group. -/
theorem takes_takeTokens {s : Reading} {n : Nat} (hn : n ≤ s.ahead.length)
    (h : ∀ t ∈ s.ahead.take n, t.kind ≠ .eof) : s.point.Takes n (s.takeTokens n).point := by
  have hl : (s.ahead.take n).length = n := by simpa using Nat.min_eq_left hn
  have := takeTokens_append (List.take_append_drop n s.ahead).symm h
  rw [hl] at this
  rw [this]
  exact ⟨s.ahead.take n, hl, (List.take_append_drop n s.ahead).symm, rfl⟩

theorem kind_ne_eof_of_isTrivia {t : Token} (h : t.isTrivia = true) : t.kind ≠ .eof :=
  fun he => by simp [Ahead.isTrivia_of_kind_eof he] at h

theorem takes_takeTrivia (s : Reading) :
    s.point.Takes s.ahead.triviaLength s.takeTrivia.point := by
  refine takes_takeTokens s.ahead.triviaLength_le fun t ht => ?_
  rw [Ahead.triviaLength, ← List.prefix_iff_eq_take.1 (List.takeWhile_prefix _)] at ht
  exact kind_ne_eof_of_isTrivia (List.mem_takeWhile_imp ht)

theorem takes_takeLineTrivia (s : Reading) :
    s.point.Takes (lineTriviaLength s.ahead) s.takeLineTrivia.point :=
  takes_takeTokens (lineTriviaLength_le _) fun _ ht =>
    kind_ne_eof_of_isTrivia (isTrivia_of_mem_lineTrivia ht)

theorem kind_ne_eof_of_mem_bump {n : Nat} {a : Ahead} {t : Token}
    (h : t ∈ a.take (a.bumpLength n)) : t.kind ≠ .eof := by
  induction a generalizing n with
  | nil => simp at h
  | cons u us ih =>
    cases n with
    | zero => simp [Ahead.bumpLength] at h
    | succ n =>
      simp only [Ahead.bumpLength] at h
      split at h
      · rename_i hu
        rcases List.mem_cons.1 (List.take_succ_cons ▸ h) with rfl | h
        · exact kind_ne_eof_of_isTrivia hu
        · exact ih h
      · split at h
        · simp at h
        · rename_i hu
          rcases List.mem_cons.1 (List.take_succ_cons ▸ h) with rfl | h
          · simpa using hu
          · exact ih h

theorem takes_bumps (n : Nat) (s : Reading) :
    s.point.Takes (s.ahead.bumpLength n) (s.bumps n).point := by
  rw [bumps_eq_takeTokens]
  exact takes_takeTokens (s.ahead.bumpLength_le n) fun _ => kind_ne_eof_of_mem_bump

end Reading

namespace Grammar

variable {P : Type} {rules : P → Grammar P}

/-! ## Acceptance -/

/-- Reading by an instruction leads from one point to another without an error, if `enters` tells the
same of productions. -/
def Accepts (enters : P → Point → Point → Prop) : Grammar P → Point → Point → Prop
  | skip, x, y => y = x
  | trivia, x, y => x.Takes x.ahead.triviaLength y
  | lineTrivia, x, y => x.Takes (Reading.lineTriviaLength x.ahead) y
  | take n, x, y => x.Takes (x.ahead.bumpLength n) y
  | seq first second, x, y => ∃ z, first.Accepts enters x z ∧ second.Accepts enters z y
  | look choose, x, y => (choose x.ahead).Accepts enters x y
  | ifRecovering _ no, x, y => no.Accepts enters x y
  | recovered, x, y => y = x
  | complain c, x, y => c.isWarning = true ∧ y = x
  | call p, x, y => enters p x y
  | group body, x, y =>
    ∃ z, body.Accepts enters ⟨x.ahead, []⟩ z ∧ y = ⟨z.ahead, z.group ++ x.group⟩
  | enclose kind body, x, y =>
    ∃ z, body.Accepts enters x z ∧ y = ⟨z.ahead, [.node kind z.group.reverse]⟩

/-- Reading by a production leads from one point to another without an error, with productions
nested at most `depth` deep. -/
def Enters (rules : P → Grammar P) : Nat → P → Point → Point → Prop
  | 0, _, _, _ => False
  | depth + 1, p, x, y => (rules p).Accepts (Enters rules depth) x y

/-- Reading by an instruction leads from one point to another without an error. -/
def Accepted (rules : P → Grammar P) (g : Grammar P) (x y : Point) : Prop :=
  ∃ depth, g.Accepts (Enters rules depth) x y

theorem Accepts.mono {enters enters' : P → Point → Point → Prop}
    (h : ∀ p x y, enters p x y → enters' p x y) {g : Grammar P} {x y : Point}
    (hg : g.Accepts enters x y) : g.Accepts enters' x y := by
  induction g generalizing x y with
  | skip | trivia | lineTrivia | take | recovered | complain => exact hg
  | seq f g ihf ihg =>
    obtain ⟨z, hf, hg⟩ := hg
    exact ⟨z, ihf hf, ihg hg⟩
  | look choose ih => exact ih _ hg
  | ifRecovering _ no _ ih => exact ih hg
  | call p => exact h p x y hg
  | group body ih | enclose kind body ih =>
    obtain ⟨z, hz, hy⟩ := hg
    exact ⟨z, ih hz, hy⟩

theorem Enters.mono {depth depth' : Nat} (hd : depth ≤ depth') {p : P} {x y : Point}
    (h : Enters rules depth p x y) : Enters rules depth' p x y := by
  induction depth generalizing depth' p x y with
  | zero => exact h.elim
  | succ depth ih =>
    obtain ⟨d, rfl⟩ := Nat.exists_eq_succ_of_ne_zero (n := depth') (by omega)
    exact Accepts.mono (fun _ _ _ => ih (by omega)) h

namespace Accepted

theorem seq {f g : Grammar P} {x y z : Point} (hf : Accepted rules f x z)
    (hg : Accepted rules g z y) : Accepted rules (.seq f g) x y := by
  obtain ⟨d, hf⟩ := hf
  obtain ⟨e, hg⟩ := hg
  exact ⟨max d e, z, hf.mono fun _ _ _ => Enters.mono (Nat.le_max_left d e),
    hg.mono fun _ _ _ => Enters.mono (Nat.le_max_right d e)⟩

theorem call {p : P} {x y : Point} (h : Accepted rules (rules p) x y) :
    Accepted rules (.call p) x y := by
  obtain ⟨d, h⟩ := h
  exact ⟨d + 1, h⟩

theorem group {body : Grammar P} {x y : Point} (h : Accepted rules body ⟨x.ahead, []⟩ y) :
    Accepted rules (.group body) x ⟨y.ahead, y.group ++ x.group⟩ := by
  obtain ⟨d, h⟩ := h
  exact ⟨d, y, h, rfl⟩

theorem enclose {kind : Kind} {body : Grammar P} {x y : Point} (h : Accepted rules body x y) :
    Accepted rules (.enclose kind body) x ⟨y.ahead, [.node kind y.group.reverse]⟩ := by
  obtain ⟨d, h⟩ := h
  exact ⟨d, y, h, rfl⟩

end Accepted

/-! ## Acceptance and reading -/

/-- No error is recorded. -/
def NoErrors (s : Reading) : Prop :=
  ∀ e ∈ s.errors, e.isWarning = true

/-- In step, with room for any number of errors. -/
structure InStep (s : Reading) : Prop where
  recovering : s.recovering = false
  limit : s.limit = none

theorem errors_takeTokens (n : Nat) (s : Reading) : (s.takeTokens n).errors = s.errors := by
  induction n generalizing s with
  | zero => rfl
  | succ n ih =>
    rw [Reading.takeTokens_succ, ih, Reading.takeToken]
    split
    · split <;> rfl
    · rfl

theorem inStep_takeTokens (n : Nat) {s : Reading} (h : InStep s) : InStep (s.takeTokens n) := by
  induction n generalizing s with
  | zero => exact h
  | succ n ih =>
    refine ih ?_
    rw [Reading.takeToken]
    split
    · split
      · exact h
      · exact ⟨h.recovering, h.limit⟩
    · exact h

theorem complain_of_inStep {s : Reading} (h : InStep s) (c : Complaint) :
    s.complain c = { s with
      errors := ⟨c, s.ahead.span⟩ :: s.errors
      recovering := !c.isWarning } := by
  obtain ⟨_, _, _, _, _, _⟩ := s
  obtain ⟨hr, hl⟩ := h
  simp only at hr hl
  subst hr hl
  cases hc : c.isWarning <;> simp [Reading.complain, Reading.hasRoom, hc]

/-- Errors are not taken back. -/
theorem Reads.errors_subset {g : Grammar P} {s t : Reading} (h : Reads rules g s t) :
    s.errors ⊆ t.errors := by
  induction h with
  | skip | recovered => exact List.Subset.refl _
  | trivia s => rw [Reading.takeTrivia, errors_takeTokens]; exact List.Subset.refl _
  | lineTrivia s => rw [Reading.takeLineTrivia, errors_takeTokens]; exact List.Subset.refl _
  | take n s => rw [Reading.bumps_eq_takeTokens, errors_takeTokens]; exact List.Subset.refl _
  | seq _ _ ihf ihg => exact fun _ he => ihg (ihf he)
  | look _ ih | ifRecovering _ ih | call _ ih | group _ ih | enclose _ ih => exact ih
  | complain c s =>
    intro e he
    unfold Reading.complain
    dsimp only
    split <;> split <;> (try split) <;> simp [he]

/-- Reading that records no error is reading without complaint. -/
theorem Reads.accepted {g : Grammar P} {s t : Reading} (h : Reads rules g s t) (hs : InStep s)
    (ht : NoErrors t) : InStep t ∧ Accepted rules g s.point t.point := by
  induction h with
  | skip s => exact ⟨hs, 0, rfl⟩
  | trivia s => exact ⟨inStep_takeTokens _ hs, 0, s.takes_takeTrivia⟩
  | lineTrivia s => exact ⟨inStep_takeTokens _ hs, 0, s.takes_takeLineTrivia⟩
  | take n s =>
    rw [Reading.bumps_eq_takeTokens]
    refine ⟨inStep_takeTokens _ hs, 0, ?_⟩
    rw [← Reading.bumps_eq_takeTokens]
    exact s.takes_bumps n
  | seq hf hg ihf ihg =>
    obtain ⟨hu, hf⟩ := ihf hs fun e he => ht e (hg.errors_subset he)
    obtain ⟨ht, hg⟩ := ihg hu ht
    exact ⟨ht, hf.seq hg⟩
  | look _ ih => exact ih hs ht
  | ifRecovering _ ih =>
    obtain ⟨ht, d, h⟩ := ih hs ht
    rw [if_neg (by simp [hs.recovering])] at h
    exact ⟨ht, d, h⟩
  | recovered s => exact ⟨⟨rfl, hs.limit⟩, 0, rfl⟩
  | complain c s =>
    have he := complain_of_inStep hs c
    have hc : c.isWarning = true := ht ⟨c, s.ahead.span⟩ (by simp [he])
    exact ⟨⟨by simp [he, hc], by simp [he, hs.limit]⟩, 0, hc, by simp [he, Reading.point]⟩
  | call _ ih =>
    obtain ⟨ht, h⟩ := ih ⟨hs.recovering, hs.limit⟩ ht
    exact ⟨ht, h.call⟩
  | @group _ s t _ ih =>
    obtain ⟨ht, h⟩ := ih ⟨hs.recovering, hs.limit⟩ ht
    exact ⟨⟨ht.recovering, ht.limit⟩, Accepted.group (x := s.point) (y := t.point) h⟩
  | @enclose _ _ s t _ ih =>
    obtain ⟨ht, h⟩ := ih hs ht
    exact ⟨⟨ht.recovering, ht.limit⟩, Accepted.enclose (x := s.point) (y := t.point) h⟩

/-- What reading without complaint does to a state in step. -/
structure Follows (g : Grammar P) (rules : P → Grammar P) (s : Reading) (y : Point)
    (t : Reading) : Prop where
  reads : Reads rules g s t
  point : t.point = y
  inStep : InStep t
  noErrors : NoErrors s → NoErrors t

theorem follows_takeTokens {g : Grammar P} {s : Reading} {y : Point} {n : Nat}
    (hr : Reads rules g s (s.takeTokens n)) (hs : InStep s)
    (ht : s.point.Takes n (s.takeTokens n).point) (hy : s.point.Takes n y) :
    Follows g rules s y (s.takeTokens n) where
  reads := hr
  point := ht.unique hy
  inStep := inStep_takeTokens n hs
  noErrors h := by rwa [NoErrors, errors_takeTokens]

theorem Accepts.follows {enters : P → Point → Point → Prop}
    (h : ∀ p s y, InStep s → enters p s.point y → ∃ t, Follows (.call p) rules s y t)
    {g : Grammar P} {s : Reading} {y : Point} (hs : InStep s)
    (hg : g.Accepts enters s.point y) : ∃ t, Follows g rules s y t := by
  induction g generalizing s y with
  | skip => exact ⟨s, .skip s, hg.symm, hs, id⟩
  | trivia => exact ⟨_, follows_takeTokens (.trivia s) hs s.takes_takeTrivia hg⟩
  | lineTrivia => exact ⟨_, follows_takeTokens (.lineTrivia s) hs s.takes_takeLineTrivia hg⟩
  | take n =>
    have hr : Reads rules (.take n) s (s.bumps n) := .take n s
    have ht := s.takes_bumps n
    rw [Reading.bumps_eq_takeTokens] at hr ht
    exact ⟨_, follows_takeTokens hr hs ht hg⟩
  | seq f g ihf ihg =>
    obtain ⟨z, hf, hg⟩ := hg
    obtain ⟨u, hu⟩ := ihf hs hf
    obtain ⟨t, ht⟩ := ihg hu.inStep (hu.point ▸ hg)
    exact ⟨t, .seq hu.reads ht.reads, ht.point, ht.inStep, ht.noErrors ∘ hu.noErrors⟩
  | look choose ih =>
    obtain ⟨t, ht⟩ := ih s.ahead hs hg
    exact ⟨t, .look ht.reads, ht.point, ht.inStep, ht.noErrors⟩
  | ifRecovering yes no _ ih =>
    obtain ⟨t, ht⟩ := ih hs hg
    exact ⟨t, .ifRecovering (by simpa [hs.recovering] using ht.reads), ht.point, ht.inStep,
      ht.noErrors⟩
  | recovered => exact ⟨_, .recovered s, hg.symm, ⟨rfl, hs.limit⟩, id⟩
  | complain c =>
    obtain ⟨hc, hy⟩ := hg
    have he := complain_of_inStep hs c
    refine ⟨_, .complain c s, ?_, ⟨by simp [he, hc], by simp [he, hs.limit]⟩, fun hn e hm => ?_⟩
    · simp [he, hy, Reading.point]
    · rw [he] at hm
      rcases List.mem_cons.1 hm with rfl | hm
      · exact hc
      · exact hn e hm
  | call p => exact h p s y hs hg
  | group body ih =>
    obtain ⟨z, hz, hy⟩ := hg
    obtain ⟨t, ht⟩ := ih (s := { s with group := [] }) ⟨hs.recovering, hs.limit⟩ hz
    refine ⟨_, .group ht.reads, ?_, ⟨ht.inStep.recovering, ht.inStep.limit⟩, ht.noErrors⟩
    rw [hy, ← ht.point]
    rfl
  | enclose kind body ih =>
    obtain ⟨z, hz, hy⟩ := hg
    obtain ⟨t, ht⟩ := ih hs hz
    refine ⟨_, .enclose ht.reads, ?_, ⟨ht.inStep.recovering, ht.inStep.limit⟩, ht.noErrors⟩
    rw [hy, ← ht.point]
    rfl

/-- Reading without complaint is reading. -/
theorem Accepted.follows {g : Grammar P} {s : Reading} {y : Point} (hs : InStep s)
    (h : Accepted rules g s.point y) : ∃ t, Follows g rules s y t := by
  obtain ⟨depth, h⟩ := h
  refine h.follows ?_ hs
  clear h
  induction depth with
  | zero => exact fun _ _ _ _ hp => hp.elim
  | succ depth ih =>
    intro p s y hs hp
    obtain ⟨t, ht⟩ := Accepts.follows (s := { s with entered := s.entered + 1 }) ih
      ⟨hs.recovering, hs.limit⟩ hp
    exact ⟨t, .call ht.reads, ht.point, ht.inStep, ht.noErrors⟩

end Grammar

end RuleLang
