import Mathlib.Data.List.DropRight
import RuleLang.Proofs.Element.Spacing
import RuleLang.Proofs.Grammar.Nesting
import RuleLang.Proofs.Grammar.Reads

/-!
# Reading and empty nodes

Reading makes an empty node only where a token was just taken: a constraint, a parameter or an
action that is missing after the token that promises it. All other nodes hold a token.

## Main definitions

* `Reading.Spaced` — the group has empty nodes only right after tokens with text.
* `Edge`, `Reading.At` — what is known of the end of the group.
* `Grammar.Spaces` — reading by an instruction keeps a group spaced.

## Main statements

* `Grammar.Spaces.seq`, `Grammar.Spaces.enclose`, … — `Spaces` is closed under the instructions.
* `Grammar.Reads.takes` — reading takes as many tokens as `Ends` tells.
-/

namespace RuleLang

open Grammar Production Element

/-! ## Groups -/

/-- Every token but `eof` has text. -/
def Ahead.HasText (a : Ahead) : Prop :=
  ∀ t ∈ a, t.kind ≠ .eof → t.text ≠ []

namespace Ahead

theorem afterTrivia_afterTrivia (a : Ahead) : a.afterTrivia.afterTrivia = a.afterTrivia :=
  List.dropWhile_idempotent _ _

/-- Nothing is counted at the end of the input. -/
theorem countUntil_eq_zero {stops : Kind → Bool} {a : Ahead} (hs : stops .eof = true)
    (h : a.current = .eof) : a.countUntil stops = 0 := by
  induction a with
  | nil => rfl
  | cons t ts ih =>
    simp only [current, nth, nthToken?] at h ih
    simp only [countUntil]
    split
    · rename_i ht
      exact ih (by simpa [ht] using h)
    · rename_i ht
      simp only [ht, Bool.false_eq_true, if_false, Option.map_some, Option.getD_some] at h
      simp [h, hs]

theorem beforeCloseParen_eq_none {depth : Nat} {a : Ahead} (h : a.current = .eof) :
    a.beforeCloseParen depth = none := by
  induction a with
  | nil => rfl
  | cons t ts ih =>
    simp only [current, nth, nthToken?] at h ih
    simp only [beforeCloseParen]
    split
    · rename_i ht
      exact ih (by simpa [ht] using h)
    · rename_i ht
      simp only [ht, Bool.false_eq_true, if_false, Option.map_some, Option.getD_some] at h
      simp [h]

end Ahead

/-- What is known of the end of a group. -/
inductive Edge where
  | any
  /-- The group has a leaf. -/
  | filled
  /-- The newest element is a token with text. -/
  | solid

namespace Reading

variable {s t : Reading}

/-- The group has empty nodes only right after tokens with text, and so has what is still read. -/
structure Spaced (s : Reading) : Prop where
  text : s.ahead.HasText
  group : SpacedAll false s.group.reverse

/-- What is known of the end of the group. -/
def At (s : Reading) : Edge → Prop
  | .any => True
  | .filled => leavesOf s.group.reverse ≠ []
  | .solid => s.group.head?.any isSolid = true

theorem endsSolid_reverse (group : List Element) :
    endsSolid false group.reverse = group.head?.any isSolid := by
  cases group <;> simp [endsSolid]

theorem At.filled (h : s.At .solid) : s.At .filled := by
  obtain ⟨ahead, group, errors, recovering, limit, entered⟩ := s
  cases group with
  | nil => simp [At] at h
  | cons e es =>
    cases e with
    | token k t => simp [At]
    | node k cs => simp [At, isSolid] at h

/-- What is filled stays filled. -/
theorem At.filled_of_keeps (h : s.At .filled) (k : s.Keeps t) : t.At .filled := by
  obtain ⟨taken, -, -, hleaves⟩ := k
  intro he
  rw [he] at hleaves
  exact h (List.append_eq_nil_iff.1 hleaves.symm).1

/-- What was taken fills the group. -/
theorem filled_of_length_lt (k : s.Keeps t) (h : t.ahead.length < s.ahead.length) :
    t.At .filled := by
  obtain ⟨taken, ha, -, hleaves⟩ := k
  intro he
  rw [he] at hleaves
  have htaken : taken = [] := by simpa using (List.append_eq_nil_iff.1 hleaves.symm).2
  simp [ha, htaken] at h

theorem Spaced.hasText_of_keeps (h : s.Spaced) (k : s.Keeps t) : t.ahead.HasText := by
  obtain ⟨taken, ha, -, -⟩ := k
  intro x hx
  exact h.text x (by rw [ha]; exact List.mem_append_right _ hx)

/-! ## Taking tokens -/

theorem Spaced.takeToken (h : s.Spaced) : s.takeToken.Spaced := by
  refine ⟨h.hasText_of_keeps s.keeps_takeToken, ?_⟩
  unfold Reading.takeToken
  split
  · split
    · exact h.group
    · simpa [spacedAll_append, Element.ofToken, isHollow] using h.group
  · exact h.group

theorem Spaced.takeTokens (n : Nat) (h : s.Spaced) : (s.takeTokens n).Spaced := by
  induction n generalizing s with
  | zero => exact h
  | succ n ih => exact ih h.takeToken

theorem Spaced.bumps (n : Nat) (h : s.Spaced) : (s.bumps n).Spaced := by
  induction n generalizing s with
  | zero => exact h
  | succ n ih => exact ih (h.takeTokens _).takeToken

/-- A token that is taken has text. -/
theorem Spaced.solid_takeToken (h : s.Spaced) (hs : s.At .solid ∨ ∃ t ts, s.ahead = t :: ts ∧ t.kind ≠ .eof) :
    s.takeToken.At .solid := by
  unfold Reading.takeToken
  split
  · rename_i t ts ha
    split
    · rename_i ht
      rcases hs with hs | ⟨u, us, hu, hne⟩
      · exact hs
      · obtain ⟨rfl, -⟩ := List.cons.inj (ha.symm.trans hu)
        exact absurd (beq_iff_eq.1 ht) hne
    · rename_i ht
      have := h.text t (by simp [ha]) (by simpa using ht)
      simpa [At, Element.ofToken, isSolid] using this
  · rename_i ha
    rcases hs with hs | ⟨u, us, hu, -⟩
    · exact hs
    · simp [ha] at hu

theorem Spaced.solid_takeTokens (n : Nat) (h : s.Spaced) (hs : s.At .solid) :
    (s.takeTokens n).At .solid := by
  induction n generalizing s with
  | zero => exact hs
  | succ n ih => exact ih h.takeToken (h.solid_takeToken (.inl hs))

theorem Spaced.solid_bumps (n : Nat) (h : s.Spaced) (hs : s.At .solid) :
    (s.bumps n).At .solid := by
  induction n generalizing s with
  | zero => exact hs
  | succ n ih =>
    have htrivia : s.takeTrivia.At .solid := h.solid_takeTokens _ hs
    exact ih (h.takeTokens _).takeToken ((h.takeTokens _).solid_takeToken (.inl htrivia))

theorem Spaced.solid_bumps_of_pos {n : Nat} (hn : 0 < n) (h : s.Spaced)
    (hc : s.ahead.current ≠ .eof) : (s.bumps n).At .solid := by
  obtain ⟨n, rfl⟩ := Nat.exists_eq_add_of_lt hn
  obtain ⟨t, ts, ha, hk, -⟩ := Ahead.afterTrivia_eq_cons hc
  have hbump : s.bump.At .solid :=
    (h.takeTokens _).solid_takeToken (.inr ⟨t, ts, by rw [← ha]; exact s.ahead_takeTrivia, by rwa [hk]⟩)
  rw [Nat.zero_add]
  exact (h.takeTokens _).takeToken.solid_bumps n hbump

end Reading

/-! ## Entering productions -/

/-- Productions that may make an empty node keep a group spaced right after a token. -/
def Production.edge : Production → Edge
  | .compilationUnit | .constraint | .constraints | .parameter | .parameters => .solid
  | _ => .any

/-- Productions that are entered only where they take a token. -/
def Production.guarded (p : Production) : Bool :=
  p.opens || p == .attributeList

/-- Where a guarded production is entered. -/
def Production.leads (p : Production) (a : Ahead) : Bool :=
  match p with
  | .attributeList => a.current.isAttributeKeyword || a.isAt .ident
  | p => p.starts a

/-- Productions that keep a group spaced when they are entered. -/
structure Spacing (enter : Production → Reading → Option Reading) : Prop where
  reads {p : Production} {s t : Reading} : enter p s = some t → Reads body (.call p) s t
  spaced {p : Production} {s t : Reading} : enter p s = some t →
    (p.guarded = true → p.leads s.ahead = true) → s.At p.edge → s.Spaced → t.Spaced

namespace Grammar

variable {m k : Nat} {e : Edge} {f g body otherwise : Rule} {a : Ahead}

/-- Reading takes as many tokens as are known to be taken. -/
theorem Reads.takes {s t : Reading} (h : Reads Production.body g s t)
    (hg : Ends ranking m k g s.ahead) : t.ahead.length + k ≤ s.ahead.length := by
  have hspec (p : Production) (Q : Condition) (s' : Reading)
      (hs : ranking.spec (64 * s.ahead.length + m) p Q s'.ahead s'.recovering) :
      ∃ t, enter Production.body (64 * s.ahead.length + m) p s' = some t ∧
        Q t.ahead t.recovering := by
    obtain ⟨hlt, hready, hQ⟩ := hs
    obtain ⟨t, ht, hafter⟩ := ranking.exists_enter obeyed hready hlt
    exact ⟨t, ht, hQ _ _ hafter⟩
  obtain ⟨u, hu, hlength⟩ := run_of_wp hspec
    (hg (64 * s.ahead.length + m) s.ahead.length s.recovering (Nat.le_refl _) (Nat.le_refl _))
  rw [h.unique (reads_of_run (fun _ _ _ => reads_of_enter) hu)]
  exact hlength

/-- From some tokens ahead reading by an instruction takes a token. -/
def Takes (g : Rule) (a : Ahead) : Prop :=
  ∀ s t, s.ahead = a → Reads Production.body g s t → t.ahead.length < s.ahead.length

theorem Takes.of_ends (h : Ends ranking m 1 g a) : Takes g a := by
  rintro s t rfl hr
  exact hr.takes h

theorem Takes.call {p : Production} (h : Takes p.body a) : Takes (.call p) a := by
  rintro s t rfl hr
  cases hr with
  | call hr => exact h { s with entered := s.entered + 1 } t rfl hr

/-- From some tokens ahead reading by an instruction keeps a group spaced. -/
def Spaces (e : Edge) (g : Rule) (a : Ahead) : Prop :=
  ∀ enter, Spacing enter → ∀ s t, s.ahead = a → s.At e → s.Spaced → g.run enter s = some t →
    t.Spaced

namespace Spaces

theorem mono (h : Spaces .any g a) : Spaces e g a :=
  fun enter henter s t ha _ => h enter henter s t ha trivial

theorem of_filled (h : Spaces .filled g a) : Spaces .solid g a :=
  fun enter henter s t ha he => h enter henter s t ha he.filled

theorem skip : Spaces e .skip a := by
  intro enter henter s t ha he hs h
  cases h
  exact hs

theorem complain {c : Complaint} : Spaces e (.complain c) a := by
  intro enter henter s t ha he hs h
  cases h
  exact ⟨by rw [Reading.ahead_complain]; exact hs.text, by rw [Reading.group_complain]; exact hs.group⟩

theorem recovered : Spaces e .recovered a := by
  intro enter henter s t ha he hs h
  cases h
  exact ⟨hs.text, hs.group⟩

theorem lineTrivia : Spaces e .lineTrivia a := by
  intro enter henter s t ha he hs h
  cases h
  exact hs.takeTokens _

theorem trivia : Spaces e .trivia a := by
  intro enter henter s t ha he hs h
  cases h
  exact hs.takeTokens _

theorem take {n : Nat} : Spaces e (.take n) a := by
  intro enter henter s t ha he hs h
  cases h
  exact hs.bumps n

theorem look {choose : Ahead → Rule} (h : Spaces e (choose a) a) : Spaces e (.look choose) a := by
  rintro enter henter s t rfl
  exact h enter henter s t rfl

theorem ifRecovering (hf : Spaces e f a) (hg : Spaces e g a) : Spaces e (.ifRecovering f g) a := by
  intro enter henter s t ha he hs h
  simp only [run] at h
  split at h
  · exact hf enter henter s t ha he hs h
  · exact hg enter henter s t ha he hs h

theorem call {p : Production} (hp : p.guarded = true → p.leads a = true) (he : p.edge = e) :
    Spaces e (.call p) a := by
  rintro enter henter s t rfl hs
  exact fun hspaced h => henter.spaced h hp (he ▸ hs) hspaced

theorem run_seq {enter : Production → Reading → Option Reading} {s t : Reading}
    (h : (f >> g : Rule).run enter s = some t) :
    ∃ u, f.run enter s = some u ∧ g.run enter u = some t := by
  change (Grammar.seq f g).run enter s = some t at h
  rw [Grammar.run] at h
  cases hu : f.run enter s with
  | none => simp [hu] at h
  | some u => exact ⟨u, rfl, by simpa [hu] using h⟩

theorem seq (hf : Spaces e f a) (hg : ∀ b, Spaces .any g b) : Spaces e (f >> g) a := by
  intro enter henter s t ha he hs h
  obtain ⟨u, hu, ht⟩ := run_seq h
  exact hg u.ahead enter henter u t rfl trivial (hf enter henter s u ha he hs hu) ht

/-- What is filled stays filled. -/
theorem seq_filled (hf : Spaces .filled f a) (hg : ∀ b, Spaces .filled g b) :
    Spaces .filled (f >> g) a := by
  intro enter henter s t ha he hs h
  obtain ⟨u, hu, ht⟩ := run_seq h
  have hu' := he.filled_of_keeps (reads_of_run (fun _ _ _ => henter.reads) hu).keeps
  exact hg u.ahead enter henter u t rfl hu' (hf enter henter s u ha he hs hu) ht

/-- What takes a token fills the group. -/
theorem fill_seq (hf : Spaces e f a) (hm : Ends ranking m 1 f a) (hg : ∀ b, Spaces .filled g b) :
    Spaces e (f >> g) a := by
  rintro enter henter s t rfl he hs h
  obtain ⟨u, hu, ht⟩ := run_seq h
  have hr := reads_of_run (fun _ _ _ => henter.reads) hu
  have hu' := Reading.filled_of_length_lt hr.keeps (hr.takes hm)
  exact hg u.ahead enter henter u t rfl hu' (hf enter henter s u rfl he hs hu) ht

theorem take_seq {n : Nat} (hn : 0 < n) (hc : a.current ≠ .eof) (hg : ∀ b, Spaces .solid g b) :
    Spaces e (.take n >> g) a := by
  rintro enter henter s t rfl he hs h
  obtain ⟨u, hu, ht⟩ := run_seq h
  cases hu
  exact hg _ enter henter _ t rfl (hs.solid_bumps_of_pos hn hc) (hs.bumps n) ht

theorem bump_seq (hc : a.current ≠ .eof) (hg : ∀ b, Spaces .solid g b) :
    Spaces e (.bump >> g) a :=
  take_seq Nat.one_pos hc hg

/-- Trivia that is taken is a token with text. -/
theorem trivia_seq (hg : Spaces e g a.afterTrivia) : Spaces e (.trivia >> g) a := by
  rintro enter henter s t rfl he hs h
  obtain ⟨u, hu, ht⟩ := run_seq h
  cases hu
  refine hg enter henter _ t s.ahead_takeTrivia ?_ (hs.takeTokens _) ht
  cases e with
  | any => trivial
  | filled => exact he.filled_of_keeps (Reading.keeps_takeTokens _ s)
  | solid => exact hs.solid_takeTokens _ he

/-! ## Groups and nodes -/

/-- A group of its own starts with no empty node. -/
theorem group (h : Spaces .any body a) : Spaces e (.group body) a := by
  rintro enter henter s t rfl he hs hrun
  simp only [run] at hrun
  split at hrun
  · rename_i u hu
    cases hrun
    have hu' := h enter henter { s with group := [] } u rfl trivial ⟨hs.text, spacedAll_nil _⟩ hu
    refine ⟨hu'.text, ?_⟩
    rw [List.reverse_append, spacedAll_append]
    exact ⟨hs.group, hu'.group.of_false _⟩
  · cases hrun

/-- A node that holds a leaf. -/
theorem enclose {kind : Kind} (h : Spaces .filled body a) :
    Spaces .filled (.enclose kind body) a := by
  rintro enter henter s t rfl he hs hrun
  simp only [run] at hrun
  split at hrun
  · rename_i u hu
    cases hrun
    have hu' := h enter henter s u rfl he hs hu
    have hfilled := he.filled_of_keeps (reads_of_run (fun _ _ _ => henter.reads) hu).keeps
    refine ⟨hu'.text, ?_⟩
    have hne : u.group ≠ [] := by
      intro hn
      simp [Reading.At, hn] at hfilled
    simpa [isHollow, hne] using hu'.group
  · cases hrun

/-- A node that takes a token. -/
theorem enclose_of_takes {kind : Kind} (h : Spaces e body a) (hm : Takes body a) :
    Spaces e (.enclose kind body) a := by
  rintro enter henter s t rfl he hs hrun
  simp only [run] at hrun
  split at hrun
  · rename_i u hu
    cases hrun
    have hu' := h enter henter s u rfl he hs hu
    have hr := reads_of_run (fun _ _ _ => henter.reads) hu
    have hfilled := Reading.filled_of_length_lt hr.keeps (hm s u rfl hr)
    refine ⟨hu'.text, ?_⟩
    have hne : u.group ≠ [] := by
      intro hn
      simp [Reading.At, hn] at hfilled
    simpa [isHollow, hne] using hu'.group
  · cases hrun

theorem enclose_fill {kind : Kind} (h : Spaces e body a) (hm : Ends ranking m 1 body a) :
    Spaces e (.enclose kind body) a :=
  enclose_of_takes h (Takes.of_ends hm)

theorem node {kind : Kind} (h : Spaces .any body a) (hm : Ends ranking m 1 body a) :
    Spaces e (.node kind body) a :=
  group (enclose_fill h hm)

/-- A node of whatever stands there, right after a token. -/
theorem node_solid {kind : Kind} (h : Spaces .any body a) : Spaces .solid (.node kind body) a := by
  rintro enter henter s t rfl he hs hrun
  simp only [Grammar.node, run] at hrun
  split at hrun
  · rename_i v hv
    cases hrun
    split at hv
    · rename_i u hu
      cases hv
      have hu' := h enter henter { s with group := [] } u rfl trivial ⟨hs.text, spacedAll_nil _⟩ hu
      refine ⟨hu'.text, ?_⟩
      have hends : endsSolid false s.group.reverse = true := by
        rw [Reading.endsSolid_reverse]
        exact he
      simpa [spacedAll_append, hends, hs.group] using hu'.group
    · cases hv
  · cases hrun

theorem inner {kind : Kind} (h : Spaces .any body a.afterTrivia)
    (hm : Ends ranking m 1 (.inner kind body) a.afterTrivia) : Spaces e (.inner kind body) a := by
  refine trivia_seq (node (m := m) h ?_)
  intro depth n r ha hd
  have := hm depth n r ha hd
  change body.wp _ _ a.afterTrivia.afterTrivia r at this
  rwa [Ahead.afterTrivia_afterTrivia] at this

theorem inner_solid {kind : Kind} (h : Spaces .any body a.afterTrivia) :
    Spaces .solid (.inner kind body) a :=
  trivia_seq (node_solid h)

theorem innerGroup (h : Spaces .any body a.afterTrivia) : Spaces e (.innerGroup body) a :=
  trivia_seq (group h)

/-! ## Derived instructions -/

theorem when {test : Ahead → Bool} (hb : test a = true → Spaces e body a)
    (ho : test a = false → Spaces e otherwise a) : Spaces e (.when test body otherwise) a := by
  refine look ?_
  split
  · exact hb ‹_›
  · exact ho (Bool.eq_false_iff.2 ‹_›)

theorem whenAt {c : Kind} (hb : a.current = c → Spaces e body a)
    (ho : Spaces e otherwise a) : Spaces e (.whenAt c body otherwise) a :=
  when (fun h => hb (beq_iff_eq.1 h)) fun _ => ho

theorem fail {c : Kind → Complaint} : Spaces e (.fail c) a := look complain

theorem eat {c : Kind} (hc : (c == .eof) = false) (hb : ∀ b, Spaces .solid body b)
    (ho : Spaces e otherwise a) : Spaces e (.eat c body otherwise) a :=
  whenAt (fun h => bump_seq (Ahead.current_ne_eof h hc) hb) ho

theorem eat_skip {c : Kind} (hc : (c == .eof) = false) : Spaces e (.eat c) a :=
  eat hc (fun _ => skip) skip

theorem expect {c : Kind} (hc : (c == .eof) = false) (hb : ∀ b, Spaces .solid body b) :
    Spaces e (.expect c body) a :=
  eat hc hb fail

theorem expect_skip {c : Kind} (hc : (c == .eof) = false) : Spaces e (.expect c) a :=
  expect hc fun _ => skip

theorem expectName {role : Role} : Spaces e (.expectName role) a :=
  when (fun _ => take) fun _ => fail

theorem balanced : Spaces e .balanced a := by
  refine look (seq take fun _ => ?_)
  split
  · exact skip
  · exact complain

theorem untilClose {c : Kind} : Spaces e (.untilClose c) a := look take

/-- A node of a token of any kind but `eof`. -/
theorem inner_bump {kind : Kind} (hc : a.current ≠ .eof) (hb : ∀ b, Spaces .any body b)
    (hm : ∀ b, Ends ranking (m + 64) 0 body b) : Spaces e (.inner kind (.bump >> body)) a := by
  have hc' : a.afterTrivia.current ≠ .eof := by simpa using hc
  exact trivia_seq (node (m := m) (bump_seq hc' fun b => (hb b).mono) (.bump_seq hc' hm))

theorem inner_take {kind : Kind} {n : Nat} (hn : 0 < n) (hc : a.current ≠ .eof) :
    Spaces e (.inner kind (.take n)) a :=
  trivia_seq (node (m := 0) take (.take_one hn (by simpa using hc)))

/-- Tokens that are counted as far as the end of the input. -/
theorem wrapError {n : Nat} (h : 0 < n → a.current ≠ .eof) : Spaces e (.wrapError n) a := by
  unfold Grammar.wrapError
  split
  · exact skip
  · rename_i hn
    exact inner_take (Nat.pos_of_ne_zero hn) (h (Nat.pos_of_ne_zero hn))

theorem recoverTo {stops : List Kind} : Spaces e (.recoverTo stops) a := by
  refine seq (look (wrapError fun hn he => ?_)) fun _ => when (fun _ => recovered) fun _ => skip
  rw [Ahead.countUntil_eq_zero (by simp) he] at hn
  exact absurd hn (Nat.lt_irrefl 0)

theorem recoverInParens : Spaces e .recoverInParens a := by
  refine ifRecovering (look ?_) skip
  split
  · rename_i n hn
    refine seq (wrapError fun hpos he => ?_) fun _ => recovered
    rw [Ahead.beforeCloseParen_eq_none he] at hn
    cases hn
  · exact skip

/-! ## Entering productions -/

theorem call_any {p : Production} (ho : p.guarded = false) (he : p.edge = .any) :
    Spaces e (.call p) a :=
  mono (call (fun h => by simp [ho] at h) he)

theorem leads_of_opens {p : Production} (ho : (p.opens && p != .pattern) = true)
    (hc : a.current ≠ .eof) : p.leads a = true := by
  have hs := starts_of_opens ho hc
  unfold leads
  split
  · cases ho
  · exact hs

/-- Right after a token any production may be entered. -/
theorem call_solid {p : Production} (ho : p.guarded = false) (he : p.edge = .solid) :
    Spaces .solid (.call p) a :=
  call (fun h => by simp [ho] at h) he

theorem call_open {p : Production} (ho : (p.opens && p != .pattern) = true) (he : p.edge = .any)
    (hc : a.current ≠ .eof) : Spaces e (.call p) a :=
  mono (call (fun _ => leads_of_opens ho hc) he)

theorem whenAt_open {p : Production} {c : Kind} (ho : (p.opens && p != .pattern) = true)
    (he : p.edge = .any) (hc : (c == .eof) = false) : Spaces e (.whenAt c (.call p)) a :=
  whenAt (fun h => call_open ho he (Ahead.current_ne_eof h hc)) skip

end Spaces

end Grammar

end RuleLang
