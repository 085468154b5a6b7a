import RuleLang.Proofs.Element.Everywhere
import RuleLang.Proofs.Grammar.Agree
import RuleLang.Proofs.Grammar.Capped
import RuleLang.Proofs.Grammar.Spacing
import RuleLang.Proofs.Lexer.Coverage

/-!
# Reading out of step

While reading is out of step, an error was recorded for the declaration that is being read, no later
than at the current token. Error nodes are made only then, of the tokens that come next, so each of
them has such an error, and none of them reaches into the next declaration.

## Main definitions

* `PassedOver` — the children of an error node.
* `Reported` — an error is recorded in a range of offsets.
* `Reading.Mended` — all error nodes of the group have their error, and being out of step has one.
* `Grammar.Mends` — reading by an instruction keeps a state of reading mended.

## Main statements

* `Ahead.passesOver_countUntil`, `Ahead.passesOver_beforeCloseParen` — what is counted before an error
  node is made opens no declaration.
* `Grammar.Mends.recoverTo`, `Grammar.Mends.recoverInParens` — both ways of recovering.
-/

namespace RuleLang

open Grammar Production Element

/-! ## Where the current token stands -/

namespace Ahead

theorem span_cons_of_isTrivia {t : Token} {ts : Ahead} (ht : t.isTrivia = true) (hts : ts ≠ []) :
    span (t :: ts) = span ts := by
  cases ts with
  | nil => exact absurd rfl hts
  | cons u us => simp [span, currentToken?, nthToken?, ht]

theorem span_cons {t : Token} (ht : t.isTrivia = false) (ts : Ahead) : span (t :: ts) = t.span := by
  simp [span, currentToken?, nthToken?, ht]

end Ahead

namespace Covers

variable {n : Nat} {text : List Char}

theorem le_span_start {a : Ahead} (h : Covers n text a) : n ≤ a.span.start := by
  induction h with
  | eof kind =>
    rw [Ahead.span_cons (Ahead.isTrivia_of_kind_eof kind)]
    exact Nat.le_refl _
  | @cons t rest ts _ _ tail ih =>
    cases ht : t.isTrivia with
    | true =>
      rw [Ahead.span_cons_of_isTrivia ht tail.ne_nil]
      exact Nat.le_trans (Nat.le_add_right _ _) ih
    | false =>
      rw [Ahead.span_cons ht]
      exact Nat.le_refl _

/-- The text after the first token is covered by the other tokens. -/
theorem tail {t : Token} {ts : Ahead} (h : Covers n text (t :: ts)) (ht : t.kind ≠ .eof) :
    t.position.offset = n ∧ ∃ rest, Covers t.span.stop rest ts := by
  cases h with
  | eof kind => exact absurd kind ht
  | cons _ _ tail => exact ⟨rfl, _, tail⟩

/-- Where the current token stands after one more token was taken. -/
theorem span_start_le {t : Token} {ts : Ahead} (h : Covers n text (t :: ts))
    (ht : t.kind ≠ .eof) : (Ahead.span (t :: ts)).start ≤ (Ahead.span ts).start := by
  obtain ⟨-, rest, htail⟩ := h.tail ht
  cases htrivia : t.isTrivia with
  | true => rw [Ahead.span_cons_of_isTrivia htrivia htail.ne_nil]
  | false =>
    rw [Ahead.span_cons htrivia]
    exact Nat.le_trans (Nat.le_add_right _ _) htail.le_span_start

/-- The current token stands after the trivia that comes next. -/
theorem span_start_eq {ts rest : List Token} (h : Covers n text (ts ++ rest))
    (hts : ∃ t ∈ ts, t.isTrivia = false) :
    (Ahead.span (ts ++ rest)).start =
      n + widthOf ((ts.map Element.ofToken).takeWhile Element.isTrivia) := by
  induction ts generalizing n text with
  | nil => simp at hts
  | cons t ts ih =>
    have hkind : (Element.ofToken t).isTrivia = t.isTrivia := rfl
    cases ht : t.isTrivia with
    | false =>
      have hn : t.position.offset = n := by
        have := h.head_start
        simpa [Token.span] using this
      rw [List.cons_append, Ahead.span_cons ht, List.map_cons,
        List.takeWhile_cons_of_neg (by rw [hkind, ht]; exact Bool.false_ne_true), widthOf_nil]
      exact hn
    | true =>
      obtain ⟨hn, rest', htail⟩ := h.tail (Reading.kind_ne_eof_of_isTrivia ht)
      have htail : Covers t.span.stop rest' (ts ++ rest) := htail
      have hts : ∃ u ∈ ts, u.isTrivia = false := by
        obtain ⟨u, hu, hsig⟩ := hts
        rcases List.mem_cons.1 hu with rfl | hu
        · rw [ht] at hsig
          cases hsig
        · exact ⟨u, hu, hsig⟩
      rw [List.cons_append, Ahead.span_cons_of_isTrivia ht htail.ne_nil, ih htail hts,
        List.map_cons, List.takeWhile_cons_of_pos (by rw [hkind, ht]), widthOf_cons, ← hn,
        ← Nat.add_assoc]
      rfl

end Covers

/-! ## Tokens that are passed over -/

/-- Tokens, some of them significant, and none that opens a declaration. -/
structure PassedOver (cs : List Element) : Prop where
  tokens : ∀ c ∈ cs, c.isToken = true
  significant : ∃ c ∈ cs, c.isTrivia = false
  starts : ∀ c ∈ cs, c.kind.isDeclarationStart = false

theorem Kind.isDeclarationStart_of_isTrivia {k : Kind} (h : k.isTrivia = true) :
    k.isDeclarationStart = false := by
  cases k <;> first | rfl | cases h

namespace Ahead

/-- The next `n` significant tokens open no declaration. -/
def PassesOver (n : Nat) (a : Ahead) : Prop :=
  ∀ t ∈ a.take (a.bumpLength n), t.kind.isDeclarationStart = false

variable {t : Token} {ts : Ahead} {n : Nat}

theorem passesOver_zero (a : Ahead) : PassesOver 0 a := by
  intro t ht
  cases a <;> simp [bumpLength] at ht

theorem PassesOver.cons_trivia (ht : t.isTrivia = true) (h : PassesOver n ts) :
    PassesOver n (t :: ts) := by
  cases n with
  | zero => exact passesOver_zero _
  | succ n =>
    intro u hu
    rw [bumpLength_of_isTrivia ht, List.take_succ_cons, List.mem_cons] at hu
    rcases hu with rfl | hu
    · exact Kind.isDeclarationStart_of_isTrivia ht
    · exact h u hu

theorem PassesOver.cons (ht : t.kind.isDeclarationStart = false) (h : PassesOver n ts)
    (htrivia : t.isTrivia = false) : PassesOver (n + 1) (t :: ts) := by
  intro u hu
  rw [bumpLength, htrivia] at hu
  simp only [Bool.false_eq_true, if_false] at hu
  split at hu
  · simp at hu
  · rw [List.take_succ_cons, List.mem_cons] at hu
    rcases hu with rfl | hu
    · exact ht
    · exact h u hu

theorem passesOver_one {a : Ahead} (h : a.current.isDeclarationStart = false) : PassesOver 1 a := by
  induction a with
  | nil => intro t ht; cases ht
  | cons t ts ih =>
    rw [current_cons] at h
    split at h
    · exact (ih h).cons_trivia ‹_›
    · exact (passesOver_zero ts).cons h (by simpa using ‹¬t.isTrivia = true›)

/-- Where something is left to be read, a significant token is taken. -/
theorem exists_significant {a : Ahead} (hn : 0 < n) (h : a.current ≠ .eof) :
    ∃ t ∈ a.take (a.bumpLength n), t.isTrivia = false := by
  obtain ⟨n, rfl⟩ := Nat.exists_eq_succ_of_ne_zero (Nat.pos_iff_ne_zero.1 hn)
  induction a with
  | nil => exact absurd rfl h
  | cons t ts ih =>
    rw [current_cons] at h
    split at h
    · rename_i ht
      obtain ⟨u, hu, hsig⟩ := ih h
      rw [Nat.succ_eq_add_one, bumpLength_of_isTrivia ht, List.take_succ_cons]
      exact ⟨u, List.mem_cons_of_mem _ hu, hsig⟩
    · rename_i ht
      refine ⟨t, ?_, by simpa using ht⟩
      simp [bumpLength, ht, h]

/-- Counting that stops at the keywords of declarations counts none of them. -/
theorem passesOver_countUntil {stops : Kind → Bool}
    (hstops : ∀ k : Kind, k.isDeclarationStart = true → stops k = true) (a : Ahead) :
    PassesOver (a.countUntil stops) a := by
  induction a with
  | nil => exact passesOver_zero _
  | cons t ts ih =>
    simp only [countUntil]
    split
    · exact ih.cons_trivia ‹_›
    · split
      · exact passesOver_zero _
      · rename_i htrivia hs
        refine ih.cons ?_ (by simpa using htrivia)
        rw [← Bool.not_eq_true]
        exact fun h => hs (hstops _ h)

theorem passesOver_beforeCloseParen {depth : Nat} {a : Ahead}
    (h : a.beforeCloseParen depth = some n) : PassesOver n a := by
  induction a generalizing depth n with
  | nil => cases h
  | cons t ts ih =>
    simp only [beforeCloseParen] at h
    split at h
    · exact (ih h).cons_trivia ‹_›
    · rename_i htrivia
      split at h
      · cases h
        exact passesOver_zero _
      · split at h
        · cases h
        · rename_i hs
          obtain ⟨m, hm, rfl⟩ := Option.map_eq_some_iff.1 h
          refine (ih hm).cons ?_ (by simpa using htrivia)
          simp only [Bool.or_eq_true, not_or, Bool.not_eq_true] at hs
          exact hs.2

/-- The same without the trivia that comes next. -/
theorem PassesOver.afterTrivia {a : Ahead} (h : PassesOver n a) : PassesOver n a.afterTrivia := by
  induction a with
  | nil => exact h
  | cons t ts ih =>
    by_cases ht : t.isTrivia = true
    · rw [Ahead.afterTrivia, List.dropWhile_cons_of_pos ht]
      refine ih ?_
      cases n with
      | zero => exact passesOver_zero _
      | succ n =>
        intro u hu
        refine h u ?_
        rw [bumpLength_of_isTrivia ht, List.take_succ_cons]
        exact List.mem_cons_of_mem _ hu
    · rwa [Ahead.afterTrivia, List.dropWhile_cons_of_neg ht]

end Ahead

/-! ## Errors and their nodes -/

/-- An error, and no mere warning, is recorded between two offsets. -/
def Reported (errors : List SyntaxError) (first last : Nat) : Prop :=
  ∃ e ∈ errors, e.isWarning = false ∧ first ≤ e.span.start ∧ e.span.start ≤ last

theorem Reported.mono {errors errors' : List SyntaxError} {first last last' : Nat}
    (h : Reported errors first last) (hsub : errors ⊆ errors') (hlast : last ≤ last') :
    Reported errors' first last' := by
  obtain ⟨e, he, hw, hfirst, hle⟩ := h
  exact ⟨e, hsub he, hw, hfirst, Nat.le_trans hle hlast⟩

/-- An error node holds tokens that are passed over, and an error is recorded between the start of the
declaration and the first significant one of them. -/
def IsMended (errors : List SyntaxError) (first offset : Nat) (e : Element) : Prop :=
  ∀ cs, e = .node .error cs →
    PassedOver cs ∧ Reported errors first (offset + widthOf (cs.takeWhile Element.isTrivia))

theorem isMended_token {errors : List SyntaxError} {first offset : Nat} (k : Kind) (t : List Char) :
    IsMended errors first offset (.token k t) :=
  fun _ h => by cases h

theorem isMended_node {errors : List SyntaxError} {first offset : Nat} {k : Kind}
    (hk : k ≠ .error) (cs : List Element) : IsMended errors first offset (.node k cs) :=
  fun _ h => absurd (Element.node.inj h).1 hk

theorem IsMended.mono {errors errors' : List SyntaxError} {first offset : Nat} {e : Element}
    (h : IsMended errors first offset e) (hsub : errors ⊆ errors') :
    IsMended errors' first offset e :=
  fun cs he => ⟨(h cs he).1, (h cs he).2.mono hsub (Nat.le_refl _)⟩

/-! ## States of reading -/

namespace Reading

/-- A state of reading in a declaration that starts at `first`, with a group that starts at
`start`. -/
structure Mended (first start : Nat) (s : Reading) : Prop where
  limit : s.limit = none
  ordered : first ≤ start
  covers : ∃ text, Covers (start + widthOf s.group.reverse) text s.ahead
  reported : s.recovering = true → Reported s.errors first s.ahead.span.start
  group : Everywhere (IsMended s.errors first) start s.group.reverse

variable {first start n : Nat} {s t : Reading}

namespace Mended

theorem first_le (h : s.Mended first start) : first ≤ s.ahead.span.start := by
  obtain ⟨text, hcovers⟩ := h.covers
  exact Nat.le_trans h.ordered (Nat.le_trans (Nat.le_add_right _ _) hcovers.le_span_start)

/-! ### Taking tokens -/

theorem takeToken (h : s.Mended first start) : s.takeToken.Mended first start := by
  obtain ⟨ahead, group, errors, recovering, limit, entered⟩ := s
  cases ahead with
  | nil => exact h
  | cons t ts =>
    by_cases ht : t.kind = .eof
    · simpa [Reading.takeToken, ht] using h
    · rw [takeToken_cons rfl ht]
      obtain ⟨text, hcovers⟩ := h.covers
      have hle := hcovers.span_start_le ht
      obtain ⟨hn, rest, htail⟩ := hcovers.tail ht
      have hstop : t.span.stop =
          start + widthOf (Element.ofToken t :: group).reverse := by
        simp [widthOf_append, Element.ofToken, Element.width, Token.span, hn, Nat.add_assoc]
      refine ⟨h.limit, h.ordered, ⟨rest, hstop ▸ htail⟩,
        fun hr => (h.reported hr).mono (List.Subset.refl _) hle, ?_⟩
      rw [List.reverse_cons]
      exact h.group.append (everywhere_token.2 (isMended_token _ _))

theorem takeTokens (n : Nat) (h : s.Mended first start) : (s.takeTokens n).Mended first start := by
  induction n generalizing s with
  | zero => exact h
  | succ n ih => exact ih h.takeToken

theorem bumps (n : Nat) (h : s.Mended first start) : (s.bumps n).Mended first start := by
  rw [bumps_eq_takeTokens]
  exact h.takeTokens _

/-! ### Complaints -/

theorem complain (h : s.Mended first start) (c : Complaint) :
    (s.complain c).Mended first start := by
  have hsub : s.errors ⊆ (s.complain c).errors :=
    (Reads.complain c s : Reads body (.complain c) s _).errors_subset
  refine ⟨by rw [limit_complain, h.limit], h.ordered, ?_, fun hr => ?_, ?_⟩
  · rw [group_complain, ahead_complain]
    exact h.covers
  · rw [ahead_complain]
    cases hs : s.recovering with
    | true => exact (h.reported hs).mono hsub (Nat.le_refl _)
    | false =>
      rw [complain_of_inStep ⟨hs, h.limit⟩] at hr ⊢
      exact ⟨⟨c, s.ahead.span⟩, List.mem_cons_self, by simpa [SyntaxError.isWarning] using hr,
        h.first_le, Nat.le_refl _⟩
  · rw [group_complain]
    exact h.group.mono fun _ _ hm => hm.mono hsub

/-! ### Groups and nodes -/

/-- A group of its own starts where the group around it ends. -/
theorem fresh (h : s.Mended first start) :
    Mended first (start + widthOf s.group.reverse) { s with group := [] } :=
  ⟨h.limit, Nat.le_trans h.ordered (Nat.le_add_right _ _), by simpa using h.covers, h.reported,
    everywhere_nil⟩

theorem joined (h : s.Mended first start)
    (ht : t.Mended first (start + widthOf s.group.reverse)) (hsub : s.errors ⊆ t.errors) :
    Mended first start { t with group := t.group ++ s.group } := by
  refine ⟨ht.limit, h.ordered, ?_, ht.reported, ?_⟩
  · simpa [widthOf_append, Nat.add_assoc] using ht.covers
  · rw [List.reverse_append]
    exact (h.group.mono fun _ _ hm => hm.mono hsub).append ht.group

theorem enclosed {k : Kind} (h : s.Mended first start)
    (hk : IsMended s.errors first start (.node k s.group.reverse)) :
    Mended first start { s with group := [.node k s.group.reverse] } := by
  refine ⟨h.limit, h.ordered, ?_, h.reported, ?_⟩
  · simpa [Element.width] using h.covers
  · exact h.group.node hk

end Mended

/-! ### Error nodes -/

theorem errors_bumps (n : Nat) (s : Reading) : (s.bumps n).errors = s.errors := by
  rw [bumps_eq_takeTokens, errors_takeTokens]

/-- Tokens that open no declaration are moved to the group. -/
structure Passes (s t : Reading) (ts : List Token) : Prop where
  ahead : s.ahead = ts ++ t.ahead
  group : t.group = (ts.map Element.ofToken).reverse ++ s.group
  starts : ∀ u ∈ ts, u.kind.isDeclarationStart = false

theorem Passes.trans {u : Reading} {ts us : List Token} (h : s.Passes t ts) (k : t.Passes u us) :
    s.Passes u (ts ++ us) where
  ahead := by rw [h.ahead, k.ahead, List.append_assoc]
  group := by rw [k.group, h.group]; simp
  starts v hv := (List.mem_append.1 hv).elim (h.starts v) (k.starts v)

theorem passes_bumps (h : s.ahead.PassesOver n) :
    s.Passes (s.bumps n) (s.ahead.take (s.ahead.bumpLength n)) := by
  obtain ⟨ts, hlength, hahead, hgroup⟩ := s.takes_bumps n
  have hahead : s.ahead = ts ++ (s.bumps n).ahead := hahead
  obtain rfl : ts = s.ahead.take (s.ahead.bumpLength n) := by
    rw [← hlength, hahead, List.take_left]
  exact ⟨hahead, hgroup, h⟩

theorem passes_takeLineTrivia (s : Reading) :
    s.Passes s.takeLineTrivia (s.ahead.take (lineTriviaLength s.ahead)) where
  ahead := by rw [ahead_takeLineTrivia, Ahead.afterLine, List.take_append_drop]
  group := by rw [takeLineTrivia_eq]
  starts _ hu := Kind.isDeclarationStart_of_isTrivia (isTrivia_of_mem_lineTrivia hu)

/-- A group of tokens becomes an error node, where an error is recorded no later than at the first
significant one. -/
theorem Mended.errorNode {ts : List Token} (hs : s.Mended first start) (hgroup : s.group = [])
    (hpass : s.Passes t ts) (hsignificant : ∃ u ∈ ts, u.isTrivia = false)
    (ht : t.Mended first start) (hreported : Reported t.errors first s.ahead.span.start) :
    Mended first start { t with group := [.node .error t.group.reverse] } := by
  refine ht.enclosed fun cs he => ?_
  obtain rfl : ts.map Element.ofToken = cs := by
    rw [← (Element.node.inj he).2, hpass.group, hgroup]
    simp
  obtain ⟨text, hcovers⟩ := hs.covers
  rw [hgroup, List.reverse_nil, widthOf_nil, Nat.add_zero, hpass.ahead] at hcovers
  refine ⟨⟨?_, ?_, ?_⟩, ?_⟩
  · simp [Element.ofToken, Element.isToken, Element.isNode]
  · obtain ⟨u, hu, hsig⟩ := hsignificant
    exact ⟨_, List.mem_map_of_mem hu, hsig⟩
  · intro c hc
    obtain ⟨u, hu, rfl⟩ := List.mem_map.1 hc
    exact hpass.starts u hu
  · rwa [← hcovers.span_start_eq hsignificant, ← hpass.ahead]

end Reading

/-! ## Instructions -/

/-- Productions that are entered below a declaration, and declarations. -/
def Production.isInside : Production → Bool
  | .compilationUnit | .declarations | .strayTokens => false
  | _ => true

/-- Productions that keep a state of reading mended when they are entered. -/
structure Mending (enter : Production → Reading → Option Reading) : Prop where
  reads {p : Production} {s t : Reading} : enter p s = some t → Reads body (.call p) s t
  mended {p : Production} {first start : Nat} {s t : Reading} : p.isInside = true →
    enter p s = some t → s.Mended first start → t.Mended first start

namespace Grammar

variable {sure : Bool} {f g otherwise : Rule} {c : Complaint}

/-- Reading by an instruction keeps a state of reading mended; `sure` tells that it starts out of
step. -/
def Mends (sure : Bool) (g : Rule) : Prop :=
  ∀ enter, Mending enter → ∀ {first start : Nat} {s t : Reading},
    (sure = true → s.recovering = true) → s.Mended first start → g.run enter s = some t →
      t.Mended first start

namespace Mends

theorem skip : Mends sure .skip := by
  intro enter henter first start s t hr hs h
  cases h
  exact hs

theorem trivia : Mends sure .trivia := by
  intro enter henter first start s t hr hs h
  cases h
  exact hs.takeTokens _

theorem lineTrivia : Mends sure .lineTrivia := by
  intro enter henter first start s t hr hs h
  cases h
  exact hs.takeTokens _

theorem take (n : Nat) : Mends sure (.take n) := by
  intro enter henter first start s t hr hs h
  cases h
  exact hs.bumps n

theorem bump : Mends sure .bump := take 1

theorem recovered : Mends sure .recovered := by
  intro enter henter first start s t hr hs h
  cases h
  exact ⟨hs.limit, hs.ordered, hs.covers, fun h => absurd h Bool.false_ne_true, hs.group⟩

theorem complain (c : Complaint) : Mends sure (.complain c) := by
  intro enter henter first start s t hr hs h
  cases h
  exact hs.complain c

theorem call {p : Production} (hp : p.isInside = true) : Mends sure (.call p) := by
  intro enter henter first start s t hr hs h
  exact henter.mended hp h hs

theorem seq (hf : Mends sure f) (hg : Mends false g) : Mends sure (f >> g) := by
  intro enter henter first start s t hr hs h
  obtain ⟨u, hu, ht⟩ := Spaces.run_seq h
  exact hg enter henter (fun h => absurd h Bool.false_ne_true) (hf enter henter hr hs hu) ht

/-- After an error reading is out of step. -/
theorem complain_seq (hc : c.isWarning = false) (hg : Mends true g) :
    Mends sure (.complain c >> g) := by
  intro enter henter first start s t hr hs h
  obtain ⟨u, hu, ht⟩ := Spaces.run_seq h
  cases hu
  refine hg enter henter (fun _ => ?_) (hs.complain c) ht
  rw [Reading.recovering_complain, hc]
  simp

theorem look {choose : Ahead → Rule} (h : ∀ a, Mends sure (choose a)) :
    Mends sure (.look choose) :=
  fun enter henter _ _ s _ => h s.ahead enter henter

theorem ifRecovering (hf : Mends true f) (hg : Mends sure g) : Mends sure (.ifRecovering f g) := by
  intro enter henter first start s t hr hs h
  simp only [run] at h
  split at h
  · exact hf enter henter (fun _ => ‹_›) hs h
  · exact hg enter henter hr hs h

theorem group (h : Mends sure g) : Mends sure (.group g) := by
  intro enter henter first start s t hr hs hrun
  simp only [run] at hrun
  split at hrun
  · rename_i u hu
    cases hrun
    exact hs.joined (h enter henter (s := { s with group := [] }) hr hs.fresh hu)
      (reads_of_run (fun _ _ _ => henter.reads) hu).errors_subset
  · cases hrun

theorem enclose {k : Kind} (hk : (k == .error) = false) (h : Mends sure g) :
    Mends sure (.enclose k g) := by
  intro enter henter first start s t hr hs hrun
  simp only [run] at hrun
  split at hrun
  · cases hrun
    exact (h enter henter hr hs ‹_›).enclosed (isMended_node (beq_eq_false_iff_ne.1 hk) _)
  · cases hrun

theorem ite {p : Prop} [Decidable p] (hf : Mends sure f) (hg : Mends sure g) :
    Mends sure (if p then f else g) := by
  split
  · exact hf
  · exact hg

/-! ## Derived instructions -/

theorem node {k : Kind} (hk : (k == .error) = false) (h : Mends sure g) :
    Mends sure (.node k g) :=
  group (enclose hk h)

theorem inner {k : Kind} (hk : (k == .error) = false) (h : Mends false g) :
    Mends sure (.inner k g) :=
  seq trivia (node hk h)

theorem innerGroup (h : Mends false g) : Mends sure (.innerGroup g) :=
  seq trivia (group h)

theorem when {test : Ahead → Bool} (hg : Mends sure g) (ho : Mends sure otherwise) :
    Mends sure (.when test g otherwise) :=
  look fun _ => ite hg ho

theorem whenAt {k : Kind} (hg : Mends sure g) (ho : Mends sure otherwise) :
    Mends sure (.whenAt k g otherwise) :=
  when hg ho

theorem eat {k : Kind} (hg : Mends false g) (ho : Mends sure otherwise) :
    Mends sure (.eat k g otherwise) :=
  whenAt (seq bump hg) ho

theorem eat_skip {k : Kind} : Mends sure (.eat k) :=
  eat skip skip

theorem fail {c : Kind → Complaint} : Mends sure (.fail c) :=
  look fun _ => complain _

theorem fail_seq {c : Kind → Complaint} (hc : ∀ k, (c k).isWarning = false) (hg : Mends true g) :
    Mends sure (.fail c >> g) :=
  fun enter henter _ _ s _ => complain_seq (hc s.ahead.current) hg enter henter

theorem expect {k : Kind} (hg : Mends false g) : Mends sure (.expect k g) :=
  eat hg fail

theorem expect_skip {k : Kind} : Mends sure (.expect k) :=
  expect skip

theorem expectName {role : Role} : Mends sure (.expectName role) :=
  when bump fail

theorem balanced : Mends sure .balanced :=
  look fun _ => seq (take _) (ite skip (complain _))

theorem untilClose {k : Kind} : Mends sure (.untilClose k) :=
  look fun _ => take _

/-! ## Recovering -/

/-- Out of step the next tokens are made an error node. -/
theorem run_wrapError {enter : Production → Reading → Option Reading} {n first start : Nat}
    {s t : Reading} (hr : s.recovering = true) (hs : s.Mended first start)
    (hover : s.ahead.PassesOver n) (hn : 0 < n → s.ahead.current ≠ .eof)
    (h : (Grammar.wrapError n).run enter s = some t) : t.Mended first start := by
  unfold Grammar.wrapError at h
  split at h
  · cases h
    exact hs
  · rename_i hne
    have hpos := Nat.pos_of_ne_zero hne
    obtain ⟨u, hu, ht⟩ := Spaces.run_seq h
    cases hu
    cases ht
    have hu : s.takeTrivia.Mended first start := hs.takeTokens _
    have hrec : s.takeTrivia.recovering = true := by rw [Reading.takeTrivia_eq]; exact hr
    have hcurrent : s.takeTrivia.ahead.current ≠ .eof := by
      rw [Reading.ahead_takeTrivia, Ahead.current_afterTrivia]
      exact hn hpos
    have hover : s.takeTrivia.ahead.PassesOver n := by
      rw [Reading.ahead_takeTrivia]
      exact hover.afterTrivia
    have herrors := Reading.errors_bumps n { s.takeTrivia with group := [] }
    refine hu.joined ?_ fun e he => herrors.symm ▸ he
    refine hu.fresh.errorNode rfl (Reading.passes_bumps hover)
      (Ahead.exists_significant hpos hcurrent) (hu.fresh.bumps n) ?_
    rw [herrors]
    exact hu.reported hrec

theorem recoverTo {stops : List Kind} : Mends true (.recoverTo stops) := by
  refine seq ?_ (when recovered skip)
  intro enter henter first start s t hr hs h
  refine run_wrapError (hr rfl) hs (Ahead.passesOver_countUntil (fun k hk => ?_) _)
    (fun hpos he => ?_) h
  · rw [Kind.isDeclarationStart, Bool.and_eq_true] at hk
    rw [hk.1, Bool.or_true]
  · rw [Ahead.countUntil_eq_zero (by simp) he] at hpos
    exact absurd hpos (Nat.lt_irrefl 0)

theorem recoverInParens : Mends sure .recoverInParens := by
  refine ifRecovering ?_ skip
  intro enter henter first start s t hr hs h
  simp only [run] at h
  split at h
  · rename_i n hn
    obtain ⟨u, hu, ht⟩ := Spaces.run_seq h
    have hne : 0 < n → s.ahead.current ≠ .eof := by
      intro _ he
      rw [Ahead.beforeCloseParen_eq_none he] at hn
      cases hn
    have hu := run_wrapError (hr rfl) hs (Ahead.passesOver_beforeCloseParen hn) hne hu
    exact (recovered : Mends false _) enter henter (fun h => absurd h Bool.false_ne_true) hu ht
  · cases h
    exact hs

end Mends

end Grammar

end RuleLang
