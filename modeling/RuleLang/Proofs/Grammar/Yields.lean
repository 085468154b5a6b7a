import RuleLang.Proofs.Grammar.Cut
import RuleLang.Proofs.Element.Clauses
import RuleLang.Proofs.Parser.Changed

/-!
# Instructions that read given elements

To show that a text is read as a given tree, the instructions are shown to read the tokens of
elements as these elements, one after the other: a sequence reads what its parts read, and a node
is read by what makes it. What comes after the tokens has a say in it, as far as the instruction
looks there.

## Main definitions

* `Element.kindsOf` — the kinds of the tokens below some elements, without trivia.
* `Ahead.Opens` — the tokens of some elements come next.
* `Grammar.Becomes` — an instruction reads the tokens of some elements, and turns what the group
  holds into other elements.
* `Grammar.Yields` — an instruction reads the tokens of some elements as these elements.

## Main statements

* `Grammar.Yields.seq`, `Grammar.Yields.inner`, `Grammar.Becomes.enclose`, … — how instructions that
  do so are put together.
* `Grammar.Yields.file` — a file with one declaration.
* `Grammar.Yields.parse_eq` — a text whose tokens are read as a tree has this tree and no errors.
-/

namespace RuleLang

open Grammar Element Ahead Grammar.Expressions

/-- Neither trivia nor the end of the input. -/
def Kind.isSolid (k : Kind) : Bool :=
  !k.isTrivia && k != .eof

theorem Kind.isTrivia_of_isSolid {k : Kind} (h : k.isSolid = true) : k.isTrivia = false := by
  simpa using (Bool.and_eq_true_iff.1 h).1

theorem Kind.ne_eof_of_isSolid {k : Kind} (h : k.isSolid = true) : k ≠ .eof := by
  simpa using (Bool.and_eq_true_iff.1 h).2

/-! ## Tokens of elements -/

namespace Element

/-- The kinds of the tokens below some elements, without trivia. -/
def kindsOf (es : List Element) : List Kind :=
  ((leavesOf es).filter fun l => !l.isTrivia).map Leaf.kind

theorem kindsOf_append (xs ys : List Element) : kindsOf (xs ++ ys) = kindsOf xs ++ kindsOf ys := by
  simp [kindsOf]

theorem kindsOf_lead {lead : List Element} (h : ∀ e ∈ lead, e.isTrivia = true)
    (es : List Element) : kindsOf (lead ++ es) = kindsOf es := by
  induction lead with
  | nil => rfl
  | cons e lead ih =>
    obtain ⟨he, hlead⟩ := List.forall_mem_cons.1 h
    cases e with
    | node => cases he
    | token k t =>
      have hl : (Leaf.mk k t).isTrivia = true := he
      rw [← ih hlead, List.cons_append, kindsOf, leavesOf_cons, leaves_token,
        List.singleton_append, List.filter_cons_of_neg (by simp [hl])]
      rfl

theorem kindsOf_blank (es : List Element) :
    kindsOf (Leaf.blank.element :: es) = kindsOf es :=
  @kindsOf_lead [Leaf.blank.element] (List.forall_mem_singleton.2 rfl) es

theorem kindsOf_token {k : Kind} (hk : k.isTrivia = false) (t : List Char) (es : List Element) :
    kindsOf (token k t :: es) = k :: kindsOf es := by
  have hl : (Leaf.mk k t).isTrivia = false := hk
  rw [kindsOf, leavesOf_cons, leaves_token, List.singleton_append,
    List.filter_cons_of_pos (by simp [hl]), List.map_cons]
  rfl

theorem kindsOf_node (k : Kind) (cs es : List Element) :
    kindsOf (node k cs :: es) = kindsOf cs ++ kindsOf es := by
  simp [kindsOf]

theorem kindsOf_spaced (es : List Element) : kindsOf (spaced es) = kindsOf es := by
  induction es with
  | nil => rfl
  | cons e es ih =>
    rw [spaced, List.flatMap_cons, ← spaced, List.cons_append, kindsOf_blank, kindsOf_append, ih,
      ← kindsOf_append, List.singleton_append]

theorem kindsOf_intersperse (es : List Element) :
    kindsOf (es.intersperse Leaf.blank.element) = kindsOf es := by
  cases es with
  | nil => rfl
  | cons e es =>
    rw [intersperse_cons, ← List.singleton_append, kindsOf_append, kindsOf_spaced,
      ← kindsOf_append, List.singleton_append]

theorem kindsOf_leaves {ls : List Leaf} (h : ∀ l ∈ ls, l.kind.isSolid = true) :
    kindsOf (ls.map Leaf.element) = ls.map Leaf.kind := by
  induction ls with
  | nil => rfl
  | cons l ls ih =>
    obtain ⟨hl, hls⟩ := List.forall_mem_cons.1 h
    rw [List.map_cons, Leaf.element, kindsOf_token (Kind.isTrivia_of_isSolid hl), ih hls,
      List.map_cons]

/-- The first token below some elements is of a kind that is no trivia. -/
def Starts (k : Kind) (es : List Element) : Prop :=
  k.isSolid = true ∧ ∃ t ls, leavesOf es = ⟨k, t⟩ :: ls

/-- The first token below some elements is of this kind, apart from trivia. -/
def First (k : Kind) (es : List Element) : Prop :=
  ∃ ks, kindsOf es = k :: ks

variable {k : Kind} {es : List Element}

theorem Starts.token (hk : k.isSolid = true) (t : List Char) (es : List Element) :
    Starts k (token k t :: es) :=
  ⟨hk, t, leavesOf es, rfl⟩

theorem Starts.leaf {l : Leaf} (hl : l.kind.isSolid = true) (es : List Element) :
    Starts l.kind (l.element :: es) :=
  .token hl l.text es

theorem Starts.node {cs : List Element} (h : Starts k cs) (kind : Kind) (es : List Element) :
    Starts k (node kind cs :: es) := by
  obtain ⟨hk, t, ls, hls⟩ := h
  exact ⟨hk, t, ls ++ leavesOf es, by rw [leavesOf_cons, leaves_node, hls, List.cons_append]⟩

theorem Starts.append (h : Starts k es) (more : List Element) : Starts k (es ++ more) := by
  obtain ⟨hk, t, ls, hls⟩ := h
  exact ⟨hk, t, ls ++ leavesOf more, by rw [leavesOf_append, hls, List.cons_append]⟩

theorem Starts.intersperse {e : Element} (h : Starts k [e]) (es : List Element) :
    Starts k ((e :: es).intersperse Leaf.blank.element) := by
  rw [intersperse_cons]
  exact h.append _

theorem Starts.spread {l : Leaf} (hl : l.kind.isSolid = true) (kind : Kind) (es : List Element) :
    Starts l.kind [Element.spread kind (l.element :: es)] :=
  ((Starts.leaf hl []).intersperse es).node kind []

theorem Starts.first (h : Starts k es) : First k es := by
  obtain ⟨hk, t, ls, hls⟩ := h
  have hl : (Leaf.mk k t).isTrivia = false := Kind.isTrivia_of_isSolid hk
  exact ⟨_, by rw [kindsOf, hls, List.filter_cons_of_pos (by simp [hl]), List.map_cons]⟩

theorem First.append (h : First k es) (more : List Element) : First k (es ++ more) := by
  obtain ⟨ks, hks⟩ := h
  exact ⟨ks ++ kindsOf more, by rw [kindsOf_append, hks, List.cons_append]⟩

theorem First.blank (h : First k es) : First k (Leaf.blank.element :: es) := by
  rwa [First, kindsOf_blank]

theorem First.spaced (h : First k es) : First k (spaced es) := by
  rwa [First, kindsOf_spaced]

/-- Tokens whose leaves are those of elements that are tokens. -/
theorem map_ofToken_of_leaves {ts : List Token} (h : ts.map Token.leaf = leavesOf es)
    (hes : ∀ e ∈ es, e.isNode = false) : ts.map ofToken = es := by
  induction es generalizing ts with
  | nil =>
    rw [List.map_eq_nil_iff.1 h]
    rfl
  | cons e es ih =>
    obtain ⟨he, hall⟩ := List.forall_mem_cons.1 hes
    cases e with
    | node => cases he
    | token k t =>
      obtain ⟨u, us, rfl, hu, hus⟩ := List.map_eq_cons_iff.1 h
      rw [List.map_cons, ih hus hall]
      cases hu
      rfl

end Element

namespace Ahead

/-- The tokens of some elements come next, and then tokens with a property. -/
def Opens (es : List Element) (next : Ahead → Prop) (a : Ahead) : Prop :=
  ∃ ts rest, a = ts ++ rest ∧ ts.map Token.leaf = leavesOf es ∧ next rest

/-- Tokens of these kinds come next, apart from trivia, and then tokens with a property. -/
def Begins (ks : List Kind) (next : Ahead → Prop) (a : Ahead) : Prop :=
  ∃ rest, significantKinds a = ks ++ significantKinds rest ∧ next rest

/-- The current token is of one of these kinds. -/
def At (ks : List Kind) (a : Ahead) : Prop :=
  a.current ∈ ks

/-- No trivia comes next. -/
def Tight (a : Ahead) : Prop :=
  ∀ t ∈ a.head?, t.isTrivia = false

/-- Nothing comes but the end of the input. -/
def Done (a : Ahead) : Prop :=
  ∃ e : Token, a = [e] ∧ e.kind = .eof

variable {a : Ahead} {es : List Element} {next : Ahead → Prop} {k l : Kind} {ks : List Kind}

theorem Done.tight (h : Done a) : Tight a := by
  obtain ⟨e, rfl, he⟩ := h
  simp [Tight, Token.isTrivia, he, Kind.isTrivia]

theorem nth_eq_getElem? (a : Ahead) (n : Nat) : a.nth n = (significantKinds a)[n]?.getD .eof := by
  induction a generalizing n with
  | nil => rfl
  | cons t a ih =>
    cases ht : t.isTrivia with
    | true =>
      rw [nth_cons_trivia ht, ih]
      simp [significantKinds, ht]
    | false =>
      cases n with
      | zero => simp [significantKinds, nth, nthToken?, ht]
      | succ n =>
        rw [nth_succ_cons ht, ih]
        simp [significantKinds, ht]

theorem Opens.begins (h : Opens es next a) : Begins (kindsOf es) next a := by
  obtain ⟨ts, rest, rfl, hts, hnext⟩ := h
  refine ⟨rest, ?_, hnext⟩
  rw [significantKinds_append, kindsOf, ← hts, List.filter_map, List.map_map]
  rfl

theorem Opens.nil (h : Opens es next a) (hes : leavesOf es = []) : next a := by
  obtain ⟨ts, rest, rfl, hts, hnext⟩ := h
  rwa [List.map_eq_nil_iff.1 (hts.trans hes)]

theorem Opens.tight (h : Opens es next a) (hes : Starts k es) : Tight a := by
  obtain ⟨ts, rest, rfl, hts, -⟩ := h
  obtain ⟨hk, t, ls, hls⟩ := hes
  obtain ⟨u, us, rfl, hu, -⟩ := List.map_eq_cons_iff.1 (hts.trans hls)
  intro v hv
  obtain rfl : u = v := by simpa using hv
  rw [Token.isTrivia, show u.kind = k from congrArg Leaf.kind hu]
  exact Kind.isTrivia_of_isSolid hk

theorem Begins.current (h : Begins (k :: ks) next a) : a.current = k := by
  obtain ⟨rest, hkinds, -⟩ := h
  rw [Ahead.current, nth_eq_getElem?, hkinds]
  rfl

theorem Begins.nth_one (h : Begins (k :: l :: ks) next a) : a.nth 1 = l := by
  obtain ⟨rest, hkinds, -⟩ := h
  rw [nth_eq_getElem?, hkinds]
  rfl

theorem Begins.trans {ls : List Kind} (h : Begins ks (Begins ls next) a) :
    Begins (ks ++ ls) next a := by
  obtain ⟨rest, hkinds, end', hrest, hnext⟩ := h
  exact ⟨end', by rw [hkinds, hrest, List.append_assoc], hnext⟩

theorem Begins.at (h : Begins [] (At ks) a) : At ks a := by
  obtain ⟨rest, hkinds, hnext⟩ := h
  rw [At, Ahead.current, nth_eq_getElem?, hkinds, List.nil_append, ← nth_eq_getElem?]
  exact hnext

theorem Begins.eof (h : Begins [] Done a) : a.current = .eof := by
  obtain ⟨rest, hkinds, e, rfl, he⟩ := h
  rw [Ahead.current, nth_eq_getElem?, hkinds]
  simp [significantKinds, Token.isTrivia, he, Kind.isTrivia]

theorem Begins.ne (h : Begins [] (At ks) a) (hk : k ∉ ks) : a.current ≠ k :=
  fun he => hk (he ▸ h.at)

/-- The token after the first ones is one of those that may come there. -/
theorem Begins.extend {ls : List Kind} (h : Begins ks (At ls) a) (heof : .eof ∉ ls) :
    ∃ l ∈ ls, Begins (ks ++ [l]) (fun _ => True) a := by
  obtain ⟨rest, hkinds, hnext⟩ := h
  have hne : rest.current ≠ .eof := fun he => heof (he ▸ hnext)
  refine ⟨rest.current, hnext, rest.after 1, ?_, trivial⟩
  rw [hkinds, significantKinds_after_one hne, List.append_assoc, List.singleton_append]

theorem Begins.current_of_first (h : Begins (kindsOf es) next a) (hes : First k es) :
    a.current = k := by
  obtain ⟨ks, hks⟩ := hes
  exact (hks ▸ h).current

theorem Begins.at_of_first (h : Begins (kindsOf es) next a) (hes : First k es) (hk : k ∈ ks) :
    At ks a := by
  rw [At, h.current_of_first hes]
  exact hk

end Ahead

namespace Grammar

/-! ## Instructions that read elements -/

/-- With some elements in the group and the tokens of others ahead, the instruction reads these
tokens, and the group holds yet other elements then, if what comes after the tokens is as it should
be. There are no complaints, and reading is in step. -/
def Becomes (g : Rule) (next : Ahead → Prop) (before es after : List Element) : Prop :=
  ∀ (ts : List Token) (rest : Ahead) (errors : List SyntaxError) (limit : Option Nat) (m : Nat),
    ts.map Token.leaf = leavesOf es → next rest →
      ∃ n, Reads Production.body g ⟨ts ++ rest, before.reverse, errors, false, limit, m⟩
        ⟨rest, after.reverse, errors, false, limit, n⟩

/-- The instruction reads the tokens of the elements as these elements, if what comes after them is
as it should be. -/
def Yields (g : Rule) (next : Ahead → Prop) (es : List Element) : Prop :=
  ∀ before, Becomes g next before es (before ++ es)

/-- The instruction does so with any trivia before the elements. -/
def Gives (g : Rule) (next : Ahead → Prop) (es : List Element) : Prop :=
  ∀ lead : List Element, (∀ e ∈ lead, e.isTrivia = true) → Yields g next (lead ++ es)

variable {f g body otherwise : Rule} {p : Production} {next next' : Ahead → Prop} {k kind : Kind}
  {es es' lead before middle after : List Element} {choose : Ahead → Rule} {test : Ahead → Bool}
  {t : List Char}

namespace Becomes

theorem seq (hf : Becomes f next' before es middle) (hg : Becomes g next middle es' after)
    (hnext : ∀ a, Opens es' next a → next' a) :
    Becomes (.seq f g) next before (es ++ es') after := by
  intro ts rest errors limit m hts hrest
  rw [leavesOf_append] at hts
  obtain ⟨ts₁, ts₂, rfl, hts₁, hts₂⟩ := List.map_eq_append_iff.1 hts
  obtain ⟨n, hn⟩ := hf ts₁ (ts₂ ++ rest) errors limit m hts₁
    (hnext _ ⟨ts₂, rest, rfl, hts₂, hrest⟩)
  obtain ⟨n', hn'⟩ := hg ts₂ rest errors limit n hts₂ hrest
  exact ⟨n', .seq (List.append_assoc _ _ _ ▸ hn) hn'⟩

theorem look (h : Becomes g next before es after)
    (hg : ∀ a, Begins (kindsOf es) next a → choose a = g) :
    Becomes (.look choose) next before es after := by
  intro ts rest errors limit m hts hrest
  obtain ⟨n, hn⟩ := h ts rest errors limit m hts hrest
  have hopens : Opens es next (ts ++ rest) := ⟨ts, rest, rfl, hts, hrest⟩
  exact ⟨n, .look (by rwa [hg _ hopens.begins])⟩

theorem call (h : Becomes p.body next before es after) :
    Becomes (.call p) next before es after := by
  intro ts rest errors limit m hts hrest
  obtain ⟨n, hn⟩ := h ts rest errors limit (m + 1) hts hrest
  exact ⟨n, .call hn⟩

theorem when (h : Becomes body next before es after)
    (htest : ∀ a, Begins (kindsOf es) next a → test a = true) :
    Becomes (when test body otherwise) next before es after :=
  h.look fun a ha => if_pos (htest a ha)

theorem not_when (h : Becomes otherwise next before es after)
    (htest : ∀ a, Begins (kindsOf es) next a → test a = false) :
    Becomes (Grammar.when test body otherwise) next before es after :=
  h.look fun a ha => if_neg (by simp [htest a ha])

/-- A node of all that the group holds. -/
theorem enclose (h : Becomes body next before es after) :
    Becomes (.enclose kind body) next before es [.node kind after] := by
  intro ts rest errors limit m hts hrest
  obtain ⟨n, hn⟩ := h ts rest errors limit m hts hrest
  have henclose : Reads Production.body (.enclose kind body)
      ⟨ts ++ rest, before.reverse, errors, false, limit, m⟩ _ := .enclose hn
  exact ⟨n, by simpa using henclose⟩

/-- A group of its own. -/
theorem group (h : Becomes body next [] es after) (hes : leavesOf es = leavesOf after) :
    Yields (.group body) next after := by
  intro before ts rest errors limit m hts hrest
  obtain ⟨n, hn⟩ := h ts rest errors limit m (hts.trans hes.symm) hrest
  have hgroup : Reads Production.body (.group body)
      ⟨ts ++ rest, before.reverse, errors, false, limit, m⟩ _ := .group hn
  exact ⟨n, by simpa using hgroup⟩

end Becomes

namespace Yields

theorem mono (h : Yields g next' es) (hnext : ∀ a, next a → next' a) : Yields g next es :=
  fun before ts rest errors limit m hts hrest =>
    h before ts rest errors limit m hts (hnext rest hrest)

theorem skip : Yields .skip next [] := by
  intro before ts rest errors limit m hts _
  obtain rfl := List.map_eq_nil_iff.1 hts
  exact ⟨m, by simpa using Reads.skip _⟩

theorem seq_of_opens (hf : Yields f next' es) (hg : Yields g next es')
    (hnext : ∀ a, Opens es' next a → next' a) : Yields (.seq f g) next (es ++ es') := by
  intro before
  rw [← List.append_assoc]
  exact (hf before).seq (hg (before ++ es)) hnext

theorem seq (hf : Yields f next' es) (hg : Yields g next es')
    (hnext : ∀ a, Begins (kindsOf es') next a → next' a) :
    Yields (.seq f g) next (es ++ es') :=
  hf.seq_of_opens hg fun a ha => hnext a ha.begins

/-- The second instruction has nothing to read. -/
theorem seq_nil (hf : Yields f next es) (hg : Yields g next []) : Yields (.seq f g) next es := by
  have h := hf.seq_of_opens hg fun a ha => ha.nil rfl
  rwa [List.append_nil] at h

theorem look (h : Yields g next es) (hg : ∀ a, Begins (kindsOf es) next a → choose a = g) :
    Yields (.look choose) next es :=
  fun before => (h before).look hg

theorem call (h : Yields p.body next es) : Yields (.call p) next es :=
  fun before => (h before).call

theorem ifRecovering {yes : Rule} (h : Yields g next es) :
    Yields (.ifRecovering yes g) next es := by
  intro before ts rest errors limit m hts hrest
  obtain ⟨n, hn⟩ := h before ts rest errors limit m hts hrest
  exact ⟨n, .ifRecovering hn⟩

theorem when (h : Yields body next es) (htest : ∀ a, Begins (kindsOf es) next a → test a = true) :
    Yields (when test body otherwise) next es :=
  fun before => (h before).when htest

theorem not_when (h : Yields otherwise next es)
    (htest : ∀ a, Begins (kindsOf es) next a → test a = false) :
    Yields (Grammar.when test body otherwise) next es :=
  fun before => (h before).not_when htest

/-- The current token is not of the kind. -/
theorem not_at (h : Yields otherwise next es)
    (hne : ∀ a, Begins (kindsOf es) next a → a.current ≠ k) :
    Yields (whenAt k body otherwise) next es :=
  h.not_when fun a ha => by simpa [isAt] using hne a ha

/-- There is nothing to read where the token of the kind does not come. -/
theorem absent {ks : List Kind} (hk : k ∉ ks) : Yields (whenAt k body) (At ks) [] :=
  skip.not_at fun _ ha => ha.ne hk

/-- There is nothing to read where the token of the kind comes. -/
theorem there : Yields (whenAt k .skip otherwise) (At [k]) [] :=
  skip.when fun a ha => by simpa [isAt] using List.mem_singleton.1 ha.at

/-- The first instruction has nothing to read where the token of a kind comes. -/
theorem nil_seq (hf : Yields f (At [k]) []) (hg : Yields g next es) (hes : First k es) :
    Yields (.seq f g) next es :=
  hf.seq hg fun _ ha => ha.at_of_first hes (List.mem_singleton_self k)

/-- A node of its own. -/
theorem node (h : Yields body next es) : Yields (node kind body) next [.node kind es] :=
  ((h []).enclose).group (by simp)

/-! ### Trivia and tokens -/

/-- The trivia before a token is taken. -/
theorem takeTrivia_eq {s : Reading} {ts : List Token} {rest : Ahead}
    (hlead : ∀ e ∈ lead, e.isTrivia = true) (hs : s.ahead = ts ++ rest)
    (hts : ts.map Token.leaf = leavesOf lead) (hrest : Tight rest) :
    s.takeTrivia = { s with ahead := rest, group := lead.reverse ++ s.group } := by
  have hmap : ts.map ofToken = lead := by
    refine map_ofToken_of_leaves hts fun e he => ?_
    have htrivia := hlead e he
    cases e with
    | token => rfl
    | node => cases htrivia
  have htrivia : ∀ t ∈ ts, t.isTrivia = true := fun t ht =>
    hlead (ofToken t) (hmap ▸ List.mem_map_of_mem ht)
  have htake : s.ahead.takeWhile Token.isTrivia = ts := by
    rw [hs, List.takeWhile_append_of_pos htrivia]
    cases rest with
    | nil => simp
    | cons t rest => simp [hrest t (by simp)]
  have hdrop : s.ahead.afterTrivia = rest := by
    have hsplit := @List.takeWhile_append_dropWhile _ Token.isTrivia s.ahead
    rw [htake, hs] at hsplit
    rw [Ahead.afterTrivia, hs]
    exact List.append_cancel_left hsplit
  rw [Reading.takeTrivia_eq, htake, hdrop, hmap]

/-- Trivia before what is no trivia. -/
theorem trivia (hlead : ∀ e ∈ lead, e.isTrivia = true) : Yields .trivia Tight lead := by
  intro before ts rest errors limit m hts hrest
  have hreads : Reads Production.body .trivia
      ⟨ts ++ rest, before.reverse, errors, false, limit, m⟩ _ := .trivia _
  rw [takeTrivia_eq hlead rfl hts hrest] at hreads
  exact ⟨m, by rwa [List.reverse_append]⟩

theorem lineTrivia : Yields .lineTrivia Tight [] := by
  intro before ts rest errors limit m hts hrest
  obtain rfl := List.map_eq_nil_iff.1 hts
  have hlength : Reading.lineTriviaLength rest = 0 := by
    cases rest with
    | nil => rfl
    | cons t rest => exact lineTriviaLength_eq_zero (hrest t rfl)
  have hreads : Reads Production.body .lineTrivia
      ⟨rest, before.reverse, errors, false, limit, m⟩ _ := .lineTrivia _
  rw [Reading.takeLineTrivia, hlength] at hreads
  exact ⟨m, by rwa [List.append_nil]⟩

theorem recovered : Yields .recovered next [] := by
  intro before ts rest errors limit m hts _
  obtain rfl := List.map_eq_nil_iff.1 hts
  exact ⟨m, by simpa using Reads.recovered _⟩

theorem reads_take_two {s t : Reading}
    (h : Reads Production.body (.seq Grammar.bump Grammar.bump) s t) :
    Reads Production.body (.take 2) s t := by
  cases h with
  | seq hf hg =>
    cases hf
    cases hg
    exact .take 2 s

theorem take_two (hf : Yields Grammar.bump next' es) (hg : Yields Grammar.bump next es')
    (hnext : ∀ a, Begins (kindsOf es') next a → next' a) : Yields (.take 2) next (es ++ es') := by
  intro before ts rest errors limit m hts hrest
  obtain ⟨n, hn⟩ := hf.seq hg hnext before ts rest errors limit m hts hrest
  exact ⟨n, reads_take_two hn⟩

/-! ### Texts -/

/-- What is read of a text whose tokens are those of a tree, if they are read as the tree. -/
theorem exists_parse_eq {root : Element} {limit : Option Nat} {P : List SyntaxError → Prop}
    (hlex : Lexes .normal root.leaves)
    (h : ∀ (ts : List Token) (e : Token), ts.map Token.leaf = leavesOf [root] → e.kind = .eof →
      ∃ errors n, P errors ∧ Reads Production.body (.call .compilationUnit)
        ⟨ts ++ [e], [], [], false, limit, 0⟩ ⟨[e], [root], errors, false, limit, n⟩) :
    ∃ errors, P errors ∧ parse root.text limit = ⟨root, [], errors.reverse⟩ := by
  obtain ⟨e, hended, -⟩ := (covers_lex root.text).ended
  obtain ⟨htokens, herrors⟩ := lexes_iff_lex.1 hlex
  have hinit : (lex root.text).tokens.dropLast.map Token.leaf = leavesOf [root] := by
    rw [List.map_dropLast, leavesOf_cons]
    exact (congrArg List.dropLast htokens).trans (by simp)
  obtain ⟨errors, n, hP, hn⟩ := h _ e hinit hended.kind
  rw [← hended.eq] at hn
  obtain ⟨u, hu, -⟩ := Production.exists_read? .compilationUnit limit (lex root.text).tokens nofun
  obtain rfl := hn.unique (reads_of_enter hu)
  have hread : Production.compilationUnit.read limit (lex root.text).tokens =
      ⟨[e], [root], errors, false, limit, n⟩ := by
    rw [Production.read, hu]
    rfl
  have herrors : (lex root.text).errors = [] := herrors
  exact ⟨errors, hP, by
    simp [parse, parseTokens, hread, Reading.elements, Reading.recorded, herrors]⟩

/-- A text is read as a tree if its tokens are those of the tree and are read as it. -/
theorem parse_eq {root : Element} (h : Yields (.call .compilationUnit) Done [root])
    (hlex : Lexes .normal root.leaves) (limit : Option Nat) :
    parse root.text limit = ⟨root, [], []⟩ := by
  obtain ⟨errors, rfl, hparse⟩ := exists_parse_eq (P := (· = [])) hlex fun ts e hts he =>
    have ⟨n, hn⟩ := h [] ts [e] [] limit 0 hts ⟨e, rfl, he⟩
    ⟨[], n, rfl, hn⟩
  exact hparse

end Yields

namespace Gives

theorem yields (h : Gives g next es) : Yields g next es :=
  h [] nofun

/-- With a blank before the elements. -/
theorem led (h : Gives g next es) : Yields g next (Leaf.blank.element :: es) :=
  h [Leaf.blank.element] (List.forall_mem_singleton.2 rfl)

theorem mono (h : Gives g next' es) (hnext : ∀ a, next a → next' a) : Gives g next es :=
  fun lead hlead => (h lead hlead).mono hnext

theorem seq (hf : Gives f next' es) (hg : Yields g next es')
    (hnext : ∀ a, Begins (kindsOf es') next a → next' a) : Gives (.seq f g) next (es ++ es') := by
  intro lead hlead
  rw [← List.append_assoc]
  exact (hf lead hlead).seq hg hnext

theorem seq_nil (hf : Gives f next es) (hg : Yields g next []) : Gives (.seq f g) next es :=
  fun lead hlead => (hf lead hlead).seq_nil hg

/-- The first instruction has nothing to read. -/
theorem nil_seq (hf : Yields f next' []) (hg : Gives g next es)
    (hnext : ∀ a, Begins (kindsOf es) next a → next' a) : Gives (.seq f g) next es :=
  fun lead hlead => hf.seq (hg lead hlead) fun a ha => hnext a (kindsOf_lead hlead es ▸ ha)

theorem look (h : Gives g next es) (hg : ∀ a, Begins (kindsOf es) next a → choose a = g) :
    Gives (.look choose) next es :=
  fun lead hlead => (h lead hlead).look fun a ha => hg a (kindsOf_lead hlead es ▸ ha)

theorem call (h : Gives p.body next es) : Gives (.call p) next es :=
  fun lead hlead => (h lead hlead).call

theorem when (h : Gives body next es) (htest : ∀ a, Begins (kindsOf es) next a → test a = true) :
    Gives (when test body otherwise) next es :=
  h.look fun a ha => if_pos (htest a ha)

theorem not_when (h : Gives otherwise next es)
    (htest : ∀ a, Begins (kindsOf es) next a → test a = false) :
    Gives (Grammar.when test body otherwise) next es :=
  h.look fun a ha => if_neg (by simp [htest a ha])

theorem not_at (h : Gives otherwise next es)
    (hne : ∀ a, Begins (kindsOf es) next a → a.current ≠ k) :
    Gives (whenAt k body otherwise) next es :=
  h.not_when fun a ha => by simpa [isAt] using hne a ha

/-- The token of the kind comes. -/
theorem when_at (h : Gives body next es) (hes : First k es) :
    Gives (whenAt k body otherwise) next es :=
  h.when fun a ha => by simp [isAt, ha.current_of_first hes]

/-- A group that starts at a significant token. -/
theorem innerGroup_of_becomes (h : Becomes body next [] es after) (hes : Starts k es)
    (hafter : leavesOf es = leavesOf after) : Gives (innerGroup body) next after := by
  have hstarts : Starts k after := ⟨hes.1, hafter ▸ hes.2⟩
  intro lead hlead before
  rw [← List.append_assoc]
  exact (Yields.trivia hlead before).seq (h.group hafter _) fun a ha => ha.tight hstarts

theorem innerGroup (h : Yields body next es) (hes : Starts k es) :
    Gives (innerGroup body) next es :=
  innerGroup_of_becomes (h []) hes rfl

/-- A node that starts at a significant token. -/
theorem inner (h : Yields body next es) (hes : Starts k es) :
    Gives (inner kind body) next [.node kind es] := by
  intro lead hlead before
  rw [← List.append_assoc]
  exact (Yields.trivia hlead before).seq (h.node _) fun _ ha => ha.tight (hes.node kind [])

/-- A significant token. -/
theorem bump (l : Leaf) (hl : l.kind.isSolid = true) : Gives bump next [l.element] := by
  intro lead hlead before ts rest errors limit m hts _
  rw [leavesOf_append] at hts
  obtain ⟨ts, us, rfl, hlead', hus⟩ := List.map_eq_append_iff.1 hts
  obtain ⟨u, us, rfl, hu, hnil⟩ := List.map_eq_cons_iff.1 hus
  obtain rfl := List.map_eq_nil_iff.1 hnil
  have hu : u.leaf = l := hu
  have htight : Tight (u :: rest) := by
    intro v hv
    obtain rfl : u = v := by simpa using hv
    exact (congrArg Leaf.isTrivia hu).trans (Kind.isTrivia_of_isSolid hl)
  have helement : ofToken u = l.element := by rw [← hu, Leaf.element, ofToken, Token.leaf]
  have hkind : u.kind ≠ .eof := by
    rw [← hu] at hl
    exact Kind.ne_eof_of_isSolid hl
  have hreads : Reads Production.body (.take 1)
      ⟨ts ++ [u] ++ rest, before.reverse, errors, false, limit, m⟩ _ := .take 1 _
  rw [show ∀ s : Reading, s.bumps 1 = s.takeTrivia.takeToken from fun _ => rfl,
    Yields.takeTrivia_eq hlead (List.append_assoc ts [u] rest) hlead' htight,
    Reading.takeToken_cons rfl hkind] at hreads
  refine ⟨m, ?_⟩
  rw [List.reverse_append, List.reverse_append]
  simpa [helement, Grammar.bump] using hreads

/-- The token of a kind, and what comes after it. -/
theorem eat (l : Leaf) (hl : l.kind.isSolid = true) (h : Yields body next es) :
    Gives (eat l.kind body otherwise) next (l.element :: es) := by
  exact ((bump l hl).seq h fun _ _ => trivial).when_at (Starts.leaf hl es).first

theorem expect (l : Leaf) (hl : l.kind.isSolid = true)
    (h : Yields body next es) : Gives (expect l.kind body) next (l.element :: es) :=
  eat l hl h

theorem bump_seq (l : Leaf) (hl : l.kind.isSolid = true)
    (h : Yields g next es) : Gives (.seq Grammar.bump g) next (l.element :: es) :=
  have htoken : Gives Grammar.bump (fun _ => True) [l.element] := bump l hl
  htoken.seq h fun _ _ => trivial

theorem eat_seq (l : Leaf) (hl : l.kind.isSolid = true) (h : Yields g next es) :
    Gives (.seq (Grammar.eat l.kind .skip otherwise) g) next (l.element :: es) :=
  have htoken : Gives (Grammar.eat l.kind .skip otherwise) (fun _ => True) [l.element] :=
    eat l hl .skip
  htoken.seq h fun _ _ => trivial

/-- The first instruction is left out, and what comes is read. -/
theorem unless_seq (h : Gives g next es)
    (htest : ∀ a, Begins (kindsOf es) next a → test a = false) :
    Gives (.seq (Grammar.when test body) g) next es :=
  have hskip : Yields (Grammar.when test body) (Begins (kindsOf es) next) [] :=
    Yields.skip.not_when fun a ha => htest a ha.trans
  nil_seq hskip h fun _ ha => ha

/-- The token of a kind does not come, and what comes instead is read. -/
theorem absent_seq {l : Kind} (h : Gives g next es) (hes : First l es) (hl : l ≠ k) :
    Gives (.seq (whenAt k body) g) next es :=
  h.unless_seq fun a ha => by simpa [isAt, ha.current_of_first hes] using hl

/-- A node that starts with a token of its own. -/
theorem spread {l : Leaf} (hl : l.kind.isSolid = true) (h : Yields body next (spaced es)) :
    Gives (Grammar.inner kind (Grammar.bump >> body)) next
      [Element.spread kind (l.element :: es)] := by
  rw [Element.spread, intersperse_cons]
  exact inner (bump_seq l hl h).yields (.leaf hl _)

/-- A token that may be left out. -/
theorem optional_seq {l : Leaf} {e : Element} (hl : l.kind.isSolid = true) (given : Bool)
    (h : Gives g next ((e :: es).intersperse Leaf.blank.element)) (he : First k (e :: es))
    (hk : k ≠ l.kind) :
    Gives (.seq (Grammar.eat l.kind) g) next
      (((l.optional given).map Leaf.element ++ e :: es).intersperse Leaf.blank.element) := by
  cases given with
  | false => exact h.absent_seq (by rwa [First, kindsOf_intersperse]) hk
  | true => exact .eat_seq l hl h.led

/-- The end of a declaration. -/
theorem blockEnd (block : Block) :
    Gives (.call (.blockEnd block) >> .lineTrivia) Done [Kind.endKw.leaf.element] := by
  have hend : Gives (.call (.blockEnd block)) Done [Kind.endKw.leaf.element] :=
    .call (.eat Kind.endKw.leaf rfl .skip)
  exact hend.seq_nil (Yields.lineTrivia.mono fun _ ha => ha.tight)

end Gives

namespace Yields

/-- At the end of the input there are no more declarations. -/
theorem no_declarations : Yields (.call .declarations) Done [] := by
  refine .call (recovered.seq_nil (skip.look fun a ha => ?_))
  simp [ha.eof]

/-- A file with one declaration, which its first token announces. -/
theorem file {e : Element}
    (hdeclarations : Production.declarations.body = (.recovered >> .look choose))
    (hchoose : ∀ a : Ahead, a.current = k → choose a = (.call p >> .call .declarations))
    (h : Yields (.call p) Done [e]) (he : First k [e]) :
    Yields (.call .compilationUnit) Done [.node .compilationUnit [e]] := by
  have hone : Yields (.call .declarations) Done [e] :=
    .call (hdeclarations ▸ recovered.nil_seq ((h.seq_nil no_declarations).look fun a ha =>
      hchoose a (ha.current_of_first he)) he)
  have hend : Yields .trivia Done [] := mono (trivia nofun) fun _ ha => ha.tight
  exact .call (hone.seq_nil hend).node

end Yields

end Grammar

end RuleLang
