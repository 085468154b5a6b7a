import RuleLang.Proofs.Grammar.Makes
import RuleLang.Proofs.Grammar.Spacing
import RuleLang.Proofs.Lexer.Part
import RuleLang.Proofs.Parser.Sealed

/-!
# How many tokens reading takes

Reading without complaint takes some significant tokens at least, and most productions end with a
token that needs nothing after it. Both are counted over the instructions; what is known of a
production is what its callers count on.

## Main definitions

* `Ahead.Passes` — what is left after some tokens, none of them `eof`.
* `Production.least`, `Production.closes` — what the callers of a production count on.
* `Grammar.Obeys` — productions do what their callers count on.
* `Grammar.Spends` — an instruction takes as many significant tokens at least.
* `Grammar.Closes` — it does, and ends with a token that needs nothing after it.
-/

namespace RuleLang

open Grammar Production

/-! ## What is left -/

theorem Kind.isOpen_of_isName {k : Kind} (h : k.isName = true) : k.isOpen = false := by
  cases k <;> first | rfl | cases h

theorem Kind.isOpen_of_isClosing {k : Kind} (h : Ahead.isClosing k = true) : k.isOpen = false := by
  cases k <;> first | rfl | cases h

theorem Kind.isOpen_cases {k : Kind} (h : k.isOpen = true) : k = .bangDot ∨ k = .actionText := by
  cases k <;> first | exact .inl rfl | exact .inr rfl | cases h

theorem Kind.closed_of_isLiteral {k : Kind} (h : k.isLiteral = true) :
    k ≠ .eof ∧ k.isOpen = false := by
  cases k <;> first | exact ⟨by decide, rfl⟩ | cases h

theorem lastKind_cons_none (before : Option Kind) (ts : List Token) :
    lastKind before ts = (lastKind none ts).or before := by
  induction ts using List.reverseRecOn with
  | nil => rfl
  | append_singleton ts t ih =>
    simp only [lastKind, List.foldl_append, List.foldl_cons, List.foldl_nil] at ih ⊢
    split
    · exact ih
    · rfl

namespace Ahead

variable {a b c : Ahead}

/-- Some tokens, none of them `eof`, and then `b`. -/
def Passes (a b : Ahead) : Prop :=
  ∃ taken, a = taken ++ b ∧ ∀ t ∈ taken, t.kind ≠ .eof

namespace Passes

theorem refl (a : Ahead) : Passes a a :=
  ⟨[], rfl, by simp⟩

theorem trans (h : Passes a b) (k : Passes b c) : Passes a c := by
  obtain ⟨ts, rfl, hts⟩ := h
  obtain ⟨us, rfl, hus⟩ := k
  exact ⟨ts ++ us, by simp, fun t ht => (List.mem_append.1 ht).elim (hts t) (hus t)⟩

theorem suffix (h : Passes a b) : b <:+ a := by
  obtain ⟨ts, rfl, -⟩ := h
  exact List.suffix_append ts b

/-- What is left in the end is left of what is left before. -/
theorem of_suffix (h : Passes a b) (k : Passes a c) (hb : b <:+ c) : Passes c b := by
  obtain ⟨ts, rfl, hts⟩ := h
  obtain ⟨us, hus, -⟩ := k
  obtain ⟨vs, rfl⟩ := hb
  rw [← List.append_assoc] at hus
  obtain rfl := List.append_cancel_right hus
  exact ⟨vs, rfl, fun t ht => hts t (List.mem_append_right us ht)⟩

end Passes

theorem significant_append {ts : List Token} (hts : ∀ t ∈ ts, t.kind ≠ .eof) (b : Ahead) :
    significant (ts ++ b) = significant ts + significant b := by
  induction ts with
  | nil => simp [significant, countUntil]
  | cons t ts ih =>
    have ih := ih fun u hu => hts u (List.mem_cons_of_mem t hu)
    by_cases ht : t.isTrivia = true
    · rw [List.cons_append, significant_cons_trivia ht, significant_cons_trivia ht, ih]
    · rw [Bool.not_eq_true] at ht
      have he := hts t List.mem_cons_self
      rw [List.cons_append, significant_cons ht he, significant_cons ht he, ih]
      omega

theorem Passes.significant_le (h : Passes a b) : b.significant ≤ a.significant := by
  obtain ⟨ts, rfl, hts⟩ := h
  rw [significant_append hts]
  omega

theorem Passes.current_eof (h : Passes a b) (ha : a.current = .eof) : b.current = .eof := by
  obtain ⟨ts, rfl, hts⟩ := h
  exact current_append_eof hts ha

theorem significant_afterTrivia (a : Ahead) : a.afterTrivia.significant = a.significant :=
  countUntil_afterTrivia _ a

/-- Where no kind is last, no token was significant. -/
theorem significant_of_lastKind {ts : List Token} (h : lastKind none ts = none) :
    significant ts = 0 := by
  induction ts with
  | nil => rfl
  | cons t ts ih =>
    by_cases ht : t.isTrivia = true
    · rw [lastKind_cons_trivia ht] at h
      rw [significant_cons_trivia ht, ih h]
    · rw [lastKind_cons (by simpa using ht), lastKind_cons_none] at h
      exact absurd (Option.or_eq_none_iff.1 h).2 (by simp)

theorem significant_eq_zero (h : a.current = .eof) : a.significant = 0 :=
  countUntil_eq_zero rfl h

theorem significant_afterToken_le (a : Ahead) : a.afterToken.significant ≤ a.significant := by
  cases a with
  | nil => exact le_rfl
  | cons t ts =>
    by_cases he : t.kind = .eof
    · simp [afterToken, he]
    · have hle : significant ts ≤ significant (t :: ts) :=
        Passes.significant_le ⟨[t], rfl, by simpa using he⟩
      simpa [afterToken, he] using hle

/-- As many tokens are taken as there are. -/
theorem significant_after (n : Nat) (a : Ahead) :
    (a.after n).significant = a.significant - n := by
  induction n generalizing a with
  | zero => rfl
  | succ n ih =>
    rw [after, ih]
    by_cases hne : a.current = .eof
    · have := significant_afterToken_le a.afterTrivia
      rw [significant_afterTrivia, significant_eq_zero hne] at this
      rw [significant_eq_zero hne]
      omega
    · obtain ⟨t, ts, ha, hk, ht⟩ := afterTrivia_eq_cons hne
      have he : t.kind ≠ .eof := hk ▸ hne
      have hsig : a.significant = significant ts + 1 := by
        rw [← significant_afterTrivia, ha, significant_cons ht he]
      have htoken : a.afterTrivia.afterToken = ts := by simp [ha, afterToken, he]
      rw [htoken, hsig]
      omega

end Ahead

theorem Point.Takes.passes {x y : Point} {n : Nat} (h : x.Takes n y)
    (hne : ∀ t ∈ x.ahead.take n, t.kind ≠ .eof) : x.ahead.Passes y.ahead := by
  obtain ⟨ts, rfl, ha, -⟩ := h
  rw [ha, List.take_left] at hne
  exact ⟨ts, ha, hne⟩

/-! ## Kinds of last tokens -/

/-- The last token, if there is one, needs nothing after it. -/
def Closed (k : Option Kind) : Prop :=
  ∀ j, k = some j → j.isOpen = false

theorem Closed.append {ts us : List Token} (hts : Closed (lastKind none ts))
    (hus : Closed (lastKind none us)) : Closed (lastKind none (ts ++ us)) := by
  intro k hk
  rw [lastKind_append, lastKind_cons_none] at hk
  rcases Option.or_eq_some_iff.1 hk with hk | ⟨-, hk⟩
  · exact hus k hk
  · exact hts k hk

/-! ## What callers count on -/

namespace Production

/-- How many significant tokens the production takes at least, if it is read without complaint. -/
def least (p : Production) (a : Ahead) : Nat :=
  match p with
  | .compilationUnit | .declarations | .supertypes | .annotations | .fields | .attributeList
  | .attributes | .stringList | .nameParts | .dimensions | .conditions | .lhsOrRest | .lhsAndRest
  | .forallItems | .prefixOperands | .binaryRest _ | .relationalRest | .suffixes => 0
  | .attribute | .whenClause | .thenClause | .operator => if a.current == .eof then 0 else 1
  | .creationDims => if a.isAt .lBracket then 1 else 0
  | .binding | .field => min 2 a.significant
  | _ => 1

/-- The production reads an operand first. -/
def startsOperand : Production → Bool
  | .constraint | .expr | .ternary | .binary _ _ | .relational _ | .unary | .postfixed
  | .primary => true
  | _ => false

/-- The production ends with a token that needs nothing after it, if it takes one. -/
def closes (p : Production) (a : Ahead) : Bool :=
  match p with
  | .ruleDecl | .blockEnd _ | .stringList | .qualifiedName | .nameParts | .typeRef | .dimensions
  | .pattern | .constraint | .window | .source | .accumulate | .expr | .ternary | .binary _ _
  | .binaryRest _ | .relational _ | .relationalRest | .relationalRhs _ | .unary | .postfixed
  | .suffixes | .primary | .creation | .creationDims | .arrayInit | .argList => true
  | .attribute => !a.current.isOpen
  | _ => false

end Production

namespace Grammar

variable {enters : Production → Point → Point → Prop} {x y : Point}

/-- Nothing significant is left, or the last of the tokens that were taken needs nothing after
it. -/
def Rests (a b : Ahead) : Prop :=
  b.current = .eof ∨ ∀ taken, a = taken ++ b → Closed (lastKind none taken)

/-- Productions do what their callers count on. -/
structure Obeys (enters : Production → Point → Point → Prop) : Prop where
  passes {p : Production} {x y : Point} : enters p x y → x.ahead.Passes y.ahead
  least {p : Production} {x y : Point} : enters p x y →
    y.ahead.significant + p.least x.ahead ≤ x.ahead.significant
  operand {p : Production} {x y : Point} : enters p x y → p.startsOperand = true →
    x.ahead.current.isOpen = false
  rests {p : Production} {x y : Point} : enters p x y → p.closes x.ahead = true →
    Rests x.ahead y.ahead

theorem Obeys.accepts_passes (hE : Obeys enters) {g : Rule} (h : g.Accepts enters x y) :
    x.ahead.Passes y.ahead := by
  induction g generalizing x y with
  | skip | recovered =>
    obtain rfl : y = x := h
    exact .refl _
  | trivia =>
    refine Point.Takes.passes h fun t ht => ?_
    rw [Ahead.triviaLength, ← List.prefix_iff_eq_take.1 (List.takeWhile_prefix _)] at ht
    exact Reading.kind_ne_eof_of_isTrivia (List.mem_takeWhile_imp ht)
  | lineTrivia =>
    exact Point.Takes.passes h fun t ht =>
      Reading.kind_ne_eof_of_isTrivia (Reading.isTrivia_of_mem_lineTrivia ht)
  | take n => exact Point.Takes.passes h fun t ht => Reading.kind_ne_eof_of_mem_bump ht
  | seq f g ihf ihg =>
    obtain ⟨z, hf, hg⟩ := h
    exact (ihf hf).trans (ihg hg)
  | look choose ih => exact ih _ h
  | ifRecovering _ no _ ih => exact ih h
  | complain c =>
    obtain ⟨-, rfl⟩ := h
    exact .refl _
  | call p => exact hE.passes h
  | group body ih | enclose kind body ih =>
    obtain ⟨z, hz, rfl⟩ := h
    have := ih hz
    exact this

/-! ## Counting significant tokens -/

variable {f g body otherwise : Rule} {a : Ahead} {k l : Nat}

/-- Reading by an instruction without complaint takes at least `k` significant tokens. -/
def Spends (k : Nat) (g : Rule) (a : Ahead) : Prop :=
  ∀ enters, Obeys enters → ∀ x y, x.ahead = a → g.Accepts enters x y →
    y.ahead.significant + k ≤ a.significant

namespace Spends

theorem zero : Spends 0 g a := by
  rintro enters hE x y rfl h
  exact (hE.accepts_passes h).significant_le

theorem le (h : Spends k g a) (hl : l ≤ k) : Spends l g a := by
  intro enters hE x y ha hg
  have := h enters hE x y ha hg
  omega

theorem take {n : Nat} (hn : n ≤ a.significant) : Spends n (.take n) a := by
  rintro enters hE x y rfl h
  rw [ahead_of_take h, Ahead.significant_after]
  omega

theorem bump (h : a.current ≠ .eof) : Spends 1 .bump a :=
  take (Ahead.one_le_significant h)

/-- As many tokens as there are are taken. -/
theorem take_min {n s : Nat} (h : a.significant = s) : Spends (min n s) (.take n) a := by
  rintro enters hE x y rfl hy
  rw [ahead_of_take hy, Ahead.significant_after]
  omega

theorem seq (hf : Spends k f a) (hg : ∀ b, Spends l g b) : Spends (k + l) (f >> g) a := by
  rintro enters hE x y ha ⟨z, hz, hy⟩
  have := hf enters hE x z ha hz
  have := hg z.ahead enters hE z y rfl hy
  omega

theorem left (hf : Spends k f a) : Spends k (f >> g) a :=
  seq (l := 0) hf fun _ => zero

theorem right (hg : ∀ b, Spends k g b) : Spends k (f >> g) a :=
  (seq (k := 0) zero hg).le (Nat.le_add_left k 0)

/-- What takes nothing does not count. -/
theorem idle_seq (hf : ∀ enters x y, x.ahead = a → f.Accepts enters x y → y.ahead = a)
    (hg : Spends k g a) : Spends k (f >> g) a := by
  rintro enters hE x y ha ⟨z, hz, hy⟩
  exact hg enters hE z y (hf enters x z ha hz) hy

/-- What comes after one token. -/
theorem after_bump (h : a.current ≠ .eof) (hf : ∀ enters x y, x.ahead = a →
    f.Accepts enters x y → (Grammar.bump : Rule).Accepts enters x y) (hg : Spends k g (a.after 1)) :
    Spends (k + 1) (f >> g) a := by
  rintro enters hE x y rfl ⟨z, hz, hy⟩
  have := hg enters hE z y (ahead_of_take (hf enters x z rfl hz)) hy
  rw [Ahead.significant_after] at this
  have := Ahead.one_le_significant h
  omega

theorem look {choose : Ahead → Rule} (h : Spends k (choose a) a) : Spends k (.look choose) a := by
  rintro enters hE x y rfl
  exact h enters hE x y rfl

theorem of_look {choose : Ahead → Rule} (h : Spends k (.look choose) a) :
    Spends k (choose a) a := by
  rintro enters hE x y rfl
  exact h enters hE x y rfl

theorem when {test : Ahead → Bool} (hb : test a = true → Spends k body a)
    (ho : test a = false → Spends k otherwise a) : Spends k (.when test body otherwise) a := by
  refine look ?_
  cases htest : test a with
  | true => exact hb htest
  | false => exact ho htest

theorem complain {c : Complaint} (hc : c.isWarning = false) : Spends k (.complain c) a := by
  rintro enters hE x y - ⟨hwarning, -⟩
  rw [hc] at hwarning
  cases hwarning

theorem fail {c : Kind → Complaint} (hc : ∀ k, (c k).isWarning = false) : Spends k (.fail c) a :=
  look (complain (hc _))

theorem call {p : Production} (h : k ≤ p.least a) : Spends k (.call p) a := by
  rintro enters hE x y rfl hp
  have := hE.least hp
  omega

/-- An operand does not start with a token that needs something after it. -/
theorem call_operand {p : Production} (hp : p.startsOperand = true) (h : a.current.isOpen = true) :
    Spends k (.call p) a := by
  rintro enters hE x y rfl hy
  rw [hE.operand hy hp] at h
  cases h

theorem group (h : Spends k body a) : Spends k (.group body) a := by
  rintro enters hE x y rfl ⟨z, hz, rfl⟩
  exact h enters hE ⟨x.ahead, []⟩ z rfl hz

theorem enclose {kind : Kind} (h : Spends k body a) : Spends k (.enclose kind body) a := by
  rintro enters hE x y rfl ⟨z, hz, rfl⟩
  exact h enters hE x z rfl hz

theorem trivia_seq (h : Spends k g a.afterTrivia) : Spends k (.trivia >> g) a := by
  rintro enters hE x y rfl ⟨z, hz, hy⟩
  have := h enters hE z y (accepts_trivia hz).1 hy
  rwa [Ahead.significant_afterTrivia] at this

theorem node {kind : Kind} (h : Spends k body a) : Spends k (.node kind body) a :=
  group (enclose h)

theorem inner {kind : Kind} (h : Spends k body a.afterTrivia) : Spends k (.inner kind body) a :=
  trivia_seq (node h)

theorem innerGroup (h : Spends k body a.afterTrivia) : Spends k (.innerGroup body) a :=
  trivia_seq (group h)

theorem inner_bump {kind : Kind} (h : a.current ≠ .eof) :
    Spends 1 (.inner kind (Grammar.bump >> body)) a :=
  inner (bump (by rwa [Ahead.current_afterTrivia])).left

theorem whenAt {c : Kind} (hb : a.current = c → Spends k body a)
    (ho : a.current ≠ c → Spends k otherwise a) : Spends k (.whenAt c body otherwise) a :=
  when (fun h => hb (beq_iff_eq.1 h)) fun h => ho (beq_eq_false_iff_ne.1 h)

theorem eat {c : Kind} (hc : (c == .eof) = false) (ho : Spends 1 otherwise a) :
    Spends 1 (.eat c body otherwise) a :=
  whenAt (fun h => (bump (Ahead.current_ne_eof h hc)).left) fun _ => ho

theorem expect {c : Kind} (hc : (c == .eof) = false) : Spends 1 (.expect c body) a :=
  eat hc (fail fun _ => rfl)

end Spends

/-! ## Last tokens -/

/-- Reading by an instruction without complaint takes at least `k` significant tokens, and the last
of them needs nothing after it, or nothing significant is left. -/
def Closes (k : Nat) (g : Rule) (a : Ahead) : Prop :=
  Spends k g a ∧ ∀ enters, Obeys enters → ∀ x y, x.ahead = a → g.Accepts enters x y →
    Rests a y.ahead

theorem Rests.refl (a : Ahead) : Rests a a := by
  refine .inr fun taken h => ?_
  obtain rfl : taken = [] := by simpa using h
  exact fun k hk => by cases hk

/-- Trivia does not count. -/
theorem Rests.of_afterTrivia {a b : Ahead} (h : Rests a.afterTrivia b)
    (hb : b <:+ a.afterTrivia) : Rests a b := by
  refine h.imp_right fun hclosed taken ha => ?_
  obtain ⟨rest, hrest⟩ := hb
  have hsplit : a = a.takeWhile Token.isTrivia ++ rest ++ b := by
    rw [List.append_assoc, hrest]
    exact List.takeWhile_append_dropWhile.symm
  obtain rfl : taken = a.takeWhile Token.isTrivia ++ rest :=
    List.append_cancel_right (ha.symm.trans hsplit)
  rw [lastKind_append, lastKind_of_trivia none fun t ht => List.mem_takeWhile_imp ht]
  exact hclosed rest hrest.symm

theorem Rests.trans {a b c : Ahead} (hab : Rests a b) (hbc : Rests b c) (h : a.Passes b)
    (k : b.Passes c) : Rests a c := by
  rcases hab with heof | hab
  · exact .inl (k.current_eof heof)
  refine hbc.imp_right fun hbc taken ha => ?_
  obtain ⟨ts, rfl, -⟩ := h
  obtain ⟨us, rfl, -⟩ := k
  obtain rfl : taken = ts ++ us := by
    rw [← List.append_assoc] at ha
    exact (List.append_cancel_right ha).symm
  exact (hab ts rfl).append (hbc us rfl)

/-- The last tokens decide if one of them is significant. -/
theorem Rests.last {a b c : Ahead} (hbc : Rests b c) (h : a.Passes b) (k : b.Passes c)
    (hlt : c.significant + 1 ≤ b.significant) : Rests a c := by
  refine hbc.imp_right fun hbc taken ha => ?_
  obtain ⟨ts, rfl, -⟩ := h
  obtain ⟨us, rfl, hus⟩ := k
  obtain rfl : taken = ts ++ us := by
    rw [← List.append_assoc] at ha
    exact (List.append_cancel_right ha).symm
  have hclosed := hbc us rfl
  rw [Ahead.significant_append hus] at hlt
  intro j hj
  rw [lastKind_append, lastKind_cons_none] at hj
  rcases Option.or_eq_some_iff.1 hj with hj | ⟨hnone, -⟩
  · exact hclosed j hj
  · have := Ahead.significant_of_lastKind hnone
    omega

namespace Closes

theorem weaken (h : Closes k g a) : Closes 0 g a :=
  ⟨.zero, h.2⟩

theorem skip : Closes 0 .skip a := by
  refine ⟨.zero, ?_⟩
  rintro enters hE x y rfl h
  obtain rfl : y = x := h
  exact .refl _

/-- Where nothing significant is left, nothing is taken. -/
theorem of_current_eof (h : a.current = .eof) : Closes 0 g a := by
  refine ⟨.zero, ?_⟩
  rintro enters hE x y rfl hy
  exact .inl ((hE.accepts_passes hy).current_eof h)

theorem lineTrivia : Closes 0 .lineTrivia a := by
  refine ⟨.zero, ?_⟩
  rintro enters hE x y rfl h
  refine .inr fun taken htaken => ?_
  rw [h.taken_eq htaken, lastKind_of_trivia none fun _ => Reading.isTrivia_of_mem_lineTrivia]
  exact fun k hk => by cases hk

theorem take {n : Nat} (hn : n < a.significant) (hk : (a.nth n).isOpen = false) :
    Closes (n + 1) (.take (n + 1)) a := by
  refine ⟨.take hn, ?_⟩
  rintro enters hE x y rfl h
  refine .inr fun taken htaken => ?_
  rw [h.taken_eq htaken, Ahead.lastKind_bump hn]
  intro k hk'
  cases hk'
  exact hk

theorem bump (h : a.current ≠ .eof) (hk : a.current.isOpen = false) : Closes 1 .bump a :=
  take (n := 0) (Ahead.one_le_significant h) hk

/-- A token of a kind of its own. -/
theorem bumpAt {c : Kind} (h : a.current = c) (hc : (c == .eof || c.isOpen) = false) :
    Closes 1 .bump a := by
  obtain ⟨heof, hopen⟩ := Bool.or_eq_false_iff.1 hc
  exact bump (Ahead.current_ne_eof h heof) (h ▸ hopen)

theorem two (h : a.current ≠ .eof) (hnext : a.nth 1 ≠ .eof) (hk : (a.nth 1).isOpen = false) :
    Closes 1 (.take 2) a :=
  ⟨(Spends.take (Ahead.two_le_significant h hnext)).le (by decide),
    (take (n := 1) (Ahead.two_le_significant h hnext) hk).2⟩

/-- What comes after may take nothing. -/
theorem seq (hf : Closes k f a) (hg : ∀ b, Closes 0 g b) : Closes k (f >> g) a := by
  refine ⟨hf.1.left, ?_⟩
  rintro enters hE x y rfl ⟨z, hz, hy⟩
  exact (hf.2 enters hE x z rfl hz).trans ((hg z.ahead).2 enters hE z y rfl hy)
    (hE.accepts_passes hz) (hE.accepts_passes hy)

/-- What comes last decides if it takes a token. -/
theorem last (hg : ∀ b, Closes 1 g b) : Closes 1 (f >> g) a := by
  refine ⟨.right fun b => (hg b).1, ?_⟩
  rintro enters hE x y rfl ⟨z, hz, hy⟩
  exact ((hg z.ahead).2 enters hE z y rfl hy).last (hE.accepts_passes hz) (hE.accepts_passes hy)
    ((hg z.ahead).1 enters hE z y rfl hy)

/-- What takes nothing does not count. -/
theorem idle_seq (hf : ∀ enters x y, x.ahead = a → f.Accepts enters x y → y.ahead = a)
    (hg : Closes k g a) : Closes k (f >> g) a := by
  refine ⟨.idle_seq hf hg.1, ?_⟩
  rintro enters hE x y ha ⟨z, hz, hy⟩
  exact hg.2 enters hE z y (hf enters x z ha hz) hy

theorem look {choose : Ahead → Rule} (h : Closes k (choose a) a) : Closes k (.look choose) a := by
  refine ⟨.look h.1, ?_⟩
  rintro enters hE x y rfl
  exact h.2 enters hE x y rfl

theorem when {test : Ahead → Bool} (hb : test a = true → Closes k body a)
    (ho : test a = false → Closes k otherwise a) : Closes k (.when test body otherwise) a := by
  refine look ?_
  cases htest : test a with
  | true => exact hb htest
  | false => exact ho htest

theorem complain {c : Complaint} (hc : c.isWarning = false) : Closes k (.complain c) a := by
  refine ⟨.complain hc, ?_⟩
  rintro enters hE x y - ⟨hwarning, -⟩
  rw [hc] at hwarning
  cases hwarning

theorem fail {c : Kind → Complaint} (hc : ∀ k, (c k).isWarning = false) : Closes k (.fail c) a :=
  look (complain (hc _))

theorem call {p : Production} (h : k ≤ p.least a) (hp : p.closes a = true) :
    Closes k (.call p) a := by
  refine ⟨.call h, ?_⟩
  rintro enters hE x y rfl hy
  exact hE.rests hy hp

theorem group (h : Closes k body a) : Closes k (.group body) a := by
  refine ⟨.group h.1, ?_⟩
  rintro enters hE x y rfl ⟨z, hz, rfl⟩
  exact h.2 enters hE ⟨x.ahead, []⟩ z rfl hz

theorem enclose {kind : Kind} (h : Closes k body a) : Closes k (.enclose kind body) a := by
  refine ⟨.enclose h.1, ?_⟩
  rintro enters hE x y rfl ⟨z, hz, rfl⟩
  exact h.2 enters hE x z rfl hz

theorem trivia_seq (h : Closes k g a.afterTrivia) : Closes k (.trivia >> g) a := by
  refine ⟨.trivia_seq h.1, ?_⟩
  rintro enters hE x y rfl ⟨z, hz, hy⟩
  have hahead := (accepts_trivia hz).1
  exact (h.2 enters hE z y hahead hy).of_afterTrivia (hahead ▸ (hE.accepts_passes hy).suffix)

theorem node {kind : Kind} (h : Closes k body a) : Closes k (.node kind body) a :=
  group (enclose h)

theorem inner {kind : Kind} (h : Closes k body a.afterTrivia) : Closes k (.inner kind body) a :=
  trivia_seq (node h)

theorem innerGroup (h : Closes k body a.afterTrivia) : Closes k (.innerGroup body) a :=
  trivia_seq (group h)

theorem whenAt {c : Kind} (hb : a.current = c → Closes k body a)
    (ho : a.current ≠ c → Closes k otherwise a) : Closes k (.whenAt c body otherwise) a :=
  when (fun h => hb (beq_iff_eq.1 h)) fun h => ho (beq_eq_false_iff_ne.1 h)

/-- A token of a kind of its own, and what comes after it. -/
theorem eat {c : Kind} (hc : (c == .eof || c.isOpen) = false) (hb : ∀ b, Closes 0 body b)
    (ho : Closes 1 otherwise a) : Closes 1 (.eat c body otherwise) a :=
  whenAt (fun h => (bumpAt h hc).seq hb) fun _ => ho

theorem expect {c : Kind} (hc : (c == .eof || c.isOpen) = false) (hb : ∀ b, Closes 0 body b) :
    Closes 1 (.expect c body) a :=
  eat hc hb (fail fun _ => rfl)

theorem expect_skip {c : Kind} (hc : (c == .eof || c.isOpen) = false) : Closes 1 (.expect c) a :=
  expect hc fun _ => skip

theorem bumpName (h : a.atName = true) : Closes 1 .bump a :=
  bump (ne_eof_of_atName h) (Kind.isOpen_of_isName h)

theorem balanced (h : Ahead.isOpening a.current = true) : Closes 1 .balanced a := by
  have hne : a.current ≠ .eof := fun he => by rw [he] at h; cases h
  have hclosed {enters : Production → Point → Point → Prop} {x y : Point} (ha : x.ahead = a)
      (hb : (Grammar.balanced : Rule).Accepts enters x y) :
      (a.balanced 0).2 = true ∧ x.Takes (a.bumpLength (a.balanced 0).1) y := by
    subst ha
    obtain ⟨z, hz, hy⟩ := hb
    cases hc : (x.ahead.balanced 0).2 with
    | true =>
      rw [hc] at hy
      obtain rfl : y = z := hy
      exact ⟨rfl, hz⟩
    | false =>
      rw [hc] at hy
      cases hy.1
  constructor
  · rintro enters hE x y rfl hb
    have htake : (Grammar.take (x.ahead.balanced 0).1 : Rule).Accepts enters x y :=
      (hclosed rfl hb).2
    have hpos : 0 < (x.ahead.balanced 0).1 := Ahead.balanced_pos hne
    have := Ahead.one_le_significant hne
    rw [ahead_of_take htake, Ahead.significant_after]
    omega
  · rintro enters hE x y rfl hb
    obtain ⟨hclosed, htake⟩ := hclosed rfl hb
    refine .inr fun taken htaken => ?_
    obtain ⟨k, hk, hlast⟩ := Ahead.lastKind_balanced (.inr h) hclosed none
    rw [htake.taken_eq htaken, hlast]
    intro j hj
    obtain rfl := Option.some.inj hj
    exact Kind.isOpen_of_isClosing hk

end Closes

end Grammar

end RuleLang
