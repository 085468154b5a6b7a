import RuleLang.Proofs.Grammar.Cut
import RuleLang.Proofs.Grammar.SpendsRules

/-!
# Instructions that see only what they take

What an instruction reads without complaint is read in the same way if the input ends right after
it. Some decisions see one token more than what is taken; these instructions are followed by others
that take that token, so it is counted how many significant tokens have to be left.

## Main definitions

* `Grammar.Cuts` — reading is the same where the tokens that are read are cut out of the list.
* `Grammar.Confined` — an instruction reads in the same way there if all productions do.

## Main statements

* `Grammar.Confined.look_current`, `Grammar.Confined.look_two` — decisions that see one token or
  two.
* `Grammar.Confined.before` — what comes after an instruction takes the token that it sees.
-/

namespace RuleLang

open Grammar Production

namespace Grammar

variable {f g body otherwise : Rule} {n : Nat}

/-- What is read is read in the same way where it is cut out of the list together with `n`
significant tokens after it. -/
def Cuts (accepts : Point → Point → Prop) (n : Nat) : Prop :=
  ∀ ⦃b a' : Ahead⦄ ⦃x y : Point⦄, Ahead.Cut b x.ahead a' → accepts x y → b <:+ y.ahead →
    b.significant + n ≤ y.ahead.significant →
    ∃ c', Ahead.Cut b y.ahead c' ∧ accepts ⟨a', x.group⟩ ⟨c', y.group⟩

/-- All productions read in the same way where what they read is cut out of the list. -/
structure Local (enters : Production → Point → Point → Prop) : Prop where
  obeys : Obeys enters
  cuts (p : Production) : Cuts (enters p) 0

/-- What an instruction reads is read in the same way where it is cut out together with `n`
significant tokens after it, if productions do. -/
def Confined (n : Nat) (g : Rule) : Prop :=
  ∀ enters, Local enters → Cuts (g.Accepts enters) n

namespace Confined

/-! ## Instructions that decide nothing -/

theorem skip : Confined n .skip := by
  intro enters hE b a' x y hcut h hb hsig
  obtain rfl : y = x := h
  exact ⟨a', hcut, rfl⟩

theorem trivia : Confined n .trivia := by
  intro enters hE b a' x y hcut h hb hsig
  obtain ⟨c', hc, htakes⟩ := hcut.takes h hb
  refine ⟨c', hc, ?_⟩
  have hcount := hcut.triviaLength_eq (Ahead.Cut.count_le h hb)
  rwa [← hcount] at htakes

theorem lineTrivia : Confined n .lineTrivia := by
  intro enters hE b a' x y hcut h hb hsig
  obtain ⟨c', hc, htakes⟩ := hcut.takes h hb
  refine ⟨c', hc, ?_⟩
  have hcount := hcut.lineTriviaLength_eq (Ahead.Cut.count_le h hb)
  rwa [← hcount] at htakes

theorem take {k : Nat} : Confined n (.take k) := by
  intro enters hE b a' x y hcut h hb hsig
  obtain ⟨c', hc, htakes⟩ := hcut.takes h hb
  refine ⟨c', hc, ?_⟩
  have hcount := hcut.bumpLength_eq (Ahead.Cut.count_le h hb)
  rwa [← hcount] at htakes

theorem bump : Confined n .bump :=
  take

theorem recovered : Confined n .recovered := by
  intro enters hE b a' x y hcut h hb hsig
  obtain rfl : y = x := h
  exact ⟨a', hcut, rfl⟩

theorem call {p : Production} : Confined n (.call p) :=
  fun _ hE _ _ _ _ hcut hp hb hsig => hE.cuts p hcut hp hb (Nat.le_of_add_right_le hsig)

/-- What is never read without complaint. -/
theorem of_never (h : ∀ enters x y, ¬ g.Accepts enters x y) : Confined n g :=
  fun enters _ _ _ x y _ hg _ _ => absurd hg (h enters x y)

theorem complain {c : Complaint} (hc : c.isWarning = false) : Confined n (.complain c) :=
  of_never fun _ _ _ h => by simp [Accepts, hc] at h

theorem complain_seq {c : Complaint} (hc : c.isWarning = false) :
    Confined n (.complain c >> g) := by
  refine of_never ?_
  rintro enters x y ⟨z, ⟨hwarning, -⟩, -⟩
  rw [hc] at hwarning
  cases hwarning

theorem fail {c : Kind → Complaint} (hc : ∀ k, (c k).isWarning = false) : Confined n (.fail c) :=
  of_never fun _ _ _ h => not_accepts_fail hc h

theorem fail_seq {c : Kind → Complaint} (hc : ∀ k, (c k).isWarning = false) :
    Confined n (.fail c >> g) := by
  refine of_never ?_
  rintro enters x y ⟨z, hz, -⟩
  exact not_accepts_fail hc hz

/-! ## Instructions put together -/

/-- What comes after an instruction takes tokens that it sees. -/
theorem seq_of {m k : Nat} (hf : Confined m f) (hg : Confined n g) (hs : ∀ a, Spends k g a)
    (hm : m ≤ n + k) : Confined n (f >> g) := by
  rintro enters hE b a' x y hcut ⟨z, hz, hy⟩ hb hsig
  have hpasses := hE.obeys.accepts_passes hy
  have hspends := hs z.ahead enters hE.obeys z y rfl hy
  obtain ⟨d', hd, hz'⟩ := hf enters hE hcut hz (hb.trans hpasses.suffix) (by omega)
  obtain ⟨c', hc, hy'⟩ := hg enters hE hd hy hb hsig
  exact ⟨c', hc, ⟨d', z.group⟩, hz', hy'⟩

theorem seq (hf : Confined n f) (hg : Confined n g) : Confined n (f >> g) :=
  seq_of hf hg (fun _ => .zero) le_rfl

/-- What comes after an instruction takes the token that it sees. -/
theorem before (hf : Confined 1 f) (hg : Confined 0 g) (hs : ∀ a, Spends 1 g a) :
    Confined 0 (f >> g) :=
  seq_of hf hg hs le_rfl

theorem ifRecovering (h : Confined n g) : Confined n (.ifRecovering f g) :=
  h

theorem group (h : Confined n body) : Confined n (.group body) := by
  rintro enters hE b a' x y hcut ⟨z, hz, rfl⟩ hb hsig
  obtain ⟨c', hc, hz'⟩ := h enters hE (x := ⟨x.ahead, []⟩) hcut hz hb hsig
  exact ⟨c', hc, ⟨c', z.group⟩, hz', rfl⟩

theorem enclose {kind : Kind} (h : Confined n body) : Confined n (.enclose kind body) := by
  rintro enters hE b a' x y hcut ⟨z, hz, rfl⟩ hb hsig
  obtain ⟨c', hc, hz'⟩ := h enters hE hcut hz hb hsig
  exact ⟨c', hc, ⟨c', z.group⟩, hz', rfl⟩

theorem node {kind : Kind} (h : Confined n body) : Confined n (.node kind body) :=
  group (enclose h)

theorem inner {kind : Kind} (h : Confined n body) : Confined n (.inner kind body) :=
  seq trivia (node h)

theorem innerGroup (h : Confined n body) : Confined n (.innerGroup body) :=
  seq trivia (group h)

theorem ite {c : Prop} [Decidable c] (hf : Confined n f) (hg : Confined n g) :
    Confined n (if c then f else g) := by
  split
  · exact hf
  · exact hg

/-! ## Decisions -/

section

variable {choose : Ahead → Rule} {test : Ahead → Bool}

/-- A decision that is the same where what is read is cut out. -/
theorem look_of_accepts (h : ∀ a, Confined n (choose a))
    (same : ∀ enters, Local enters → ∀ b a' x y, Ahead.Cut b x.ahead a' →
      (choose x.ahead).Accepts enters x y → b <:+ y.ahead →
      b.significant + n ≤ y.ahead.significant → choose a' = choose x.ahead) :
    Confined n (.look choose) := by
  intro enters hE b a' x y hcut hy hb hsig
  obtain ⟨c', hc, hy'⟩ := h x.ahead enters hE hcut hy hb hsig
  refine ⟨c', hc, ?_⟩
  rwa [← same enters hE b a' x y hcut hy hb hsig] at hy'

/-- A decision that is the same, or takes more tokens than there are. -/
theorem look (h : ∀ a, Confined n (choose a))
    (same : ∀ {b a a'}, Ahead.Cut b a a' → choose a' = choose a ∨
      ∃ k, Spends k (choose a) a ∧ a.significant < b.significant + n + k) :
    Confined n (.look choose) := by
  refine look_of_accepts h fun enters hE b a' x y hcut hy hb hsig => ?_
  rcases same hcut with heq | ⟨k, hk, hlt⟩
  · exact heq
  · have := hk enters hE.obeys x y rfl hy
    omega

/-- A decision on two tokens: where fewer tokens are left, it is the same or takes more. -/
theorem look_two (h : ∀ a, Confined n (choose a))
    (two : ∀ {a a'}, a'.current = a.current → a'.adjacent = a.adjacent → a'.nth 1 = a.nth 1 →
      choose a' = choose a)
    (one : ∀ {a a'}, a'.current = a.current → a'.adjacent = a.adjacent → a'.nth 1 = .eof →
      choose a' = choose a ∨ Spends 2 (choose a) a)
    (none : ∀ {a a'}, a'.current = .eof → choose a' = choose a ∨ Spends 1 (choose a) a) :
    Confined n (.look choose) := by
  refine look h fun {b a a'} hcut => ?_
  rcases hcut.seen with ⟨hsig, hcur⟩ | ⟨hlt, hcur, ⟨hsig, hnext⟩ | ⟨-, hnext⟩⟩
  · exact (none hcur).imp_right fun hs => ⟨1, hs, by omega⟩
  · exact (one hcur (hcut.adjacent_eq hlt) hnext).imp_right fun hs => ⟨2, hs, by omega⟩
  · exact .inl (two hcur (hcut.adjacent_eq hlt) hnext)

/-- A decision on the current token: where none is left, it is the same or takes one. -/
theorem look_current (h : ∀ a, Confined n (choose a))
    (one : ∀ {a a'}, a'.current = a.current → a'.adjacent = a.adjacent → choose a' = choose a)
    (none : ∀ {a a'}, a'.current = .eof → choose a' = choose a ∨ Spends 1 (choose a) a) :
    Confined n (.look choose) :=
  look_two h (fun hcur hadj _ => one hcur hadj) (fun hcur hadj _ => .inl (one hcur hadj)) none

/-- Something that takes tokens, or nothing. -/
theorem skip_or_spends {c : Prop} [Decidable c] {k : Nat} {a : Ahead} (hs : c → Spends k g a) :
    .skip = (if c then g else .skip) ∨ Spends k (if c then g else .skip) a := by
  split
  · rename_i hc
    exact .inr (hs hc)
  · exact .inl rfl

theorem when_two (hb : Confined n body) (ho : Confined n otherwise)
    (two : ∀ {a a'}, a'.current = a.current → a'.nth 1 = a.nth 1 → test a' = test a)
    (one : ∀ {a a'}, a'.current = a.current → a'.nth 1 = .eof → test a' = true → test a = true)
    (none : ∀ {a}, a.current = .eof → test a = false)
    (hs : ∀ {a}, test a = true → Spends 2 body a) : Confined n (.when test body otherwise) := by
  refine look_two (fun a => .ite hb ho) (fun hcur _ hnext => by rw [two hcur hnext])
    (fun {a a'} hcur _ hnext => ?_) fun {a a'} hcur => ?_
  · cases ha : test a with
    | true => exact .inr (by simpa using hs ha)
    | false =>
      left
      cases ha' : test a' with
      | true => rw [one hcur hnext ha'] at ha; cases ha
      | false => rfl
  · rw [none hcur]
    cases ha : test a with
    | true => exact .inr (by simpa using (hs ha).le (by decide))
    | false => exact .inl rfl

theorem when (hb : Confined n body) (ho : Confined n otherwise)
    (one : ∀ {a a'}, a'.current = a.current → a'.adjacent = a.adjacent → test a' = test a)
    (none : ∀ {a}, a.current = .eof → test a = false)
    (hs : ∀ {a}, test a = true → Spends 1 body a) : Confined n (.when test body otherwise) := by
  refine look_current (fun a => .ite hb ho) (fun hcur hadj => by rw [one hcur hadj])
    fun {a a'} hcur => ?_
  rw [none hcur]
  cases ha : test a with
  | true => exact .inr (by simpa using hs ha)
  | false => exact .inl rfl

/-- A test of two tokens, each of which excludes the end of the input. -/
theorem when_pair {p q : Kind → Bool} (hp : p .eof = false) (hq : q .eof = false)
    (hb : Confined n body) (ho : Confined n otherwise)
    (hs : ∀ {a : Ahead}, 2 ≤ a.significant → Spends 2 body a) :
    Confined n (.when (fun a => p a.current && q (a.nth 1)) body otherwise) := by
  refine when_two hb ho (fun hcur hnext => by rw [hcur, hnext]) (fun _ hnext h => ?_)
    (fun hcur => by rw [hcur, hp]; rfl) fun h => hs ?_
  · rw [hnext, hq, Bool.and_false] at h
    cases h
  · obtain ⟨hcur, hnext⟩ := Bool.and_eq_true_iff.1 h
    refine Ahead.two_le_significant (fun he => ?_) fun he => ?_
    · rw [he, hp] at hcur
      cases hcur
    · rw [he, hq] at hnext
      cases hnext

/-- A test of the current token. -/
theorem when_kind {q : Kind → Bool} (hq : q .eof = false) (hb : Confined n body)
    (ho : Confined n otherwise) (hs : ∀ {a : Ahead}, a.current ≠ .eof → Spends 1 body a) :
    Confined n (.when (fun a => q a.current) body otherwise) := by
  refine when hb ho (fun hcur _ => by rw [hcur]) (fun hcur => by rw [hcur, hq]) fun h => hs ?_
  intro he
  rw [he, hq] at h
  cases h

/-- A decision on a token that is left. -/
theorem when_left (hb : Confined 1 body) (ho : Confined 1 otherwise)
    (one : ∀ {a a'}, a'.current = a.current → test a' = test a) :
    Confined 1 (.when test body otherwise) := by
  refine look (fun a => .ite hb ho) fun {b a a'} hcut => ?_
  rcases hcut.seen with ⟨hsig, -⟩ | ⟨-, hcur, -⟩
  · exact .inr ⟨0, .zero, by omega⟩
  · exact .inl (by rw [one hcur])

end

theorem whenAt {c : Kind} (hc : (c == .eof) = false) (hb : Confined n body)
    (ho : Confined n otherwise) (hs : ∀ {a : Ahead}, a.current = c → Spends 1 body a) :
    Confined n (.whenAt c body otherwise) := by
  refine when hb ho (fun hcur _ => by rw [Ahead.isAt, Ahead.isAt, hcur]) (fun hcur => ?_)
    fun h => hs (beq_iff_eq.1 h)
  rw [Ahead.isAt, hcur, beq_eq_false_iff_ne]
  rintro rfl
  cases hc

theorem whenAt_left {c : Kind} (hb : Confined 1 body) (ho : Confined 1 otherwise) :
    Confined 1 (.whenAt c body otherwise) :=
  when_left hb ho fun hcur => by rw [Ahead.isAt, Ahead.isAt, hcur]

theorem eat {c : Kind} (hc : (c == .eof) = false) (hb : Confined n body)
    (ho : Confined n otherwise) : Confined n (.eat c body otherwise) :=
  whenAt hc (seq bump hb) ho fun h => (Spends.bump (Ahead.current_ne_eof h hc)).left

theorem eat_skip {c : Kind} (hc : (c == .eof) = false) : Confined n (.eat c) :=
  eat hc skip skip

theorem expect {c : Kind} (hc : (c == .eof) = false) (hb : Confined n body) :
    Confined n (.expect c body) :=
  eat hc hb (fail fun _ => rfl)

theorem expect_skip {c : Kind} (hc : (c == .eof) = false) : Confined n (.expect c) :=
  expect hc skip

theorem expectName {role : Role} : Confined n (.expectName role) :=
  when_kind (q := Kind.isName) rfl bump (fail fun _ => rfl) .bump

/-! ## Raw stretches -/

theorem balanced : Confined n .balanced := by
  rintro enters hE b a' x y hcut ⟨z, hz, hy⟩ hb hsig
  cases hclosed : (x.ahead.balanced 0).2 with
  | false =>
    rw [hclosed] at hy
    cases hy.1
  | true =>
    rw [hclosed] at hy
    obtain rfl : y = z := hy
    have hcount := Ahead.Cut.count_le hz hb
    obtain ⟨c', hc, hy'⟩ := take (n := n) enters hE hcut hz hb hsig
    rw [← hcut.balanced_eq hcount] at hy'
    refine ⟨c', hc, ⟨c', y.group⟩, hy', ?_⟩
    rw [hcut.closed hclosed hcount]
    rfl

theorem look_stretch {σ : Type} {step : σ → Kind → Ahead.Move σ} {s : σ} {count : Ahead → Nat}
    (hcount : ∀ a, count a = Ahead.stretch step s a) (heof : ∀ s, step s .eof = .halt) :
    Confined n (.look fun a => .take (count a)) := by
  intro enters hE b a' x y hcut h hb hsig
  have hle := Ahead.Cut.count_le h hb
  obtain ⟨c', hc, hy'⟩ := take (n := n) enters hE hcut h hb hsig
  refine ⟨c', hc, ?_⟩
  rw [hcount] at hle hy'
  rwa [← hcut.stretch_eq heof hle, ← hcount] at hy'

theorem untilClose {c : Kind} : Confined n (.untilClose c) :=
  look_stretch (Ahead.untilClose_eq_stretch c 0) fun _ => rfl

theorem typeArguments : Confined n (.look fun a => .take (a.typeArguments 0)) :=
  look_stretch (Ahead.typeArguments_eq_stretch 0) fun _ => rfl

theorem recoverInParens : Confined n .recoverInParens :=
  ifRecovering skip

end Confined

end Grammar

end RuleLang
