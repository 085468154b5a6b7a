import RuleLang.Proofs.Grammar.Agree
import RuleLang.Proofs.Grammar.Flushes
import RuleLang.Proofs.Grammar.SpendsRules

/-!
# Nodes end with significant tokens

Reading without complaint takes trivia into a node only before a significant token that it takes into
the node as well. So where the last token of a group is significant before an instruction, it is so
after it, provided that every node that is opened after trivia takes a token.

## Main definitions

* `Point.Shut` — the last token of the group is significant, and so are those of its nodes.
* `Production.isSealed`, `Production.fits` — the productions that keep a group shut, and where they may
  be entered.
* `Grammar.Shuts` — an instruction keeps a group shut.
-/

namespace RuleLang

open Element Grammar

/-! ## Taking tokens -/

namespace Ahead

/-- The last token that is taken is significant, if there are as many. -/
theorem exists_last_of_bump {a : Ahead} {n : Nat} (h : n + 1 ≤ a.significant) :
    ∃ before t, a.take (a.bumpLength (n + 1)) = before ++ [t] ∧ t.isTrivia = false := by
  induction a generalizing n with
  | nil => simp [significant, countUntil] at h
  | cons t ts ih =>
    by_cases ht : t.isTrivia = true
    · rw [significant_cons_trivia ht] at h
      obtain ⟨before, u, hbump, hu⟩ := ih h
      exact ⟨t :: before, u, by simp [bumpLength, ht, hbump], hu⟩
    · by_cases he : t.kind = .eof
      · rw [significant_eq_zero (by simp [current, nth, nthToken?, ht, he])] at h
        omega
      · rw [Bool.not_eq_true] at ht
        rw [significant_cons ht he] at h
        cases n with
        | zero =>
          have hzero : bumpLength 0 ts = 0 := by cases ts <;> rfl
          exact ⟨[], t, by simp [bumpLength, ht, he, hzero], ht⟩
        | succ n =>
          obtain ⟨before, u, hbump, hu⟩ := ih (Nat.le_of_succ_le_succ h)
          exact ⟨t :: before, u, by simp [bumpLength, ht, he, hbump], hu⟩

/-- A stretch that ends before `eof` has no more tokens than there are. -/
theorem stretch_le {σ : Type} {step : σ → Kind → Move σ} (heof : ∀ s, step s .eof = .halt) (s : σ)
    (a : Ahead) : stretch step s a ≤ a.significant := by
  induction a generalizing s with
  | nil => exact Nat.zero_le _
  | cons t ts ih =>
    by_cases ht : t.isTrivia = true
    · rw [significant_cons_trivia ht]
      simpa [stretch, ht] using ih s
    · by_cases he : t.kind = .eof
      · simp [stretch, ht, he, heof]
      · rw [significant_cons (by simpa using ht) he]
        simp only [stretch, ht, Bool.false_eq_true, if_false]
        split
        · exact Nat.zero_le _
        · exact Nat.le_add_left 1 _
        · exact Nat.succ_le_succ (ih _)

theorem balanced_le (a : Ahead) : (a.balanced 0).1 ≤ a.significant :=
  balanced_eq_stretch 0 a ▸ stretch_le (fun _ => rfl) 0 a

theorem untilClose_le (close : Kind) (a : Ahead) : a.untilClose close 0 ≤ a.significant :=
  untilClose_eq_stretch close 0 a ▸ stretch_le (fun _ => rfl) 0 a

theorem typeArguments_le (a : Ahead) : a.typeArguments 0 ≤ a.significant :=
  typeArguments_eq_stretch 0 a ▸ stretch_le (fun _ => rfl) 0 a

end Ahead

/-! ## Shut groups -/

namespace Point

/-- The last token of the group is significant, and so are the last tokens of its nodes. -/
structure Shut (x : Point) : Prop where
  nodes : AllNodes EndsInside x.group
  last : EndsSignificant (leavesOf x.group.reverse)

variable {x y z : Point} {n : Nat}

theorem Shut.nil (a : Ahead) : Shut ⟨a, []⟩ :=
  ⟨.nil, .nil⟩

theorem Takes.leaves (h : x.Takes n y) : leavesOf y.group.reverse =
    leavesOf x.group.reverse ++ (x.ahead.take n).map Token.leaf := by
  obtain ⟨ts, rfl, ha, hg⟩ := h
  rw [hg, ha, List.take_left, List.reverse_append, List.reverse_reverse, leavesOf_append,
    leavesOf_tokens]

/-- The last token that is taken is significant, if there are as many. -/
theorem Takes.shut_succ (h : x.Takes (x.ahead.bumpLength (n + 1)) y)
    (hn : n + 1 ≤ x.ahead.significant) (hx : AllNodes EndsInside x.group) : y.Shut := by
  obtain ⟨before, t, hbump, ht⟩ := Ahead.exists_last_of_bump hn
  refine ⟨h.allNodes hx, ?_⟩
  rw [h.leaves, hbump, List.map_append, ← List.append_assoc]
  exact EndsSignificant.concat ht

theorem Takes.shut (h : x.Takes (x.ahead.bumpLength n) y) (hn : n ≤ x.ahead.significant)
    (hx : x.Shut) : y.Shut := by
  cases n with
  | zero =>
    refine ⟨h.allNodes hx.nodes, ?_⟩
    have hzero : Ahead.bumpLength 0 x.ahead = 0 := by cases x.ahead <;> rfl
    rw [h.leaves, hzero, List.take_zero, List.map_nil, List.append_nil]
    exact hx.last
  | succ n => exact h.shut_succ hn hx.nodes

theorem Shut.enclose (hx : x.Shut) (k : Kind) : Shut ⟨x.ahead, [.node k x.group.reverse]⟩ := by
  refine ⟨allNodes_node.2 ⟨.inl ?_, allNodes_reverse.2 hx.nodes⟩, ?_⟩
  · rw [leaves_node]
    exact hx.last
  · simpa using hx.last

theorem Shut.join (hx : x.Shut) (hz : z.Shut) : Shut ⟨z.ahead, z.group ++ x.group⟩ := by
  refine ⟨allNodes_append.2 ⟨hz.nodes, hx.nodes⟩, ?_⟩
  rw [List.reverse_append, leavesOf_append]
  exact hx.last.append hz.last

/-- What is read after trivia closes the group, if it takes a token. -/
theorem Shut.join_after (hx : AllNodes EndsInside x.group) (hz : z.Shut)
    (hne : leavesOf z.group.reverse ≠ []) : Shut ⟨z.ahead, z.group ++ x.group⟩ := by
  refine ⟨allNodes_append.2 ⟨hz.nodes, hx⟩, ?_⟩
  rw [List.reverse_append, leavesOf_append]
  exact hz.last.right hne

end Point

/-! ## Productions -/

namespace Production

/-- The production keeps a group shut. -/
def isSealed (p : Production) : Bool :=
  !p.isTopLevel && p != .thenClause

/-- Where the production is entered by its callers. -/
def fits (p : Production) (a : Ahead) : Prop :=
  match p with
  | .attribute | .whenClause => a.current ≠ .eof
  | .binding | .field => 2 ≤ a.significant
  | .attributeList => a.current.isAttributeKeyword = true ∨ a.current = .ident
  | .operator => a.current ≠ .eof ∧ (a.current = .notKw → a.nth 1 ≠ .eof)
  | _ => True

end Production

namespace Grammar

open Production

variable {f g otherwise : Rule} {a : Ahead} {n : Nat}

/-- Productions nested at most `depth` deep keep a group shut. -/
def Seals (depth : Nat) : Prop :=
  ∀ p x y, p.isSealed = true → p.fits x.ahead → x.Shut → Enters body depth p x y → y.Shut

/-- Reading by an instruction without complaint keeps a group shut. -/
def Shuts (g : Rule) (a : Ahead) : Prop :=
  ∀ depth, Seals depth → ∀ x y, x.ahead = a → x.Shut → g.Accepts (Enters body depth) x y → y.Shut

/-- Reading by an instruction without complaint takes a significant token. -/
def TakesOne (g : Rule) (a : Ahead) : Prop :=
  ∀ x y, x.ahead = a → Accepted body g x y → y.ahead.significant < a.significant

/-- Reading without complaint moves tokens and keeps them all. -/
theorem Accepted.keeps {x y : Point} (h : Accepted body g x y) : ∃ taken,
    x.ahead = taken ++ y.ahead ∧
      leavesOf y.group.reverse = leavesOf x.group.reverse ++ taken.map Token.leaf := by
  obtain ⟨t, ht⟩ := h.follows (s := ⟨x.ahead, x.group, [], false, none, 0⟩) ⟨rfl, rfl⟩
  obtain ⟨taken, hahead, -, hleaves⟩ := ht.reads.keeps
  rw [← ht.point]
  exact ⟨taken, hahead, hleaves⟩

namespace TakesOne

theorem ne_nil {x y : Point} (h : TakesOne g x.ahead) (hg : Accepted body g x y) :
    leavesOf y.group.reverse ≠ [] := by
  obtain ⟨taken, hahead, hleaves⟩ := hg.keeps
  have hlt := h x y rfl hg
  rw [hleaves]
  rintro hnil
  obtain rfl : taken = [] := by simpa using (List.append_eq_nil_iff.1 hnil).2
  rw [List.nil_append] at hahead
  rw [hahead] at hlt
  exact lt_irrefl _ hlt

theorem of_spends (h : Spends 1 g a) : TakesOne g a := by
  rintro x y ha ⟨depth, hg⟩
  exact h _ (Production.obeys depth) x y ha hg

theorem enclose {k : Kind} (h : TakesOne g a) : TakesOne (.enclose k g) a := by
  rintro x y ha ⟨depth, z, hz, rfl⟩
  exact h x z ha ⟨depth, hz⟩

theorem call {p : Production} (h : TakesOne p.body a) : TakesOne (.call p) a := by
  rintro x y ha ⟨depth, hp⟩
  cases depth with
  | zero => exact hp.elim
  | succ depth => exact h x y ha ⟨depth, hp⟩

end TakesOne

namespace Shuts

theorem skip : Shuts .skip a := by
  rintro depth - x y - hx h
  obtain rfl : y = x := h
  exact hx

theorem complain {c : Complaint} : Shuts (.complain c) a := by
  rintro depth - x y - hx ⟨-, rfl⟩
  exact hx

theorem take (h : n ≤ a.significant) : Shuts (.take n) a := by
  rintro depth - x y rfl hx hy
  exact Point.Takes.shut hy h hx

theorem bump (h : a.current ≠ .eof) : Shuts .bump a :=
  take (Ahead.one_le_significant h)

/-- A token of a kind of its own. -/
theorem bumpAt {c : Kind} (h : a.current = c) (hc : (c == .eof) = false) : Shuts .bump a :=
  bump (Ahead.current_ne_eof h hc)

theorem two (h : a.current ≠ .eof) (hnext : a.nth 1 ≠ .eof) : Shuts (.take 2) a :=
  take (Ahead.two_le_significant h hnext)

/-- Two tokens that the grammar asks for. -/
theorem twoAt {c : Kind} {q : Kind → Bool} (h : (a.isAt c && q (a.nth 1)) = true)
    (hc : (c == .eof || q .eof) = false) : Shuts (.take 2) a := by
  obtain ⟨hat, hnext⟩ := Bool.and_eq_true_iff.1 h
  obtain ⟨hc, heof⟩ := Bool.or_eq_false_iff.1 hc
  refine two (ne_eof_of_isAt hat hc) fun he => ?_
  rw [he, heof] at hnext
  cases hnext

/-- What comes after may depend on what was read. -/
theorem seq_of (hf : Shuts f a)
    (hg : ∀ enters x z, x.ahead = a → f.Accepts enters x z → Shuts g z.ahead) :
    Shuts (f >> g) a := by
  rintro depth hd x y ha hx ⟨z, hz, hy⟩
  exact hg _ x z ha hz depth hd z y rfl (hf depth hd x z ha hx hz) hy

theorem seq (hf : Shuts f a) (hg : ∀ b, Shuts g b) : Shuts (f >> g) a :=
  hf.seq_of fun _ _ z _ _ => hg z.ahead

/-- What takes nothing does not count. -/
theorem idle_seq (hf : ∀ enters x y, f.Accepts enters x y → y = x) (hg : Shuts g a) :
    Shuts (f >> g) a := by
  rintro depth hd x y ha hx ⟨z, hz, hy⟩
  exact hg depth hd x y ha hx (hf _ x z hz ▸ hy)

/-- After an error nothing counts. -/
theorem complain_seq {c : Complaint} (hc : c.isWarning = false) : Shuts (.complain c >> g) a := by
  rintro depth - x y - - ⟨z, ⟨hwarning, -⟩, -⟩
  rw [hc] at hwarning
  cases hwarning

theorem fail_seq {c : Kind → Complaint} (hc : ∀ k, (c k).isWarning = false) :
    Shuts (.fail c >> g) a := by
  rintro depth - x y - - ⟨z, hz, -⟩
  exact (not_accepts_fail hc hz).elim

theorem look {choose : Ahead → Rule} (h : Shuts (choose a) a) : Shuts (.look choose) a := by
  rintro depth hd x y rfl
  exact h depth hd x y rfl

theorem ifRecovering (h : Shuts g a) : Shuts (.ifRecovering f g) a :=
  fun depth hd x y ha hx hy => h depth hd x y ha hx hy

theorem call {p : Production} (hp : p.isSealed = true) (h : p.fits a) : Shuts (.call p) a := by
  rintro depth hd x y rfl hx hy
  exact hd p x y hp h hx hy

theorem group (h : Shuts g a) : Shuts (.group g) a := by
  rintro depth hd x y rfl hx ⟨z, hz, rfl⟩
  exact hx.join (h depth hd ⟨x.ahead, []⟩ z rfl (.nil _) hz)

theorem enclose {k : Kind} (h : Shuts g a) : Shuts (.enclose k g) a := by
  rintro depth hd x y rfl hx ⟨z, hz, rfl⟩
  exact (h depth hd x z rfl hx hz).enclose k

/-- Trivia goes to the group only before a token. -/
theorem innerGroup (hone : TakesOne g a.afterTrivia) (h : Shuts g a.afterTrivia) :
    Shuts (.innerGroup g) a := by
  rintro depth hd x y rfl hx ⟨w, hw, z, hz, rfl⟩
  have hahead := (accepts_trivia hw).1
  rw [← hahead] at hone h
  refine Point.Shut.join_after (Point.Takes.allNodes hw hx.nodes)
    (h depth hd ⟨w.ahead, []⟩ z rfl (.nil _) hz) ?_
  exact TakesOne.ne_nil (x := ⟨w.ahead, []⟩) hone ⟨depth, hz⟩

theorem inner {k : Kind} (hone : TakesOne g a.afterTrivia) (h : Shuts g a.afterTrivia) :
    Shuts (.inner k g) a :=
  innerGroup hone.enclose h.enclose

/-! ## Derived instructions -/

/-- Where no token is left, none is taken. -/
theorem of_takesOne (hone : TakesOne g a) (h : a.current ≠ .eof → Shuts g a) : Shuts g a := by
  rintro depth hd x y rfl hx hy
  refine h (fun he => ?_) depth hd x y rfl hx hy
  have := hone x y rfl ⟨depth, hy⟩
  rw [Ahead.significant_eq_zero he] at this
  omega

theorem when {test : Ahead → Bool} (hb : test a = true → Shuts g a)
    (ho : test a = false → Shuts otherwise a) : Shuts (.when test g otherwise) a := by
  refine look ?_
  cases htest : test a with
  | true => exact hb htest
  | false => exact ho htest

theorem whenAt {c : Kind} (hb : a.current = c → Shuts g a) (ho : Shuts otherwise a) :
    Shuts (.whenAt c g otherwise) a :=
  when (fun h => hb (beq_iff_eq.1 h)) fun _ => ho

theorem eat {c : Kind} (hc : (c == .eof) = false) (hb : ∀ b, Shuts g b) (ho : Shuts otherwise a) :
    Shuts (.eat c g otherwise) a :=
  whenAt (fun h => (bumpAt h hc).seq hb) ho

theorem eat_skip {c : Kind} (hc : (c == .eof) = false) : Shuts (.eat c) a :=
  eat hc (fun _ => skip) skip

theorem fail {c : Kind → Complaint} : Shuts (.fail c) a :=
  look complain

theorem expect {c : Kind} (hc : (c == .eof) = false) (hb : ∀ b, Shuts g b) :
    Shuts (.expect c g) a :=
  eat hc hb fail

theorem expect_skip {c : Kind} (hc : (c == .eof) = false) : Shuts (.expect c) a :=
  expect hc fun _ => skip

theorem bumpName (h : a.atName = true) : Shuts .bump a :=
  bump (ne_eof_of_atName h)

theorem expectName {role : Role} : Shuts (.expectName role) a :=
  when bumpName fun _ => fail

theorem balanced : Shuts .balanced a := by
  refine look (seq (take a.balanced_le) fun _ => ?_)
  split
  · exact skip
  · exact complain

theorem untilClose {close : Kind} : Shuts (.untilClose close) a :=
  look (take (a.untilClose_le close))

theorem recoverInParens : Shuts .recoverInParens a :=
  ifRecovering skip

/-- A node that starts with a token. -/
theorem inner_bump {k : Kind} (h : a.current ≠ .eof) (hg : ∀ b, Shuts g b) :
    Shuts (.inner k (.bump >> g)) a := by
  have h : a.afterTrivia.current ≠ .eof := by rwa [Ahead.current_afterTrivia]
  exact inner (.of_spends (Spends.bump h).left) ((bump h).seq hg)

/-- A node of some tokens. -/
theorem inner_take {k : Kind} (h : n + 1 ≤ a.significant) : Shuts (.inner k (.take (n + 1))) a := by
  have h : n + 1 ≤ a.afterTrivia.significant := by rwa [Ahead.significant_afterTrivia]
  exact inner (.of_spends ((Spends.take h).le (Nat.le_add_left 1 n))) (take h)

theorem inner_balanced {k : Kind} (h : Ahead.isOpening a.current = true) :
    Shuts (.inner k .balanced) a := by
  have h : Ahead.isOpening a.afterTrivia.current = true := by rwa [Ahead.current_afterTrivia]
  exact inner (.of_spends (Closes.balanced h).1) balanced

end Shuts

end Grammar

end RuleLang
