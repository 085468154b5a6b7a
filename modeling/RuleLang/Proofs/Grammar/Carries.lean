import RuleLang.Proofs.Grammar.Agree

/-!
# Reading a changed token list

A tree may be changed in a few places, and with it the tokens that it is read from. That the changed
tokens are read as the changed tree is shown from the right to the left: whatever comes after a
stretch of tokens and corresponds to what came there before, the stretch is read again, and gives the
images of the elements that it gave before.

## Main definitions

* `Correspondence` — what becomes of elements, and how the tokens ahead correspond.
* `Grammar.Carries` — an instruction reads the changed tokens as the changed elements.

## Main statements

* `Grammar.Carries.seq`, `Grammar.Carries.look`, `Grammar.Carries.node`, … — how instructions that
  do so are put together.
-/

namespace RuleLang

open Ahead

/-- Nodes that a change may treat in a way of its own: what is joined, and what is left alone. -/
def Kind.isSensitive : Kind → Bool
  | .lhsAnd | .lhsOr | .pattern | .lhsEval | .thenClause | .functionDecl
  | .binaryExpr | .halfConstraint => true
  | _ => false

/-- A change of elements together with what it does to the tokens ahead. -/
structure Correspondence where
  /-- What becomes of an element that stands by itself. -/
  image : Element → Element
  /-- The kinds of nodes whose children do not just give way to their images. -/
  special : Kind → Bool
  Related : Ahead → Ahead → Prop
  agree : ∀ {a b : Ahead}, Related a b → Agree a b
  append : ∀ {ts us : List Token} {a b : Ahead}, ts.map Token.leaf = us.map Token.leaf →
    Related a b → Related (ts ++ a) (us ++ b)
  special_isSensitive : ∀ k, special k = true → k.isSensitive = true
  image_token : ∀ k t, image (.token k t) = .token k t
  image_node : ∀ k cs, special k = false → image (.node k cs) = .node k (cs.map image)

/-- What becomes of elements within a node of a special kind: trivia stays, and nodes become their
images as they do anywhere else. -/
structure Correspondence.Fits (C : Correspondence) (φ : Element → Element) : Prop where
  trivia : ∀ k t, k.isTrivia = true → φ (.token k t) = .token k t
  node : ∀ k cs, φ (.node k cs) = C.image (.node k cs)

theorem Correspondence.not_special (C : Correspondence) {k : Kind} (h : k.isSensitive = false) :
    C.special k = false := by
  by_contra hk
  have := C.special_isSensitive k (by simpa using hk)
  simp [h] at this

theorem Correspondence.fits_image (C : Correspondence) : C.Fits C.image where
  trivia k t _ := C.image_token k t
  node _ _ := rfl

namespace Grammar

variable {P : Type}

/-- An instruction reads the changed tokens as the changed elements, in a group whose elements are
changed by `φ`. -/
def Carries (rules : P → Grammar P) (C : Correspondence) (enters : P → Point → Point → Prop)
    (φ : Element → Element) (g : Grammar P) : Prop :=
  ∀ x y, g.Accepts enters x y → ∃ leaves : List Leaf, ∀ us b, us.map Token.leaf = leaves →
    C.Related y.ahead b →
    C.Related x.ahead (us ++ b) ∧
      Accepted rules g ⟨us ++ b, x.group.map φ⟩ ⟨b, y.group.map φ⟩

/-- An instruction that does not accept with these tokens ahead. -/
def RejectsAt (enters : P → Point → Point → Prop) (a : Ahead) (g : Grammar P) : Prop :=
  ∀ x y, x.ahead = a → ¬g.Accepts enters x y

variable {rules : P → Grammar P} {C : Correspondence} {enters : P → Point → Point → Prop}
  {φ : Element → Element} {a : Ahead}

theorem rejects_complain {c : Complaint} (h : c.isWarning = false) :
    RejectsAt enters a (.complain c) := by
  rintro x y - ⟨hc, -⟩
  simp [h] at hc

theorem rejects_fail {c : Kind → Complaint} (h : ∀ k, (c k).isWarning = false) :
    RejectsAt enters a (fail c) := by
  rintro x y - ⟨hc, -⟩
  simp [h] at hc

theorem RejectsAt.seq {f g : Grammar P} (h : RejectsAt enters a f) :
    RejectsAt enters a (f >> g) := by
  rintro x y hx ⟨z, hz, -⟩
  exact h x z hx hz

theorem carries_of_rejects {g : Grammar P} (h : ∀ a, RejectsAt enters a g) :
    Carries rules C enters φ g :=
  fun x y hg => absurd hg (h x.ahead x y rfl)

namespace Carries

/-! ## Nothing is taken -/

theorem skip : Carries rules C enters φ .skip := by
  rintro x y rfl
  refine ⟨[], fun us b hu hb => ?_⟩
  obtain rfl : us = [] := by simpa using hu
  exact ⟨hb, 0, rfl⟩

theorem recovered : Carries rules C enters φ .recovered := by
  rintro x y rfl
  refine ⟨[], fun us b hu hb => ?_⟩
  obtain rfl : us = [] := by simpa using hu
  exact ⟨hb, 0, rfl⟩

theorem complain (c : Complaint) : Carries rules C enters φ (.complain c) := by
  rintro x y ⟨hc, rfl⟩
  refine ⟨[], fun us b hu hb => ?_⟩
  obtain rfl : us = [] := by simpa using hu
  exact ⟨hb, 0, hc, rfl⟩

/-! ## Taking tokens -/

theorem map_ofToken_eq {ts us : List Token} (h : ts.map Token.leaf = us.map Token.leaf) :
    ts.map Element.ofToken = us.map Element.ofToken := by
  have hof : Element.ofToken = (fun l : Leaf => Element.token l.kind l.text) ∘ Token.leaf := rfl
  rw [hof, ← List.map_map, ← List.map_map, h]

/-- Tokens that stay as they are, taken by a count that is the same where they stand now. -/
theorem takes_of_keepsCount {count : Ahead → Nat} {x y : Point} {ts : List Token}
    (hlen : ts.length = count x.ahead) (hahead : x.ahead = ts ++ y.ahead)
    (hgroup : y.group = (ts.map Element.ofToken).reverse ++ x.group)
    (hφ : ∀ t ∈ ts, φ (.ofToken t) = .ofToken t) {us : List Token} {b : Ahead}
    (hcount : KeepsCount count y.ahead b) (hu : us.map Token.leaf = ts.map Token.leaf) :
    Point.Takes ⟨us ++ b, x.group.map φ⟩ (count (us ++ b)) ⟨b, y.group.map φ⟩ := by
  refine ⟨us, (hcount hu.symm (hahead ▸ hlen.symm)).symm, rfl, ?_⟩
  have hmap : (ts.map Element.ofToken).map φ = ts.map Element.ofToken := by
    rw [List.map_map]
    exact List.map_congr_left hφ
  simp only [hgroup, List.map_append, List.map_reverse, hmap, map_ofToken_eq hu]

theorem of_takes {count : Ahead → Nat} (hcount : StableCount count) {x y : Point}
    {ts : List Token} (hlen : ts.length = count x.ahead) (hahead : x.ahead = ts ++ y.ahead)
    (hgroup : y.group = (ts.map Element.ofToken).reverse ++ x.group)
    (hφ : ∀ t ∈ ts, φ (.ofToken t) = .ofToken t) {us : List Token} {b : Ahead}
    (hu : us.map Token.leaf = ts.map Token.leaf) (hb : C.Related y.ahead b) :
    C.Related x.ahead (us ++ b) ∧
      Point.Takes ⟨us ++ b, x.group.map φ⟩ (count (us ++ b)) ⟨b, y.group.map φ⟩ :=
  ⟨hahead ▸ C.append hu.symm hb, takes_of_keepsCount hlen hahead hgroup hφ
    (fun _ _ hl => hcount hl (C.agree hb)) hu⟩

/-- Trivia stays as it is. -/
abbrev KeepsTrivia (φ : Element → Element) : Prop :=
  ∀ k t, k.isTrivia = true → φ (.token k t) = .token k t

theorem trivia (h : KeepsTrivia φ) : Carries rules C enters φ .trivia := by
  rintro x y ⟨ts, hlen, hahead, hgroup⟩
  refine ⟨ts.map Token.leaf, fun us b hu hb => ?_⟩
  have htrivia : ts = x.ahead.takeWhile Token.isTrivia := by
    rw [List.prefix_iff_eq_take.1 (List.takeWhile_prefix Token.isTrivia), ← triviaLength, ← hlen,
      hahead, List.take_left]
  have hφ : ∀ t ∈ ts, φ (.ofToken t) = .ofToken t := by
    intro t ht
    rw [htrivia] at ht
    have : t.isTrivia = true := List.mem_takeWhile_imp ht
    exact h _ _ this
  obtain ⟨hr, ht⟩ := of_takes stableCount_trivia hlen hahead hgroup hφ hu hb
  exact ⟨hr, 0, ht⟩

theorem lineTrivia (h : KeepsTrivia φ) : Carries rules C enters φ .lineTrivia := by
  rintro x y ⟨ts, hlen, hahead, hgroup⟩
  refine ⟨ts.map Token.leaf, fun us b hu hb => ?_⟩
  have hφ : ∀ t ∈ ts, φ (.ofToken t) = .ofToken t := by
    intro t ht
    rw [show ts = x.ahead.take (Reading.lineTriviaLength x.ahead) by
      rw [← hlen, hahead, List.take_left]] at ht
    exact h _ _ (Reading.isTrivia_of_mem_lineTrivia ht)
  obtain ⟨hr, ht⟩ := of_takes stableCount_lineTrivia hlen hahead hgroup hφ hu hb
  exact ⟨hr, 0, ht⟩

/-- Tokens stay as they are. -/
abbrev KeepsTokens (φ : Element → Element) : Prop :=
  ∀ k t, φ (.token k t) = .token k t

/-- A raw stretch. -/
theorem look_take (hφ : KeepsTokens φ) {count : Ahead → Nat}
    (hcount : StableCount fun a => bumpLength (count a) a) :
    Carries rules C enters φ (.look fun a => .take (count a)) := by
  rintro x y ⟨ts, hlen, hahead, hgroup⟩
  refine ⟨ts.map Token.leaf, fun us b hu hb => ?_⟩
  obtain ⟨hr, ht⟩ := of_takes hcount hlen hahead hgroup (fun _ _ => hφ _ _) hu hb
  exact ⟨hr, 0, ht⟩

theorem take (hφ : KeepsTokens φ) (n : Nat) : Carries rules C enters φ (.take n) :=
  fun x y hx => @look_take P rules C enters φ hφ _ (stableCount_bump n) x y hx

theorem bump (hφ : KeepsTokens φ) : Carries rules C enters φ bump :=
  take hφ 1

theorem untilClose (hφ : KeepsTokens φ) {close : Kind} (h : close.isJoin = false) :
    Carries rules C enters φ (untilClose close) :=
  look_take hφ (stableCount_untilClose h 0)

theorem balanced (hφ : KeepsTokens φ) : Carries rules C enters φ balanced := by
  rintro x y ⟨z, ⟨ts, hlen, hahead, hgroup⟩, hy⟩
  have hclosed : (x.ahead.balanced 0).2 = true := by
    by_contra hc
    simp only [hc, if_false] at hy
    exact rejects_complain rfl _ _ rfl hy
  simp only [hclosed, if_true] at hy
  obtain rfl := hy
  refine ⟨ts.map Token.leaf, fun us b hu hb => ?_⟩
  obtain ⟨hr, ht⟩ := of_takes (stableCount_balanced 0) hlen hahead hgroup (fun _ _ => hφ _ _) hu hb
  refine ⟨hr, 0, _, ht, ?_⟩
  have : (Ahead.balanced 0 (us ++ b)).2 = true :=
    closed_append hu.symm (hahead ▸ hclosed) (hahead ▸ hlen.symm)
  simp only [this, if_true]
  rfl

/-! ## Putting instructions together -/

theorem seq {f g : Grammar P} (hf : Carries rules C enters φ f) (hg : Carries rules C enters φ g) :
    Carries rules C enters φ (f >> g) := by
  rintro x y ⟨z, hxz, hzy⟩
  obtain ⟨ls, hf⟩ := hf x z hxz
  obtain ⟨ms, hg⟩ := hg z y hzy
  refine ⟨ls ++ ms, fun us b hu hb => ?_⟩
  obtain ⟨us, vs, rfl, hus, hvs⟩ := List.map_eq_append_iff.1 hu
  obtain ⟨hz, haccg⟩ := hg vs b hvs hb
  obtain ⟨hx, haccf⟩ := hf us (vs ++ b) hus hz
  rw [List.append_assoc]
  exact ⟨hx, haccf.seq haccg⟩

/-- A decision that is the same where lists agree, unless it leads to an error. -/
theorem look {choose : Ahead → Grammar P}
    (h : ∀ a b, Agree a b → choose b = choose a ∨ RejectsAt enters a (choose a))
    (hc : ∀ a, Carries rules C enters φ (choose a)) :
    Carries rules C enters φ (.look choose) := by
  intro x y hxy
  obtain ⟨ls, hls⟩ := hc x.ahead x y hxy
  refine ⟨ls, fun us b hu hb => ?_⟩
  obtain ⟨hx, d, hacc⟩ := hls us b hu hb
  refine ⟨hx, d, ?_⟩
  rcases h _ _ (C.agree hx) with heq | hrej
  · simpa only [Accepts, heq] using hacc
  · exact absurd hxy (hrej x y rfl)

theorem look_stable {choose : Ahead → Grammar P} (h : Stable choose)
    (hc : ∀ a, Carries rules C enters φ (choose a)) : Carries rules C enters φ (.look choose) :=
  look (fun _ _ hab => .inl (h hab)) hc

theorem ifRecovering (yes : Grammar P) {no : Grammar P} (h : Carries rules C enters φ no) :
    Carries rules C enters φ (.ifRecovering yes no) := by
  intro x y hxy
  obtain ⟨ls, h⟩ := h x y hxy
  exact ⟨ls, h⟩

theorem recoverInParens : Carries rules C enters φ recoverInParens :=
  ifRecovering _ skip

/-- A production carries what its body carries. -/
theorem call {depth : Nat} {p : P} (h : Carries rules C (Enters rules depth) φ (rules p)) :
    Carries rules C (Enters rules (depth + 1)) φ (.call p) := by
  intro x y hxy
  obtain ⟨ls, h⟩ := h x y hxy
  refine ⟨ls, fun us b hu hb => ?_⟩
  obtain ⟨hx, hacc⟩ := h us b hu hb
  exact ⟨hx, hacc.call⟩

theorem group {body : Grammar P} (h : Carries rules C enters φ body) :
    Carries rules C enters φ (.group body) := by
  rintro x y ⟨z, hz, rfl⟩
  obtain ⟨ls, h⟩ := h _ _ hz
  refine ⟨ls, fun us b hu hb => ?_⟩
  obtain ⟨hx, hacc⟩ := h us b hu hb
  refine ⟨hx, ?_⟩
  rw [List.map_append]
  exact Accepted.group (x := ⟨us ++ b, x.group.map φ⟩) hacc

/-- A node, if its children are changed by `ψ` on their own. -/
theorem node_of {ψ : Element → Element} {kind : Kind} {body : Grammar P}
    (hnode : ∀ cs, φ (.node kind cs) = .node kind (cs.map ψ)) (h : Carries rules C enters ψ body) :
    Carries rules C enters φ (node kind body) := by
  rintro x y ⟨_, ⟨z, hz, rfl⟩, rfl⟩
  obtain ⟨ls, h⟩ := h _ _ hz
  refine ⟨ls, fun us b hu hb => ?_⟩
  obtain ⟨hx, hacc⟩ := h us b hu hb
  refine ⟨hx, ?_⟩
  have hacc : Accepted rules (.enclose kind body) _ _ := hacc.enclose
  have := Accepted.group (x := ⟨us ++ b, x.group.map φ⟩) hacc
  simp only [List.cons_append, List.nil_append, List.map_cons, hnode, List.map_reverse]
  exact this

/-- A node of everything in the group, if its children are changed as the group is. -/
theorem enclose_of {kind : Kind} {body : Grammar P}
    (hnode : ∀ cs, φ (.node kind cs) = .node kind (cs.map φ)) (h : Carries rules C enters φ body) :
    Carries rules C enters φ (.enclose kind body) := by
  rintro x y ⟨z, hz, rfl⟩
  obtain ⟨ls, h⟩ := h _ _ hz
  refine ⟨ls, fun us b hu hb => ?_⟩
  obtain ⟨hx, hacc⟩ := h us b hu hb
  refine ⟨hx, ?_⟩
  have : Accepted rules (.enclose kind body) _ _ := hacc.enclose
  simp only [List.map_cons, hnode, List.map_reverse]
  exact this

/-- A node that begins with what the group holds and a significant token: the token still comes next
where it stands now. -/
theorem enclose_bump (hφ : KeepsTokens φ) {kind : Kind}
    (hnode : ∀ cs, φ (.node kind cs) = .node kind (cs.map φ)) {body : Grammar P}
    (h : Carries rules C enters φ body) {x y : Point}
    (hx : Accepts enters (.enclose kind (Grammar.bump >> body)) x y)
    (hne : x.ahead.current ≠ .eof) :
    ∃ leaves : List Leaf, ∀ us vs b, us.map Token.leaf = leaves → C.Related y.ahead b →
      C.Related x.ahead (us ++ b) ∧ Ahead.current (us ++ vs) = x.ahead.current ∧
        Accepted rules (.enclose kind (Grammar.bump >> body)) ⟨us ++ b, x.group.map φ⟩
          ⟨b, y.group.map φ⟩ := by
  obtain ⟨z, ⟨w, hxw, hwz⟩, rfl⟩ := hx
  obtain ⟨ts, hlen, hahead, hgroup⟩ := id hxw
  obtain ⟨ls, h⟩ := h w z hwz
  refine ⟨ts.map Token.leaf ++ ls, fun us vs b hu hb => ?_⟩
  have hcur : Ahead.current (us ++ vs) = x.ahead.current := by
    rw [hahead] at hlen hne ⊢
    exact current_append_of_bump hlen hne hu
  obtain ⟨us, us', rfl, hus, hus'⟩ := List.map_eq_append_iff.1 hu
  obtain ⟨hrw, hacc⟩ := h us' b hus' hb
  obtain ⟨hrx, htakes⟩ := of_takes (stableCount_bump 1) hlen hahead hgroup (fun _ _ => hφ _ _)
    hus hrw
  refine ⟨by rwa [List.append_assoc], hcur, ?_⟩
  rw [List.append_assoc]
  have hbump : Accepted rules Grammar.bump ⟨us ++ (us' ++ b), x.group.map φ⟩
      ⟨us' ++ b, w.group.map φ⟩ := ⟨0, htakes⟩
  have : Accepted rules (.enclose kind (Grammar.bump >> body)) _ _ := (hbump.seq hacc).enclose
  simp only [List.map_cons, hnode, List.map_reverse]
  exact this

/-- What may become the first child of a node, depending on what comes next. -/
theorem joined {ψ : Element → Element} {test : Ahead → Bool} (ht : Stable test) {kind : Kind}
    (hnode : ∀ cs, φ (.node kind cs) = .node kind (cs.map ψ)) {first rest : Grammar P}
    (hφ : Carries rules C enters φ first) (hψ : Carries rules C enters ψ first)
    (hrest : Carries rules C enters ψ rest) :
    Carries rules C enters φ (.group (first >> Grammar.when test (.enclose kind rest))) := by
  rintro x y ⟨z, ⟨w, hw, hz⟩, rfl⟩
  cases htest : test w.ahead with
  | false =>
    simp only [Grammar.when, Accepts, htest, Bool.false_eq_true, if_false] at hz
    subst hz
    obtain ⟨ls, h⟩ := hφ _ _ hw
    refine ⟨ls, fun us b hu hb => ?_⟩
    obtain ⟨hx, hacc⟩ := h us b hu hb
    have hstop : Accepted rules (Grammar.when test (.enclose kind rest)) ⟨b, z.group.map φ⟩
        ⟨b, z.group.map φ⟩ :=
      ⟨0, by simp only [Grammar.when, Accepts, ht (C.agree hb), htest, Bool.false_eq_true,
        if_false]⟩
    refine ⟨hx, ?_⟩
    rw [List.map_append]
    exact Accepted.group (x := ⟨us ++ b, x.group.map φ⟩) (hacc.seq hstop)
  | true =>
    simp only [Grammar.when, Accepts, htest, if_true] at hz
    obtain ⟨v, hv, rfl⟩ := hz
    obtain ⟨ls, hfirst⟩ := hψ _ _ hw
    obtain ⟨ms, hlast⟩ := hrest _ _ hv
    refine ⟨ls ++ ms, fun us b hu hb => ?_⟩
    obtain ⟨us, us', rfl, hus, hus'⟩ := List.map_eq_append_iff.1 hu
    obtain ⟨hrw, hacc'⟩ := hlast us' b hus' hb
    obtain ⟨hrx, hacc⟩ := hfirst us (us' ++ b) hus hrw
    obtain ⟨d, hd⟩ : Accepted rules (.enclose kind rest) _ _ := hacc'.enclose
    have hgo : Accepted rules (Grammar.when test (.enclose kind rest))
        ⟨us' ++ b, w.group.map ψ⟩ ⟨b, [.node kind (v.group.map ψ).reverse]⟩ :=
      ⟨d, by simpa only [Grammar.when, Accepts, ht (C.agree hrw), htest, if_true] using hd⟩
    rw [List.append_assoc]
    refine ⟨hrx, ?_⟩
    simp only [List.cons_append, List.nil_append, List.map_cons, hnode, List.map_reverse]
    exact Accepted.group (x := ⟨us ++ (us' ++ b), x.group.map φ⟩) (hacc.seq hgo)

/-! ## Derived instructions -/

theorem node {kind : Kind} {body : Grammar P} (hφ : C.Fits φ) (hk : C.special kind = false)
    (h : Carries rules C enters C.image body) : Carries rules C enters φ (node kind body) :=
  node_of (fun cs => (hφ.node kind cs).trans (C.image_node kind cs hk)) h

theorem enclose {kind : Kind} {body : Grammar P} (hk : C.special kind = false)
    (h : Carries rules C enters C.image body) :
    Carries rules C enters C.image (.enclose kind body) :=
  enclose_of (fun cs => C.image_node kind cs hk) h

theorem inner_of {ψ : Element → Element} {kind : Kind} {body : Grammar P} (hφ : KeepsTrivia φ)
    (hnode : ∀ cs, φ (.node kind cs) = .node kind (cs.map ψ)) (h : Carries rules C enters ψ body) :
    Carries rules C enters φ (inner kind body) :=
  (trivia hφ).seq (node_of hnode h)

theorem inner {kind : Kind} {body : Grammar P} (hφ : C.Fits φ) (hk : C.special kind = false)
    (h : Carries rules C enters C.image body) : Carries rules C enters φ (Grammar.inner kind body) :=
  (trivia hφ.trivia).seq (node hφ hk h)

theorem innerGroup {body : Grammar P} (hφ : KeepsTrivia φ) (h : Carries rules C enters φ body) :
    Carries rules C enters φ (innerGroup body) :=
  (trivia hφ).seq (group h)

theorem when {test : Ahead → Bool} (ht : Stable test) {body otherwise : Grammar P}
    (h : Carries rules C enters φ body) (ho : Carries rules C enters φ otherwise) :
    Carries rules C enters φ (when test body otherwise) := by
  refine look_stable (fun a b hab => by simp only [ht hab]) fun a => ?_
  split
  · exact h
  · exact ho

theorem whenAt {k : Kind} (hk : k.isJoin = false) {body otherwise : Grammar P}
    (h : Carries rules C enters φ body) (ho : Carries rules C enters φ otherwise) :
    Carries rules C enters φ (whenAt k body otherwise) :=
  when (.isAt hk) h ho

theorem fail {c : Kind → Complaint} (h : ∀ k, (c k).isWarning = false) :
    Carries rules C enters φ (fail c) :=
  carries_of_rejects fun _ => rejects_fail h

section

variable (hφ : KeepsTokens φ)

include hφ

theorem eat {k : Kind} (hk : k.isJoin = false) {body otherwise : Grammar P}
    (h : Carries rules C enters φ body) (ho : Carries rules C enters φ otherwise) :
    Carries rules C enters φ (eat k body otherwise) :=
  whenAt hk ((bump hφ).seq h) ho

theorem expect {k : Kind} (hk : k.isJoin = false) {body : Grammar P}
    (h : Carries rules C enters φ body) : Carries rules C enters φ (expect k body) :=
  eat hφ hk h (fail fun _ => rfl)

theorem expectName (role : Role) : Carries rules C enters φ (expectName role) :=
  when (.current rfl rfl) (bump hφ) (fail fun _ => rfl)

end

end Carries

end Grammar

end RuleLang
