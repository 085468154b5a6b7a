import RuleLang.Proofs.Grammar.Marked

/-!
# Instructions that admit marks

Reading marked tokens is shown from the right to the left: whatever comes after a stretch of tokens
and is what came there before with marks, the stretch is read again with its own marks, and gives the
images of the elements that it gave before. What an instruction needs to know of the tokens after it
is whether a mark may come first, and it tells the same of the tokens that it is read from.

## Main definitions

* `Grammar.Admits` — an instruction reads the marked tokens as the images of its elements.

## Main statements

* `Grammar.Admits.seq`, `Grammar.Admits.look`, `Grammar.Admits.node`, … — how instructions that
  do so are put together.
-/

namespace RuleLang

open Ahead

namespace Ahead

/-! ## The last token of what is taken -/

variable {p : Before} {ts : List Token} {a b : Ahead}

/-- An operand may end with the last token of `ts`, or no mark can come next. -/
def ClosesBefore (p : Before) (ts : List Token) (a : Ahead) : Prop :=
  a.current ≠ .ident ∨ p.past ts = .operand

theorem ClosesBefore.marked (h : ClosesBefore p ts a) (hab : Marked .operand a b) :
    Marked (p.past ts) a b := by
  rcases h with h | h
  · exact hab.of_current h _
  · rwa [h]

theorem past_of_trivia (p : Before) (h : ∀ t ∈ ts, t.isTrivia = true) : p.past ts = p := by
  induction ts generalizing p with
  | nil => rfl
  | cons t ts ih =>
    obtain ⟨ht, hts⟩ := List.forall_mem_cons.1 h
    change (p.after t.kind).past ts = p
    rw [Before.after_of_isTrivia p ht, ih p hts]

/-- The trivia that comes next is trivia. -/
theorem isTrivia_of_mem_trivia (hlen : ts.length = triviaLength (ts ++ a)) :
    ∀ t ∈ ts, t.isTrivia = true := by
  have hts : ts = (ts ++ a).takeWhile Token.isTrivia := by
    rw [List.prefix_iff_eq_take.1 (List.takeWhile_prefix Token.isTrivia), ← triviaLength, ← hlen,
      List.take_left]
  rw [hts]
  exact fun t ht => List.mem_takeWhile_imp ht

theorem past_cons (p : Before) (t : Token) (ts : List Token) :
    p.past (t :: ts) = (p.after t.kind).past ts := rfl

theorem past_append (p : Before) (ts us : List Token) :
    p.past (ts ++ us) = (p.past ts).past us :=
  List.foldl_append

/-- What is taken with a significant token: the trivia before it. -/
theorem exists_of_bump (hlen : ts.length = bumpLength 1 (ts ++ a))
    (hne : current (ts ++ a) ≠ .eof) :
    ∃ w t, ts = w ++ [t] ∧ (∀ u ∈ w, u.isTrivia = true) ∧ t.isTrivia = false ∧
      t.kind = current (ts ++ a) := by
  induction ts with
  | nil =>
    cases a with
    | nil => exact absurd rfl hne
    | cons t a =>
      rw [List.nil_append, bumpLength] at hlen
      rw [List.nil_append, current_cons] at hne
      split at hlen
      · simp at hlen
      · rename_i ht
        rw [if_neg ht] at hne
        rw [if_neg (by simpa using hne)] at hlen
        simp at hlen
  | cons t ts ih =>
    rw [List.cons_append, current_cons] at hne
    rw [List.cons_append, bumpLength] at hlen
    rw [List.cons_append, current_cons]
    by_cases ht : t.isTrivia = true
    · rw [if_pos ht] at hne hlen ⊢
      obtain ⟨w, u, rfl, hw, hu, hk⟩ := ih (by simpa using hlen) hne
      exact ⟨t :: w, u, rfl, List.forall_mem_cons.2 ⟨ht, hw⟩, hu, hk⟩
    · rw [if_neg ht] at hne hlen ⊢
      have hzero : bumpLength 0 (ts ++ a) = 0 := by cases ts ++ a <;> rfl
      rw [if_neg (by simpa using hne), hzero] at hlen
      obtain rfl : ts = [] := List.length_eq_zero_iff.1 (by simpa using hlen)
      exact ⟨[], t, rfl, fun _ h => absurd h List.not_mem_nil, by simpa using ht, rfl⟩

/-- A significant token is taken. -/
theorem past_bump (hlen : ts.length = bumpLength 1 (ts ++ a)) (hne : current (ts ++ a) ≠ .eof) :
    p.past ts = p.after (current (ts ++ a)) := by
  obtain ⟨w, t, hts, hw, -, hk⟩ := exists_of_bump hlen hne
  rw [← hk, hts, past_append, past_of_trivia p hw]
  rfl

/-- A token that an operand may end with is taken. -/
theorem closesBefore_bump (hlen : ts.length = bumpLength 1 (ts ++ a))
    (hend : (current (ts ++ a)).endsOperand = true) : ClosesBefore p ts a := by
  have hne : current (ts ++ a) ≠ .eof := by
    intro he
    rw [he] at hend
    cases hend
  exact .inr ((past_bump hlen hne).trans (Before.after_of_endsOperand p hend))

/-- Two tokens are taken, and an operand may end with the second one. -/
theorem closesBefore_take_two (hlen : ts.length = bumpLength 2 (ts ++ a))
    (hne : current (ts ++ a) ≠ .eof) (hend : (nth (ts ++ a) 1).endsOperand = true) :
    ClosesBefore p ts a := by
  induction ts generalizing p with
  | nil =>
    cases a with
    | nil => exact absurd rfl hne
    | cons t a =>
      rw [List.nil_append, bumpLength] at hlen
      rw [List.nil_append, current_cons] at hne
      split at hlen
      · simp at hlen
      · rename_i ht
        rw [if_neg ht] at hne
        rw [if_neg (by simpa using hne)] at hlen
        simp at hlen
  | cons t ts ih =>
    rw [List.cons_append, current_cons] at hne
    rw [List.cons_append, bumpLength] at hlen
    by_cases ht : t.isTrivia = true
    · rw [if_pos ht] at hne hlen
      rw [List.cons_append, nth_cons_trivia ht] at hend
      exact ih (by simpa using hlen) hne hend
    · rw [if_neg ht] at hne hlen
      rw [Bool.not_eq_true] at ht
      rw [List.cons_append, nth_succ_cons ht] at hend
      rw [if_neg (by simpa using hne)] at hlen
      exact closesBefore_bump (p := p.after t.kind) (by simpa using hlen) hend

/-- What comes after an empty stretch ends it. -/
theorem current_of_stretch_eq_zero {after : Nat → Kind → Nat} {depth : Nat}
    (h : stretch (throughDepth after) depth a = 0) : a.current = .eof := by
  induction a with
  | nil => rfl
  | cons t a ih =>
    rw [current_cons]
    simp only [stretch] at h
    split at h
    · rename_i ht
      rw [if_pos ht]
      exact ih h
    · rename_i ht
      rw [if_neg ht]
      by_contra he
      have he : (t.kind == .eof) = false := by simpa using he
      simp only [throughDepth, he, Bool.false_eq_true, if_false] at h
      split at h
      · rename_i heq
        split at heq <;> cases heq
      · simp at h
      · simp at h

/-- A stretch in brackets is taken, and an operand may end with the closing bracket. -/
theorem closesBefore_stretch {after : Nat → Kind → Nat} {depth : Nat}
    (hclose : ∀ d k, k ≠ .eof → 0 < d → after d k = 0 → k.endsOperand = true)
    (hopen : 0 < depth ∨ 0 < after depth (current (ts ++ a)))
    (hlen : ts.length = bumpLength (stretch (throughDepth after) depth (ts ++ a)) (ts ++ a)) :
    ClosesBefore p ts a := by
  induction ts generalizing p depth with
  | nil =>
    have hzero : stretch (throughDepth after) depth a = 0 :=
      Ahead.stretch_eq_zero (fun _ => rfl) hlen.symm
    left
    rw [current_of_stretch_eq_zero hzero]
    decide
  | cons t ts ih =>
    rw [List.cons_append, current_cons] at hopen
    simp only [List.cons_append, stretch, List.length_cons] at hlen
    by_cases ht : t.isTrivia = true
    · simp only [ht, if_true] at hlen hopen
      have hpast : p.past (t :: ts) = p.past ts := by
        rw [past_cons, Before.after_of_isTrivia p ht]
      rw [ClosesBefore, hpast]
      refine ih hopen ?_
      cases hn : stretch (throughDepth after) depth (ts ++ a) with
      | zero => simp [hn, bumpLength] at hlen
      | succ n =>
        rw [hn, bumpLength_of_isTrivia ht] at hlen
        simpa using hlen
    · simp only [ht, Bool.false_eq_true, if_false] at hlen hopen
      by_cases he : (t.kind == .eof) = true
      · simp [throughDepth, he, bumpLength] at hlen
      · rw [Bool.not_eq_true] at he
        by_cases hd : after depth t.kind = 0
        · have hk := hclose depth t.kind (by simpa using he) (by omega) hd
          have hzero : bumpLength 0 (ts ++ a) = 0 := by cases ts ++ a <;> rfl
          have hts : ts = [] := by
            simp only [throughDepth, he, hd, beq_self_eq_true, bumpLength, ht, if_true, if_false,
              Bool.false_eq_true, hzero] at hlen
            exact List.length_eq_zero_iff.1 (by omega)
          rw [hts]
          exact .inr (Before.after_of_endsOperand p hk)
        · rw [ClosesBefore, past_cons]
          refine ih (.inl (Nat.pos_of_ne_zero hd)) ?_
          have hd' : (after depth t.kind == 0) = false := beq_eq_false_iff_ne.2 hd
          simp only [throughDepth, he, hd', bumpLength, ht, if_false, Bool.false_eq_true] at hlen
          omega

/-- Type arguments end with the bracket that closes them. -/
theorem closesBefore_typeArguments (ha : current (ts ++ a) = .lt)
    (hlen : ts.length = bumpLength (typeArguments 0 (ts ++ a)) (ts ++ a)) :
    ClosesBefore p ts a := by
  rw [typeArguments_eq_stretch] at hlen
  refine closesBefore_stretch (fun d k _ hd hk => ?_) (.inr (by rw [ha]; decide)) hlen
  unfold angleDepthAfter at hk
  split at hk
  · omega
  · split at hk
    · rename_i hgt
      rw [beq_iff_eq.1 hgt]
      rfl
    · omega

/-- A bracketed group ends with the bracket that closes it. -/
theorem closesBefore_balanced (ha : isOpening (current (ts ++ a)) = true)
    (hlen : ts.length = bumpLength (balanced 0 (ts ++ a)).1 (ts ++ a)) : ClosesBefore p ts a := by
  rw [balanced_eq_stretch] at hlen
  refine closesBefore_stretch (fun d k _ hd hk => ?_) (.inr (by simp [depthAfter, ha])) hlen
  unfold depthAfter at hk
  split at hk
  · omega
  · split at hk
    · rename_i hcl
      cases k <;> first | rfl | cases hcl
    · omega

end Ahead

namespace Grammar

variable {P : Type}

/-- With `a` ahead an instruction reads the marked tokens as the images of the elements. Of the token
before those that it leaves `q` has to be known, of the token before its own `p`. If it is `still`,
it reads no token of a marked operator, and no element changes. -/
def Admits (rules : P → Grammar P) (enters : P → Point → Point → Prop) (φ : Element → Element)
    (still : Prop) (q p : Before) (a : Ahead) (g : Grammar P) : Prop :=
  ∀ x y, x.ahead = a → g.Accepts enters x y → ∃ leaves : List Leaf,
    (still → ∃ ts, x.ahead = ts ++ y.ahead ∧ leaves = ts.map Token.leaf ∧
      ((∀ e ∈ x.group, φ e = e) → ∀ e ∈ y.group, φ e = e)) ∧
    ∀ us b, us.map Token.leaf = leaves → Marked q y.ahead b →
      Marked p x.ahead (us ++ b) ∧
        Accepted rules g ⟨us ++ b, x.group.map φ⟩ ⟨b, y.group.map φ⟩

namespace Admits

open Carries (KeepsTrivia KeepsTokens map_ofToken_eq takes_of_keepsCount)

variable {rules : P → Grammar P} {enters : P → Point → Point → Prop} {φ : Element → Element}
  {still : Prop} {q p r : Before} {a : Ahead} {f g body otherwise : Grammar P}

theorem map_eq_self {es : List Element} (h : ∀ e ∈ es, φ e = e) : es.map φ = es :=
  (List.map_congr_left h).trans (List.map_id' es)

/-- More is known of what comes after, less is told of what comes before. -/
theorem weaken {still' : Prop} {q' p' : Before} (h : Admits rules enters φ still q p a g)
    (hq : q' = q ∨ q' = .other) (hp : p' = p ∨ p = .other) (hs : still' → still) :
    Admits rules enters φ still' q' p' a g := by
  intro x y hx hxy
  obtain ⟨ls, hstill, h⟩ := h x y hx hxy
  refine ⟨ls, fun hs' => hstill (hs hs'), fun us b hu hb => ?_⟩
  have hb : Marked q y.ahead b := by
    rcases hq with rfl | rfl
    · exact hb
    · exact hb.of_other q
  obtain ⟨hx, hacc⟩ := h us b hu hb
  refine ⟨?_, hacc⟩
  rcases hp with rfl | rfl
  · exact hx
  · exact hx.of_other p'

theorem to_other (h : Admits rules enters φ still q p a g) :
    Admits rules enters φ still .other p a g :=
  h.weaken (.inr rfl) (.inl rfl) id

theorem from_other (h : Admits rules enters φ still q .other a g) :
    Admits rules enters φ still q p a g :=
  h.weaken (.inl rfl) (.inr rfl) id

theorem of_rejects (h : RejectsAt enters a g) : Admits rules enters φ still q p a g :=
  fun x y hx hxy => absurd hxy (h x y hx)

/-! ## Nothing is taken -/

theorem skip : Admits rules enters φ still p p a .skip := by
  rintro x y - rfl
  refine ⟨[], fun _ => ⟨[], rfl, rfl, id⟩, fun us b hu hb => ?_⟩
  obtain rfl : us = [] := by simpa using hu
  exact ⟨hb, 0, rfl⟩

theorem recovered : Admits rules enters φ still p p a .recovered := by
  rintro x y - rfl
  refine ⟨[], fun _ => ⟨[], rfl, rfl, id⟩, fun us b hu hb => ?_⟩
  obtain rfl : us = [] := by simpa using hu
  exact ⟨hb, 0, rfl⟩

theorem complain (c : Complaint) : Admits rules enters φ still p p a (.complain c) := by
  rintro x y - ⟨hc, rfl⟩
  refine ⟨[], fun _ => ⟨[], rfl, rfl, id⟩, fun us b hu hb => ?_⟩
  obtain rfl : us = [] := by simpa using hu
  exact ⟨hb, 0, hc, rfl⟩

theorem fail {c : Kind → Complaint} (h : ∀ k, (c k).isWarning = false) :
    Admits rules enters φ still q p a (fail c) :=
  of_rejects (rejects_fail h)

/-! ## Taking tokens -/

/-- Tokens that stay as they are, taken by a count that is the same for marked tokens. -/
theorem of_takes (count : Ahead → Nat) {x y : Point} {ts : List Token} {g : Grammar P}
    (hlen : ts.length = count x.ahead) (hahead : x.ahead = ts ++ y.ahead)
    (hgroup : y.group = (ts.map Element.ofToken).reverse ++ x.group)
    (hφ : ∀ t ∈ ts, φ (.ofToken t) = .ofToken t)
    (hcount : ∀ b, Marked q y.ahead b → KeepsCount count y.ahead b)
    (hmarked : ∀ b, Marked q y.ahead b → Marked (p.past ts) y.ahead b)
    (hg : ∀ us b, us.map Token.leaf = ts.map Token.leaf → Marked q y.ahead b →
      Point.Takes ⟨us ++ b, x.group.map φ⟩ (count (us ++ b)) ⟨b, y.group.map φ⟩ →
      Accepted rules g ⟨us ++ b, x.group.map φ⟩ ⟨b, y.group.map φ⟩) :
    ∃ leaves : List Leaf,
      (still → ∃ ts, x.ahead = ts ++ y.ahead ∧ leaves = ts.map Token.leaf ∧
        ((∀ e ∈ x.group, φ e = e) → ∀ e ∈ y.group, φ e = e)) ∧
      ∀ us b, us.map Token.leaf = leaves → Marked q y.ahead b →
        Marked p x.ahead (us ++ b) ∧
          Accepted rules g ⟨us ++ b, x.group.map φ⟩ ⟨b, y.group.map φ⟩ := by
  refine ⟨ts.map Token.leaf, fun _ => ⟨ts, hahead, rfl, fun hx e he => ?_⟩, fun us b hu hb => ?_⟩
  · rw [hgroup, List.mem_append, List.mem_reverse, List.mem_map] at he
    rcases he with ⟨t, ht, rfl⟩ | he
    · exact hφ t ht
    · exact hx e he
  · exact ⟨hahead ▸ .append hu.symm (hmarked b hb),
      hg us b hu hb (takes_of_keepsCount hlen hahead hgroup hφ (hcount b hb) hu)⟩

theorem trivia (h : KeepsTrivia φ) : Admits rules enters φ still p p a .trivia := by
  rintro x y - ⟨ts, hlen, hahead, hgroup⟩
  have htrivia := isTrivia_of_mem_trivia (hahead ▸ hlen)
  refine of_takes triviaLength hlen hahead hgroup (fun t ht => h _ _ (htrivia t ht))
    (fun b hb => hb.keepsCount_trivia) (fun b hb => ?_) fun us b _ _ htakes => ⟨0, htakes⟩
  rwa [past_of_trivia p htrivia]

theorem lineTrivia (h : KeepsTrivia φ) : Admits rules enters φ still p p a .lineTrivia := by
  rintro x y - ⟨ts, hlen, hahead, hgroup⟩
  have htrivia : ∀ t ∈ ts, t.isTrivia = true := by
    rw [show ts = x.ahead.take (Reading.lineTriviaLength x.ahead) by
      rw [← hlen, hahead, List.take_left]]
    exact fun t ht => Reading.isTrivia_of_mem_lineTrivia ht
  refine of_takes Reading.lineTriviaLength hlen hahead hgroup (fun t ht => h _ _ (htrivia t ht))
    (fun b hb => hb.keepsCount_lineTrivia) (fun b hb => ?_) fun us b _ _ htakes => ⟨0, htakes⟩
  rwa [past_of_trivia p htrivia]

/-- A raw stretch. -/
theorem look_take (hφ : KeepsTokens φ) (count : Ahead → Nat)
    (hcount : ∀ a b, Marked q a b → KeepsCount (fun a => bumpLength (count a) a) a b)
    (hmarked : ∀ ts b, a = ts ++ b → ts.length = bumpLength (count a) a →
      ∀ c, Marked q b c → Marked (p.past ts) b c) :
    Admits rules enters φ still q p a (.look fun a => .take (count a)) := by
  rintro x y rfl ⟨ts, hlen, hahead, hgroup⟩
  exact of_takes (fun a => bumpLength (count a) a) hlen hahead hgroup (fun _ _ => hφ _ _)
    (fun b hb => hcount _ b hb) (fun b hb => hmarked ts y.ahead hahead hlen b hb)
    fun us b _ _ htakes => ⟨0, htakes⟩

theorem take (hφ : KeepsTokens φ) (n : Nat) : Admits rules enters φ still .other p a (.take n) :=
  @look_take P rules enters φ still .other p a hφ (fun _ => n)
    (fun _ _ hb => hb.keepsCount_bump n) fun _ _ _ _ _ hb => hb.of_other _

theorem bump (hφ : KeepsTokens φ) : Admits rules enters φ still .other p a bump :=
  take hφ 1

/-- A token decides what is known after it. -/
theorem bump_after (hφ : KeepsTokens φ) (hne : a.current ≠ .eof) :
    Admits rules enters φ still (p.after a.current) p a Grammar.bump :=
  @look_take P rules enters φ still _ p a hφ (fun _ => 1) (fun _ _ hb => hb.keepsCount_bump 1)
    fun ts b hab hlen c hb => by
      rwa [past_bump (by rwa [← hab]) (by rwa [← hab]), ← hab]

/-- A token that an operand may end with. -/
theorem bump_end (hφ : KeepsTokens φ) (h : a.current.endsOperand = true) :
    Admits rules enters φ still .operand p a Grammar.bump :=
  @look_take P rules enters φ still .operand p a hφ (fun _ => 1)
    (fun _ _ hb => hb.keepsCount_bump 1) fun ts b hab hlen c hb =>
      (closesBefore_bump (by rwa [← hab]) (by rwa [← hab])).marked hb

/-- Two tokens of which an operand may end with the second. -/
theorem take_two_end (hφ : KeepsTokens φ) (hne : a.current ≠ .eof)
    (h : (a.nth 1).endsOperand = true) : Admits rules enters φ still .operand p a (.take 2) :=
  @look_take P rules enters φ still .operand p a hφ (fun _ => 2)
    (fun _ _ hb => hb.keepsCount_bump 2) fun ts b hab hlen c hb =>
      (closesBefore_take_two (by rwa [← hab]) (by rwa [← hab]) (by rwa [← hab])).marked hb

theorem untilClose (hφ : KeepsTokens φ) {close : Kind} (h : close ≠ .ident) :
    Admits rules enters φ still .other p a (untilClose close) :=
  look_take hφ (fun a => a.untilClose close 0) (fun _ _ hb => hb.keepsCount_untilClose h)
    fun _ _ _ _ _ hb => hb.of_other _

theorem typeArguments (hφ : KeepsTokens φ) (ha : a.current = .lt) :
    Admits rules enters φ still .operand p a (.look fun a => .take (a.typeArguments 0)) :=
  look_take hφ (fun a => a.typeArguments 0) (fun _ _ hb => hb.keepsCount_typeArguments)
    fun ts b hab hlen c hb =>
      (closesBefore_typeArguments (by rwa [← hab]) (by rwa [← hab])).marked hb

theorem balanced (hφ : KeepsTokens φ) (ha : isOpening a.current = true) :
    Admits rules enters φ still .operand p a balanced := by
  rintro x y rfl ⟨z, ⟨ts, hlen, hahead, hgroup⟩, hy⟩
  have hclosed : (x.ahead.balanced 0).2 = true := by
    by_contra hc
    simp only [hc, if_false] at hy
    exact rejects_complain rfl _ _ rfl hy
  simp only [hclosed, if_true] at hy
  obtain rfl := hy
  refine of_takes (fun a => bumpLength (a.balanced 0).1 a) hlen hahead hgroup (fun _ _ => hφ _ _)
    (fun b hb => hb.keepsCount_balanced) (fun b hb => ?_) fun us b hu hb htakes => ?_
  · exact (closesBefore_balanced (by rwa [← hahead]) (by rwa [← hahead])).marked hb
  · have : (Ahead.balanced 0 (us ++ b)).2 = true :=
      closed_append hu.symm (hahead ▸ hclosed) (hahead ▸ hlen.symm)
    refine ⟨0, _, htakes, ?_⟩
    simp only [this, if_true]
    rfl

/-! ## Putting instructions together -/

theorem seq_of (hf : Admits rules enters φ still r p a f)
    (hg : ∀ x z, x.ahead = a → f.Accepts enters x z →
      Admits rules enters φ still q r z.ahead g) :
    Admits rules enters φ still q p a (f >> g) := by
  rintro x y hx ⟨z, hxz, hzy⟩
  obtain ⟨ls, hstillf, hf⟩ := hf x z hx hxz
  obtain ⟨ms, hstillg, hg⟩ := hg x z hx hxz z y rfl hzy
  refine ⟨ls ++ ms, fun hs => ?_, fun us b hu hb => ?_⟩
  · obtain ⟨ts, hts, hls, hfixf⟩ := hstillf hs
    obtain ⟨vs, hvs, hms, hfixg⟩ := hstillg hs
    exact ⟨ts ++ vs, by rw [hts, hvs, List.append_assoc], by rw [hls, hms, List.map_append],
      hfixg ∘ hfixf⟩
  · obtain ⟨us, vs, rfl, hus, hvs⟩ := List.map_eq_append_iff.1 hu
    obtain ⟨hz, haccg⟩ := hg vs b hvs hb
    obtain ⟨hx, haccf⟩ := hf us (vs ++ b) hus hz
    rw [List.append_assoc]
    exact ⟨hx, haccf.seq haccg⟩

theorem seq (hf : Admits rules enters φ still r p a f)
    (hg : ∀ b, Admits rules enters φ still q r b g) :
    Admits rules enters φ still q p a (f >> g) :=
  hf.seq_of fun _ z _ _ => hg z.ahead

theorem trivia_seq (h : KeepsTrivia φ) (hg : Admits rules enters φ still q p a.afterTrivia g) :
    Admits rules enters φ still q p a (.trivia >> g) :=
  (trivia h).seq_of fun _ _ hx hz => (accepts_trivia hz).1 ▸ hx ▸ hg

/-- A decision that marks do not change, unless it leads to an error. -/
theorem look {choose : Ahead → Grammar P}
    (h : ∀ b, Marked p a b → choose b = choose a ∨ RejectsAt enters a (choose a))
    (hc : Admits rules enters φ still q p a (choose a)) :
    Admits rules enters φ still q p a (.look choose) := by
  intro x y hx hxy
  obtain ⟨ls, hstill, hls⟩ := hc x y hx (hx ▸ hxy)
  refine ⟨ls, hstill, fun us b hu hb => ?_⟩
  obtain ⟨hmarked, d, hacc⟩ := hls us b hu hb
  refine ⟨hmarked, d, ?_⟩
  rcases h _ (hx ▸ hmarked) with heq | hrej
  · simpa only [Accepts, heq] using hacc
  · exact absurd (hx ▸ hxy) (hrej x y hx)

theorem look_blind {choose : Ahead → Grammar P} (h : Blind p choose)
    (hc : Admits rules enters φ still q p a (choose a)) :
    Admits rules enters φ still q p a (.look choose) :=
  look (fun _ hb => .inl (h hb)) hc

/-- A decision on the current token, before which no mark comes. -/
theorem look_here {choose : Ahead → Grammar P}
    (h : ∀ b, b.current = a.current → choose b = choose a)
    (hc : Admits rules enters φ still q .other a (choose a)) :
    Admits rules enters φ still q .other a (.look choose) :=
  look (fun b hb => .inl (h b hb.current_eq)) hc

theorem ifRecovering (yes : Grammar P) (h : Admits rules enters φ still q p a g) :
    Admits rules enters φ still q p a (.ifRecovering yes g) := by
  intro x y hx hxy
  obtain ⟨ls, h⟩ := h x y hx hxy
  exact ⟨ls, h⟩

theorem recoverInParens : Admits rules enters φ still p p a recoverInParens :=
  ifRecovering _ skip

/-- A production admits what its body admits. -/
theorem call {depth : Nat} {c : P}
    (h : Admits rules (Enters rules depth) φ still q p a (rules c)) :
    Admits rules (Enters rules (depth + 1)) φ still q p a (.call c) := by
  intro x y hx hxy
  obtain ⟨ls, hstill, h⟩ := h x y hx hxy
  refine ⟨ls, hstill, fun us b hu hb => ?_⟩
  obtain ⟨hmarked, hacc⟩ := h us b hu hb
  exact ⟨hmarked, hacc.call⟩

theorem group (h : Admits rules enters φ still q p a body) :
    Admits rules enters φ still q p a (.group body) := by
  rintro x y hx ⟨z, hz, rfl⟩
  obtain ⟨ls, hstill, h⟩ := h ⟨x.ahead, []⟩ z hx hz
  refine ⟨ls, fun hs => ?_, fun us b hu hb => ?_⟩
  · obtain ⟨ts, hts, hls, hfix⟩ := hstill hs
    refine ⟨ts, hts, hls, fun hgroup e he => ?_⟩
    rcases List.mem_append.1 he with he | he
    · exact hfix (fun e he => absurd he List.not_mem_nil) e he
    · exact hgroup e he
  · obtain ⟨hmarked, hacc⟩ := h us b hu hb
    refine ⟨hmarked, ?_⟩
    rw [List.map_append]
    exact Accepted.group (x := ⟨us ++ b, x.group.map φ⟩) hacc

/-- A node of everything in the group, if its children become their images. -/
theorem enclose {kind : Kind} (hnode : ∀ cs, φ (.node kind cs) = .node kind (cs.map φ))
    (h : Admits rules enters φ still q p a body) :
    Admits rules enters φ still q p a (.enclose kind body) := by
  rintro x y hx ⟨z, hz, rfl⟩
  obtain ⟨ls, hstill, h⟩ := h x z hx hz
  refine ⟨ls, fun hs => ?_, fun us b hu hb => ?_⟩
  · obtain ⟨ts, hts, hls, hfix⟩ := hstill hs
    refine ⟨ts, hts, hls, fun hgroup e he => ?_⟩
    obtain rfl := List.mem_singleton.1 he
    rw [hnode, List.map_reverse, map_eq_self (hfix hgroup)]
  · obtain ⟨hmarked, hacc⟩ := h us b hu hb
    have : Accepted rules (.enclose kind body) _ _ := hacc.enclose
    refine ⟨hmarked, ?_⟩
    simp only [List.map_cons, hnode, List.map_reverse]
    exact this

/-! ## Derived instructions -/

theorem node {kind : Kind} (hnode : ∀ cs, φ (.node kind cs) = .node kind (cs.map φ))
    (h : Admits rules enters φ still q p a body) :
    Admits rules enters φ still q p a (node kind body) :=
  group (enclose hnode h)

/-- A node that does not change, with children that do not change either. -/
theorem node_kept {ψ : Element → Element} {kind : Kind}
    (hnode : ∀ z, body.Accepts enters ⟨a, []⟩ z →
      φ (.node kind z.group.reverse) = .node kind z.group.reverse)
    (h : Admits rules enters ψ True q p a body) :
    Admits rules enters φ still q p a (Grammar.node kind body) := by
  rintro x y rfl ⟨_, ⟨z, hz, rfl⟩, rfl⟩
  obtain ⟨ls, hstill, h⟩ := h ⟨x.ahead, []⟩ z rfl hz
  obtain ⟨ts, hts, hls, hfix⟩ := hstill trivial
  have hgroup : z.group.map ψ = z.group :=
    map_eq_self (hfix fun e he => absurd he List.not_mem_nil)
  have hnode := hnode z hz
  refine ⟨ls, fun _ => ⟨ts, hts, hls, fun hx e he => ?_⟩, fun us b hu hb => ?_⟩
  · rcases List.mem_cons.1 he with rfl | he
    · exact hnode
    · exact hx e he
  · obtain ⟨hmarked, hacc⟩ := h us b hu hb
    rw [hgroup] at hacc
    have : Accepted rules (.enclose kind body) _ _ := hacc.enclose
    refine ⟨hmarked, ?_⟩
    simp only [List.cons_append, List.nil_append, List.map_cons, hnode]
    exact Accepted.group (x := ⟨us ++ b, x.group.map φ⟩) this

theorem inner {kind : Kind} (h : KeepsTrivia φ)
    (hnode : ∀ cs, φ (.node kind cs) = .node kind (cs.map φ))
    (hbody : Admits rules enters φ still q p a.afterTrivia body) :
    Admits rules enters φ still q p a (inner kind body) :=
  trivia_seq h (node hnode hbody)

theorem innerGroup (h : KeepsTrivia φ)
    (hbody : Admits rules enters φ still q p a.afterTrivia body) :
    Admits rules enters φ still q p a (innerGroup body) :=
  trivia_seq h (group hbody)

theorem when {test : Ahead → Bool} (ht : Blind p test)
    (h : test a = true → Admits rules enters φ still q p a body)
    (ho : test a = false → Admits rules enters φ still q p a otherwise) :
    Admits rules enters φ still q p a (when test body otherwise) := by
  refine look_blind (fun a b hab => by simp only [ht hab]) ?_
  cases htest : test a with
  | true => exact h htest
  | false => exact ho htest

theorem whenAt {k : Kind} (hk : (Kind.hashHash == k) = (Kind.ident == k))
    (h : a.current = k → Admits rules enters φ still q p a body)
    (ho : Admits rules enters φ still q p a otherwise) :
    Admits rules enters φ still q p a (whenAt k body otherwise) :=
  when (.isAt hk) (fun ha => h (beq_iff_eq.1 ha)) fun _ => ho

theorem eat (hφ : KeepsTokens φ) {k : Kind} (hk : (Kind.hashHash == k) = (Kind.ident == k))
    (h : ∀ b, Admits rules enters φ still q .other b body)
    (ho : Admits rules enters φ still q p a otherwise) :
    Admits rules enters φ still q p a (eat k body otherwise) :=
  whenAt hk (fun _ => (bump hφ).seq h) ho

theorem expect (hφ : KeepsTokens φ) {k : Kind} (hk : (Kind.hashHash == k) = (Kind.ident == k))
    (h : ∀ b, Admits rules enters φ still q .other b body) :
    Admits rules enters φ still q p a (expect k body) :=
  eat hφ hk h (fail fun _ => rfl)

/-- A token that must come next and that an operand may end with. -/
theorem expect_end (hφ : KeepsTokens φ) {k : Kind}
    (hk : (Kind.hashHash == k) = (Kind.ident == k)) (hend : k.endsOperand = true) :
    Admits rules enters φ still .operand p a (Grammar.expect k) :=
  whenAt hk (fun ha => (bump_end hφ (ha ▸ hend)).seq fun _ => skip) (fail fun _ => rfl)

theorem expectName (hφ : KeepsTokens φ) (role : Role) :
    Admits rules enters φ still .other .other a (expectName role) :=
  when (.here Kind.isName) (fun _ => bump hφ) fun _ => fail fun _ => rfl

end Admits

end Grammar

end RuleLang
