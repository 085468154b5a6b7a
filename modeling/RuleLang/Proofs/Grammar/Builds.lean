import RuleLang.Grammar.Rules
import RuleLang.Proofs.Grammar.Flushes
import RuleLang.Proofs.Tree.Clocked

/-!
# Reading that builds by calls

Reading can drive a tree builder: each token is a call when it is taken, a node is opened before its
body and closed after it. A group remembers a checkpoint where it starts, and a node made of all
that the group holds is opened there. The calls build what reading makes of its groups, and none of
them is out of order.

## Main definitions

* `Building` — the state of reading and a tree builder.
* `Grammar.build`, `Grammar.assemble` — the evaluator with its calls. A call out of order fails.
* `Grammar.Nests` — the checkpoint of a group is used only where no node was opened in the group
  since, or where all of them are closed again.
* `Building.Holds`, `Building.Grows` — how the builder stands to the group, and what reading adds.

## Main statements

* `Grammar.Nests.build` — an instruction that nests its nodes is read with calls in order.
* `Grammar.assemble_of_enter` — the same for productions whose bodies all do so.
* `Grammar.nests_body` — every production uses the checkpoint of a group only where no node is open
  that was opened in the group.
-/

namespace RuleLang

/-! ## Calls -/

/-- Reading, and the tree builder that it drives. -/
structure Building where
  reading : Reading
  builder : ClockedBuilder := {}

namespace Building

def apply (w : Building) (call : TreeBuilder.Call) : Option Building :=
  (w.builder.apply call).map fun b => { w with builder := b }

/-- Opens a node at a checkpoint. -/
def startAt (w : Building) (c : Checkpoint) (kind : Kind) : Option Building :=
  (w.builder.startAt c kind).map fun b => { w with builder := b }

/-- Reads by a step that takes tokens only, and adds them to the tree. -/
def take (w : Building) (step : Reading → Reading) : Option Building :=
  let t := step w.reading
  let taken := w.reading.ahead.take (w.reading.ahead.length - t.ahead.length)
  (w.builder.tokens taken).map fun b => ⟨t, b⟩

/-- Closes a node: it takes in the whole group. -/
def close (kind : Kind) (w : Building) : Option Building :=
  (w.builder.apply .finish).map fun b =>
    ⟨{ w.reading with group := [.node kind w.reading.group.reverse] }, b⟩

/-- The same state before a group of its own. -/
def fresh (w : Building) : Building :=
  { w with reading := { w.reading with group := [] } }

/-- Goes on with the group of `w` after a group of its own. -/
def join (w u : Building) : Building :=
  { u with reading := { u.reading with group := u.reading.group ++ w.reading.group } }

end Building

namespace Grammar

variable {P : Type}

/-- The evaluator of instructions with its calls, where `c` is the checkpoint of the current group.
A node of its own is opened as such, without a checkpoint. -/
def build (enter : P → Checkpoint → Building → Option Building) :
    Grammar P → Checkpoint → Building → Option Building
  | skip, _, w => some w
  | trivia, _, w => w.take Reading.takeTrivia
  | lineTrivia, _, w => w.take Reading.takeLineTrivia
  | take n, _, w => w.take (Reading.bumps n)
  | seq first second, c, w => (first.build enter c w).bind (second.build enter c)
  | look choose, c, w => (choose w.reading.ahead).build enter c w
  | ifRecovering yes no, c, w =>
    if w.reading.recovering then yes.build enter c w else no.build enter c w
  | recovered, _, w => some { w with reading := { w.reading with recovering := false } }
  | complain complaint, _, w => some { w with reading := w.reading.complain complaint }
  | call p, c, w => enter p c w
  | group (enclose kind body), _, w => do
    let u ← w.fresh.apply (.start kind)
    let u ← body.build enter u.builder.checkpoint u
    let u ← u.close kind
    return w.join u
  | group body, _, w => do
    let u ← body.build enter w.builder.checkpoint w.fresh
    return w.join u
  | enclose kind body, c, w => do
    let u ← w.startAt c kind
    let u ← body.build enter c u
    u.close kind

section

variable {enter : P → Checkpoint → Building → Option Building} {kind : Kind} {body f g : Grammar P}
  {c : Checkpoint} {w u v : Building}

theorem build_node
    (hbody : body.build enter ⟨w.builder.tree.mark, w.builder.now + 1⟩
      { w.fresh with builder := w.builder.opening kind w.builder.tree.mark } = some u)
    (hclose : u.close kind = some v) : (node kind body).build enter c w = some (w.join v) := by
  change Option.bind (body.build enter ⟨w.builder.tree.mark, w.builder.now + 1⟩
    { w.fresh with builder := w.builder.opening kind w.builder.tree.mark })
    (fun u => (u.close kind).bind fun v => some (w.join v)) = _
  rw [hbody, Option.bind_some, hclose, Option.bind_some]

theorem build_group (hbody : (seq f g).build enter w.builder.checkpoint w.fresh = some u) :
    (group (seq f g)).build enter c w = some (w.join u) := by
  change Option.bind ((seq f g).build enter w.builder.checkpoint w.fresh)
    (fun u => some (w.join u)) = _
  rw [hbody, Option.bind_some]

theorem build_enclose (hlive : w.builder.isLive c = true)
    (hmark : w.builder.tree.canStartAt c.mark = true)
    (hbody : body.build enter c { w with builder := w.builder.opening kind c.mark } = some u) :
    (enclose kind body).build enter c w = u.close kind := by
  rw [build, Building.startAt, ClockedBuilder.startAt_eq hlive hmark]
  change Option.bind (body.build enter c { w with builder := w.builder.opening kind c.mark })
    (fun u => u.close kind) = _
  rw [hbody, Option.bind_some]

end

/-- The evaluator of productions with its calls, for productions nested at most `depth` deep. -/
def assemble (rules : P → Grammar P) : Nat → P → Checkpoint → Building → Option Building
  | 0, _, _, _ => none
  | depth + 1, p, c, w =>
    (rules p).build (assemble rules depth) c
      { w with reading := { w.reading with entered := w.reading.entered + 1 } }

/-! ## Nesting of nodes -/

/-- An instruction uses the checkpoint of its group only if it is `live`: if no node is open that
was opened in the group. -/
inductive Nests : Bool → Rule → Prop
  | skip {live : Bool} : Nests live .skip
  | trivia {live : Bool} : Nests live .trivia
  | lineTrivia {live : Bool} : Nests live .lineTrivia
  | take {live : Bool} (n : Nat) : Nests live (.take n)
  | recovered {live : Bool} : Nests live .recovered
  | complain {live : Bool} (c : Complaint) : Nests live (.complain c)
  | call {live : Bool} {p : Production} (h : (!p.continues || live) = true) : Nests live (.call p)
  | seq {live : Bool} {f g : Rule} (hf : Nests live f) (hg : Nests live g) : Nests live (.seq f g)
  | look {live : Bool} {choose : Ahead → Rule} (h : ∀ a, Nests live (choose a)) :
    Nests live (.look choose)
  | ifRecovering {live : Bool} {f g : Rule} (hf : Nests live f) (hg : Nests live g) :
    Nests live (.ifRecovering f g)
  /-- A node of its own. -/
  | node {live : Bool} {k : Kind} {g : Rule} (h : Nests false g) : Nests live (.node k g)
  /-- A group with a checkpoint. -/
  | group {live : Bool} {f g : Rule} (h : Nests true (.seq f g)) : Nests live (.group (.seq f g))
  /-- A node of all that the group holds. -/
  | enclose {k : Kind} {g : Rule} (h : Nests false g) : Nests true (.enclose k g)

end Grammar

/-! ## The builder and the group -/

namespace Building

variable {w u v : Building} {live : Bool} {c : Checkpoint}

/-- The group stands in the builder after the checkpoint `c`, which may be used if it is `live`. -/
structure Holds (live : Bool) (c : Checkpoint) (w : Building) : Prop where
  /-- The group is what was added since the checkpoint. -/
  group : ∃ base, w.builder.tree.elements = w.reading.group ++ base ∧ base.length = c.mark
  /-- The checkpoint is not before the first child of the innermost open node. -/
  first : ∀ node ∈ w.builder.tree.openNodes.head?, node.2 ≤ c.mark
  /-- The innermost open node was opened in the past. -/
  opened : ∀ time ∈ w.builder.opened.head?, time < w.builder.now
  live : live = true → w.builder.isLive c = true

/-- What is open stays as it is, and what is added to the group is added to the builder. -/
structure Grows (w u : Building) : Prop where
  elements : ∀ base, w.builder.tree.elements = w.reading.group ++ base →
    u.builder.tree.elements = u.reading.group ++ base
  openNodes : u.builder.tree.openNodes = w.builder.tree.openNodes
  opened : u.builder.opened = w.builder.opened
  now : w.builder.now ≤ u.builder.now

namespace Grows

theorem refl (w : Building) : w.Grows w :=
  ⟨fun _ h => h, rfl, rfl, Nat.le_refl _⟩

theorem trans (h : w.Grows u) (k : u.Grows v) : w.Grows v :=
  ⟨fun base hb => k.elements base (h.elements base hb), k.openNodes.trans h.openNodes,
    k.opened.trans h.opened, h.now.trans k.now⟩

/-- What a group of its own adds is added to the group around it. -/
theorem join (h : w.fresh.Grows u) : w.Grows (w.join u) := by
  refine ⟨fun base hb => ?_, h.openNodes, h.opened, h.now⟩
  rw [Building.join, List.append_assoc]
  exact h.elements (w.reading.group ++ base) hb

end Grows

namespace Holds

theorem grows (h : w.Holds live c) (k : w.Grows u) : u.Holds live c := by
  obtain ⟨base, hbase, hmark⟩ := h.group
  refine ⟨⟨base, k.elements base hbase, hmark⟩, ?_, ?_, fun hl => ?_⟩
  · rw [k.openNodes]
    exact h.first
  · rw [k.opened]
    exact fun time ht => (h.opened time ht).trans_le k.now
  · rw [ClockedBuilder.isLive, k.opened]
    exact h.live hl

theorem weaken {live' : Bool} (h : w.Holds live c) (hl : (!live' || live) = true) :
    w.Holds live' c := by
  refine ⟨h.group, h.first, h.opened, fun hlive => h.live ?_⟩
  rw [hlive] at hl
  exact hl

/-- The checkpoint of a group that starts here is live. -/
theorem fresh (h : w.Holds live c) : w.fresh.Holds true w.builder.checkpoint := by
  obtain ⟨base, hbase, hmark⟩ := h.group
  refine ⟨⟨w.builder.tree.elements, rfl, rfl⟩, fun node hn => (h.first node hn).trans ?_, h.opened,
    fun _ => ClockedBuilder.isLive_iff.2 h.opened⟩
  simp only [ClockedBuilder.checkpoint, TreeBuilder.mark, hbase, List.length_append]
  omega

/-- The mark of the group can be used. -/
theorem canStartAt (h : w.Holds live c) : w.builder.tree.canStartAt c.mark = true := by
  obtain ⟨base, hbase, hmark⟩ := h.group
  have hfirst : (w.builder.tree.openNodes.head?.all fun node => decide (node.2 ≤ c.mark)) = true := by
    cases hopen : w.builder.tree.openNodes.head? with
    | none => rfl
    | some node => exact decide_eq_true (h.first node hopen)
  rw [TreeBuilder.canStartAt, hfirst, hbase, Bool.and_true, decide_eq_true_iff, List.length_append]
  omega

/-- Inside of a node that is opened where the group starts, the group is still what was added. -/
theorem opening (h : w.Holds live c) (c' : Checkpoint) (hc : c'.mark = c.mark) (kind : Kind) :
    Holds false c' { w with builder := w.builder.opening kind c.mark } := by
  refine ⟨?_, fun node hn => ?_, fun time ht => ?_, nofun⟩
  · rw [hc]
    exact h.group
  · cases hn
    exact hc.ge
  · cases ht
    exact Nat.lt_succ_self _

/-- A node that was opened where the group starts is closed over the whole group. -/
theorem close (h : w.Holds live c) {kind : Kind}
    (k : Grows { w with builder := w.builder.opening kind c.mark } u) :
    ∃ b, u.close kind =
        some ⟨{ u.reading with group := [.node kind u.reading.group.reverse] }, b⟩ ∧
      w.Grows ⟨{ u.reading with group := [.node kind u.reading.group.reverse] }, b⟩ := by
  obtain ⟨base, hbase, hmark⟩ := h.group
  have hopen : u.builder.tree.openNodes = (kind, base.length) :: w.builder.tree.openNodes := by
    rw [hmark]
    exact k.openNodes
  refine ⟨_, by rw [Building.close, ClockedBuilder.apply_finish hopen (k.elements base hbase)]; rfl,
    ?_⟩
  refine ⟨fun base' hb => ?_, rfl, ?_, ?_⟩
  · obtain rfl := List.append_cancel_left (hbase.symm.trans hb)
    rfl
  · rw [k.opened]
    rfl
  · exact (Nat.le_succ _).trans (k.now.trans (Nat.le_succ _))

end Holds

/-- Tokens that are taken are added to the tree. -/
theorem exists_take {s : Reading} {b : ClockedBuilder} {n : Nat} {step : Reading → Reading}
    (h : s.point.Takes n (step s).point) :
    ∃ b', take ⟨s, b⟩ step = some ⟨step s, b'⟩ ∧ Grows ⟨s, b⟩ ⟨step s, b'⟩ := by
  obtain ⟨ts, -, hahead, hgroup⟩ := h
  have hahead : s.ahead = ts ++ (step s).ahead := hahead
  have hgroup : (step s).group = (ts.map Element.ofToken).reverse ++ s.group := hgroup
  have htaken : s.ahead.take (s.ahead.length - (step s).ahead.length) = ts := by
    rw [hahead]
    simp
  refine ⟨_, by rw [take, htaken, ClockedBuilder.tokens_eq]; rfl, ?_⟩
  refine ⟨fun base hb => ?_, rfl, rfl, Nat.le_add_right _ _⟩
  have hb : b.tree.elements = s.group ++ base := hb
  change _ ++ b.tree.elements = (step s).group ++ base
  rw [hb, hgroup, List.append_assoc]

end Building

/-! ## Reading with calls -/

namespace Grammar

open Building

/-- An instruction that nests its nodes is read with all its calls in order, if productions are. -/
theorem Nests.build {enters : Production → Reading → Option Reading}
    {builds : Production → Checkpoint → Building → Option Building}
    (henter : ∀ p s t c b, enters p s = some t → Holds p.continues c ⟨s, b⟩ →
      ∃ b', builds p c ⟨s, b⟩ = some ⟨t, b'⟩ ∧ Grows ⟨s, b⟩ ⟨t, b'⟩)
    {live : Bool} {g : Rule} (hg : Nests live g) {s t : Reading} {c : Checkpoint}
    {b : ClockedBuilder} (h : g.run enters s = some t) (hs : Holds live c ⟨s, b⟩) :
    ∃ b', g.build builds c ⟨s, b⟩ = some ⟨t, b'⟩ ∧ Grows ⟨s, b⟩ ⟨t, b'⟩ := by
  induction hg generalizing s t c b with
  | skip =>
    cases h
    exact ⟨b, rfl, .refl _⟩
  | trivia =>
    cases h
    exact exists_take s.takes_takeTrivia
  | lineTrivia =>
    cases h
    exact exists_take s.takes_takeLineTrivia
  | take n =>
    cases h
    exact exists_take (s.takes_bumps n)
  | recovered =>
    cases h
    exact ⟨b, rfl, ⟨fun _ hb => hb, rfl, rfl, Nat.le_refl _⟩⟩
  | complain complaint =>
    cases h
    refine ⟨b, rfl, ⟨fun base hb => ?_, rfl, rfl, Nat.le_refl _⟩⟩
    rw [Reading.group_complain]
    exact hb
  | @call live p hlive => exact henter p s t c b h (hs.weaken hlive)
  | seq _ _ ihf ihg =>
    simp only [run] at h
    split at h
    · rename_i u hu
      obtain ⟨b', hb', hgrows⟩ := ihf hu hs
      obtain ⟨b'', hb'', hgrows'⟩ := ihg h (hs.grows hgrows)
      refine ⟨b'', ?_, hgrows.trans hgrows'⟩
      rw [Grammar.build, hb']
      exact hb''
    · cases h
  | look _ ih => exact ih _ h hs
  | ifRecovering _ _ ihf ihg =>
    simp only [run] at h
    rw [Grammar.build]
    split at h
    · rename_i hr
      rw [if_pos hr]
      exact ihf h hs
    · rename_i hr
      rw [if_neg hr]
      exact ihg h hs
  | @node live k g _ ih =>
    cases hu : g.run enters { s with group := [] } with
    | none => simp [Grammar.node, run, hu] at h
    | some u =>
      simp only [Grammar.node, run, hu, Option.some.injEq] at h
      subst h
      obtain ⟨b', hb', hgrows⟩ := ih hu (hs.fresh.opening ⟨b.tree.mark, b.now + 1⟩ rfl k)
      obtain ⟨b'', hb'', hgrows'⟩ := hs.fresh.close hgrows
      exact ⟨b'', build_node hb' hb'', hgrows'.join⟩
  | @group live f g _ ih =>
    cases hu : (Grammar.seq f g).run enters { s with group := [] } with
    | none => rw [run, hu] at h; cases h
    | some u =>
      have h : some { u with group := u.group ++ s.group } = some t := by
        rw [← h, run, hu]
      cases h
      obtain ⟨b', hb', hgrows⟩ := ih hu hs.fresh
      exact ⟨b', build_group hb', Grows.join (w := ⟨s, b⟩) hgrows⟩
  | @enclose k g _ ih =>
    simp only [run] at h
    split at h
    · rename_i u hu
      cases h
      obtain ⟨b', hb', hgrows⟩ := ih hu (hs.opening c rfl k)
      obtain ⟨b'', hb'', hgrows'⟩ := hs.close hgrows
      exact ⟨b'', (build_enclose (hs.live rfl) hs.canStartAt hb').trans hb'', hgrows'⟩
    · cases h

/-- Productions whose bodies nest their nodes are read with all their calls in order. -/
theorem assemble_of_enter (hbody : ∀ p : Production, Nests p.continues p.body) {depth : Nat}
    {p : Production} {s t : Reading} {c : Checkpoint} {b : ClockedBuilder}
    (h : enter Production.body depth p s = some t) (hs : Holds p.continues c ⟨s, b⟩) :
    ∃ b', assemble Production.body depth p c ⟨s, b⟩ = some ⟨t, b'⟩ ∧ Grows ⟨s, b⟩ ⟨t, b'⟩ := by
  induction depth generalizing p s t c b with
  | zero => cases h
  | succ depth ih =>
    have hentered : Holds p.continues c ⟨{ s with entered := s.entered + 1 }, b⟩ :=
      ⟨hs.group, hs.first, hs.opened, hs.live⟩
    obtain ⟨b', hb', hgrows⟩ := (hbody p).build (fun _ _ _ _ _ => ih) h hentered
    exact ⟨b', hb', hgrows.elements, hgrows.openNodes, hgrows.opened, hgrows.now⟩

end Grammar

/-! ## Productions that nest their nodes -/

open Grammar

namespace Grammar

open Declarations Conditions Expressions

variable {live : Bool} {f g otherwise : Rule}

namespace Nests

/-! ## Derived instructions -/

theorem ite {p : Prop} [Decidable p] (hf : Nests live f) (hg : Nests live g) :
    Nests live (if p then f else g) := by
  split
  · exact hf
  · exact hg

theorem innerGroup (h : Nests true (.seq f g)) : Nests live (.innerGroup (.seq f g)) :=
  .seq .trivia (.group h)

theorem inner {k : Kind} (h : Nests false g) : Nests live (.inner k g) :=
  .seq .trivia (.node h)

theorem bump : Nests live .bump := .take 1

theorem when {test : Ahead → Bool} (hg : Nests live g) (ho : Nests live otherwise) :
    Nests live (.when test g otherwise) :=
  .look fun _ => .ite hg ho

theorem eat {k : Kind} (hg : Nests live g) (ho : Nests live otherwise) :
    Nests live (.eat k g otherwise) :=
  .when (.seq .bump hg) ho

theorem eat_skip {k : Kind} : Nests live (.eat k) :=
  .eat .skip .skip

theorem fail {c : Kind → Complaint} : Nests live (.fail c) :=
  .look fun _ => .complain _

theorem expect {k : Kind} (hg : Nests live g) : Nests live (.expect k g) :=
  .eat hg .fail

theorem expect_skip {k : Kind} : Nests live (.expect k) :=
  .expect .skip

theorem expectName {role : Role} : Nests live (.expectName role) :=
  .when .bump .fail

theorem look_take {count : Ahead → Nat} : Nests live (.look fun a => .take (count a)) :=
  .look fun _ => .take _

theorem balanced : Nests live .balanced :=
  .look fun _ => .seq (.take _) (.ite .skip (.complain _))

theorem wrapError {n : Nat} : Nests live (.wrapError n) :=
  .ite .skip (.inner (.take n))

theorem recoverTo {stops : List Kind} : Nests live (.recoverTo stops) :=
  .seq (.look fun _ => .wrapError) (.when .recovered .skip)

theorem recoverInParens : Nests live .recoverInParens := by
  refine .ifRecovering (.look fun a => ?_) .skip
  split
  · exact .seq .wrapError .recovered
  · exact .skip

/-- A production that makes its nodes of its own groups can be called anywhere. -/
theorem call_of_not_continues {p : Production} (h : p.continues = false) : Nests live (.call p) :=
  .call (by rw [h]; rfl)

end Nests

/-! ## Productions -/

theorem nests_operand (level : Level) (half : Bool) : Nests live (operand level half) := by
  cases level <;> exact .call rfl

theorem nests_operation : Nests live operation :=
  .look fun _ => .seq (.call rfl) (.call rfl)

theorem nests_declaration {p : Production} (h : p.continues = false) :
    Nests live (.seq (.call p) (.call .declarations)) :=
  .seq (.call_of_not_continues h) (.call rfl)

/-- Every production nests its nodes. -/
theorem nests_body : (p : Production) → Nests p.continues p.body
  | .compilationUnit => .node (.seq (.call rfl) .trivia)
  | .declarations => by
    refine .seq .recovered (.look fun a => ?_)
    split
    · exact .skip
    all_goals exact nests_declaration rfl
  | .packageDecl => .node (.seq .bump (.seq (.call rfl) (.seq .eat_skip .lineTrivia)))
  | .importDecl =>
    .node (.seq .bump (.seq (.eat .skip .eat_skip) (.seq (.call rfl)
      (.seq (.when (.take 2) .skip) (.seq .eat_skip .lineTrivia)))))
  | .globalDecl =>
    .node (.seq .bump (.seq (.call rfl) (.seq .expectName (.seq .eat_skip .lineTrivia))))
  | .functionDecl =>
    .node (.seq .bump (.seq (.call rfl) (.seq .expectName (.seq (.when (.call rfl) (.complain _))
      (.seq (.when (.inner .balanced) (.seq (.complain _) .recoverTo)) .lineTrivia)))))
  | .queryDecl =>
    .node (.seq .bump (.seq (.call rfl) (.seq (.when (.call rfl) .skip)
      (.seq (.call rfl) (.seq (.call rfl) .lineTrivia)))))
  | .declareDecl =>
    .node (.seq .bump (.seq .eat_skip (.seq (.call rfl)
      (.seq (.eat (.seq (.call rfl) (.call rfl)) .skip)
        (.seq (.call rfl) (.seq (.call rfl) (.seq (.call rfl) .lineTrivia)))))))
  | .ruleDecl =>
    .node (.seq .bump (.seq (.call rfl) (.seq (.when (.call rfl) .skip) (.seq (.call rfl)
      (.seq (.when (.call rfl) .skip) (.seq (.when .skip (.seq .fail .recoverTo))
        (.seq (.when (.call rfl) .skip) (.seq (.when .skip (.seq .fail .recoverTo))
          (.seq (.when (.call rfl) .skip) (.seq (.call rfl) .lineTrivia))))))))))
  | .strayTokens => .node (.seq .fail (.seq .bump (.seq .look_take .lineTrivia)))
  | .supertypes => .eat (.seq (.call rfl) (.call rfl)) .skip
  | .annotations => .when (.seq (.call rfl) (.call rfl)) .skip
  | .annotated => .inner (.seq .bump (.seq (.call rfl) (.when .balanced .skip)))
  | .fields =>
    .look fun _ => .ite .skip (.ite (.seq (.call rfl) (.call rfl))
      (.seq .fail (.seq .recoverTo (.call rfl))))
  | .field =>
    .inner (.seq (.take 2) (.seq (.call rfl) (.seq (.eat (.call rfl) .skip) (.call rfl))))
  | .declName _ => .when (.inner .bump) .fail
  | .parent => .inner (.seq .bump (.when .bump (.complain _)))
  | .attributeList => .inner (.call rfl)
  | .attributes =>
    .look fun _ => .ite (.seq .bump (.seq .eat_skip (.call rfl)))
      (.ite (.seq .bump (.call rfl)) (.ite (.seq (.call rfl) (.call rfl)) .skip))
  | .attribute => by
    refine .inner (.seq (.look fun a => ?_) (.seq .bump (.look fun a => ?_)))
    · split
      · exact .ite (.complain _) .skip
      · exact .skip
    · split
      · exact .inner (.seq .bump (.call rfl))
      iterate 4 exact .inner .bump
      · exact .ite (.inner (.take 2)) .skip
      · exact .inner .balanced
      · exact .skip
  | .stringList => .when (.seq (.take 2) (.call rfl)) .skip
  | .whenClause => .inner (.seq .bump (.seq .eat_skip (.call rfl)))
  | .thenClause => .inner (.seq .bump (.inner .eat_skip))
  | .blockEnd _ => .eat .skip (.when (.complain _) .fail)
  | .parameterList => .inner (.seq .bump (.seq (.when .skip (.call rfl)) .expect_skip))
  | .parameters => .seq (.call rfl) (.eat (.call rfl) .skip)
  | .parameter => .inner (.seq (.call rfl) (.when .bump .skip))
  | .qualifiedName => .when (.inner (.seq .bump (.call rfl))) .fail
  | .nameParts => .when (.seq (.take 2) (.call rfl)) .skip
  | .typeRef =>
    .when (.inner (.seq (.call rfl) (.seq (.when .look_take .skip) (.call rfl)))) .fail
  | .dimensions => .when (.seq (.take 2) (.call rfl)) .skip
  | .conditions =>
    .look fun _ => .ite .skip (.seq (.ite (.seq (.call rfl) .eat_skip) .fail)
      (.seq (.ifRecovering .recoverTo .skip) (.call rfl)))
  | .lhsOr =>
    .innerGroup (.seq (.call rfl)
      (.when (.enclose (.seq .bump (.seq (.call rfl) (.call rfl)))) .skip))
  | .lhsOrRest => .when (.seq .bump (.seq (.call rfl) (.call rfl))) .skip
  | .lhsAnd =>
    .innerGroup (.seq (.call rfl)
      (.when (.enclose (.seq .bump (.seq (.call rfl) (.call rfl)))) .skip))
  | .lhsAndRest => .when (.seq .bump (.seq (.call rfl) (.call rfl))) .skip
  | .lhsUnary => by
    refine .look fun a => ?_
    split
    iterate 2 exact .inner (.seq .bump (.call rfl))
    iterate 2 exact .inner (.seq .bump (.expect (.seq (.call rfl) .expect_skip)))
    iterate 4 exact .call rfl
    exact .complain _
  | .forallItems => .when (.seq (.call rfl) (.ifRecovering .skip (.call rfl))) .skip
  | .prefixOperands => .when (.seq (.call rfl) (.ifRecovering .skip (.call rfl))) .skip
  | .lhsParen => by
    refine .inner (.seq .bump (.seq (.look fun a => ?_) .expect_skip))
    split
    iterate 2 exact .inner (.seq .bump (.call rfl))
    exact .call rfl
  | .pattern =>
    .inner (.seq (.when (.call rfl) .skip) (.seq .eat_skip (.seq (.call rfl)
      (.seq (.expect (.seq (.when .skip (.call rfl)) .recoverInParens)) (.seq .expect_skip
        (.seq (.when (.call rfl) .skip) (.when (.call rfl) .skip)))))))
  | .constraints => .seq (.call rfl) (.eat (.call rfl) .skip)
  | .binding => .inner (.take 2)
  | .constraint => .inner (.seq (.when (.call rfl) .skip) (.call rfl))
  | .window =>
    .inner (.seq .bump (.expect (.expect (.seq .expectName (.when (.inner .balanced) .skip)))))
  | .source => by
    refine .inner (.seq .bump (.look fun a => ?_))
    split
    · exact .call rfl
    · exact .inner (.seq .bump (.expect (.seq (.call rfl) .expect_skip)))
    · exact .inner (.seq .bump (.eat .skip (.call rfl)))
    · exact .call rfl
  | .accumulate =>
    .inner (.seq .bump (.expect (.seq (.call rfl)
      (.seq (.eat .look_take (.eat .look_take .skip)) .expect_skip))))
  | .expr => .call rfl
  | .ternary =>
    .innerGroup (.seq (.call rfl)
      (.when (.enclose (.seq .bump (.seq (.call rfl) (.seq .expect_skip (.call rfl))))) .skip))
  | .binary level half => .innerGroup (.seq (nests_operand level half) (.call rfl))
  | .binaryRest level =>
    .when (.seq (.enclose (.seq .bump (nests_operand level _))) (.call rfl)) .skip
  | .relational _ =>
    .when (.inner nests_operation) (.innerGroup (.seq (.call rfl) (.call rfl)))
  | .relationalRest => .when (.seq (.enclose nests_operation) (.call rfl)) .skip
  | .operator =>
    .look fun _ => .inner (.seq .eat_skip (.seq (.eat .expect_skip .bump)
      (.ite (.when (.inner (.seq .bump (.seq .look_take .expect_skip))) .skip) .skip)))
  | .relationalRhs _ => .ite (.call rfl) (.when (.call rfl) (.call rfl))
  | .unary => by
    refine .look fun a => ?_
    split
    iterate 6 exact .inner (.seq .bump (.call rfl))
    exact .ite (.inner (.seq .bump (.seq (.call rfl) (.seq .expect_skip (.call rfl))))) (.call rfl)
  | .postfixed => .innerGroup (.seq (.call rfl) (.call rfl))
  | .suffixes => by
    have hname : Nests true (.seq (.take 2)
        (.seq (.whenAt .lParen (.seq (.call .argList) (.enclose .methodCall .skip))
          (.enclose .fieldAccess .skip)) (.call .suffixes))) :=
      .seq (.take 2) (.seq (.when (.seq (.call rfl) (.enclose .skip)) (.enclose .skip)) (.call rfl))
    have hstep : Nests true (.seq .bump (.seq (.enclose .unaryExpr .skip) (.call .suffixes))) :=
      .seq .bump (.seq (.enclose .skip) (.call rfl))
    refine .look fun a => ?_
    split
    iterate 2 exact .ite hname .skip
    · exact .ite (.seq .bump (.seq (.call rfl) (.seq (.enclose .skip) (.call rfl)))) .skip
    · exact .seq .bump (.seq (.call rfl) (.seq .expect_skip (.seq (.enclose .skip) (.call rfl))))
    iterate 2 exact .ite hstep .skip
    exact .skip
  | .primary => by
    refine .look fun a => .ite (.inner .bump) (.ite ?_ ?_)
    · exact .innerGroup (.seq (.node .bump) (.when (.seq (.call rfl) (.enclose .skip)) .skip))
    · split
      · exact .call rfl
      · exact .inner (.seq .bump (.seq (.call rfl) (.seq .recoverInParens .expect_skip)))
      · exact .call rfl
      · exact .complain _
  | .creation => by
    refine .inner (.seq .bump (.seq (.call rfl) (.look fun a => ?_)))
    split
    · exact .call rfl
    · exact .seq (.call rfl) (.when .balanced .skip)
    · exact .complain _
  | .creationDims => .when (.seq .balanced (.call rfl)) .skip
  | .arrayInit => .inner (.seq .bump (.seq (.when .skip (.call rfl)) .expect_skip))
  | .arrayItems => .seq (.call rfl) (.seq (.eat (.call rfl) .skip) (.eat (.call rfl) .skip))
  | .argList =>
    .inner (.seq .bump (.seq (.when .skip (.call rfl)) (.seq .recoverInParens .expect_skip)))
  | .arguments => .seq (.call rfl) (.eat (.call rfl) .skip)

end Grammar

end RuleLang
