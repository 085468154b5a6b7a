import RuleLang.Proofs.Tree.Places
import RuleLang.Proofs.Visitor.Calls

/-!
# Traversals

The calls of a walk that is not stopped nest as the tree does. Nodes are entered and tokens are
visited in preorder, each once, and what is left out are exactly the places below the nodes whose
children are passed over. A node is left once for each time it is entered, and in between are exactly
the calls below it.

A visitor that is put together from hooks calls all hooks for a kind, whatever the ones before ask
for.

## Main definitions

* `Trace` — calls that follow a list of elements, by the shape of the elements.
* `Traverses` — what the calls of a whole walk are.
* `Hook.reactions` — what hooks give that are called one after another.

## Main statements

* `Visitor.trace_callsOfAll` — the calls by recursion follow the elements.
* `Trace.traverses` — what follows the root of a tree is a whole walk.
* `SyntaxTree.walk_contract` — the calls of a walk, of one that is not stopped, and of hooks.
-/

namespace RuleLang

open Stamped

variable {σ : Type}

namespace Call

/-- The place with this number is below that of the call. -/
def covers (c : Call σ) (n : Nat) : Bool :=
  c.number < n && n < c.number + c.place.element.size

@[grind =] theorem covers_iff {c : Call σ} {n : Nat} :
    c.covers n = true ↔ c.number < n ∧ n < c.number + c.place.element.size := by
  simp [covers]

/-- One of the calls passes over the place with this number. -/
def passOver (calls : List (Call σ)) (n : Nat) : Bool :=
  calls.any fun c => c.skips && c.covers n

theorem passOver_cons (c : Call σ) (calls : List (Call σ)) (n : Nat) :
    passOver (c :: calls) n = (c.skips && c.covers n || passOver calls n) := rfl

theorem passOver_cons_of_not_skips {c : Call σ} (h : c.skips = false) (calls : List (Call σ))
    (n : Nat) : passOver (c :: calls) n = passOver calls n := by
  rw [passOver_cons, h, Bool.false_and, Bool.false_or]

theorem passOver_append (a b : List (Call σ)) (n : Nat) :
    passOver (a ++ b) n = (passOver a n || passOver b n) :=
  List.any_append

/-- The places of calls are from `n` on, and so are those below them, up to `m`. -/
def Within (n m : Nat) (calls : List (Call σ)) : Prop :=
  ∀ c ∈ calls, n ≤ c.number ∧ c.number + c.place.element.size ≤ m

namespace Within

variable {n m k : Nat} {calls : List (Call σ)}

theorem passOver_eq_false (h : Within n m calls) (hk : k ≤ n ∨ m ≤ k) :
    passOver calls k = false := by
  refine List.any_eq_false.mpr fun c hc => ?_
  have := h c hc
  grind

/-- Calls elsewhere are not below a place. -/
theorem filter_covers_eq_nil (h : Within n m calls) {c : Call σ}
    (hc : m ≤ c.number ∨ c.number + c.place.element.size ≤ n) :
    calls.filter (fun d => c.covers d.number) = [] := by
  refine List.filter_eq_nil_iff.mpr fun d hd => ?_
  have := h d hd
  have := d.place.element.size_pos
  grind

end Within

/-- Between a call that enters a node and one that leaves it are exactly the calls below it. -/
def Bracketed (calls : List (Call σ)) (c : Call σ) : Prop :=
  ∃ before left after,
    calls = before ++ c :: (calls.filter (fun d => c.covers d.number) ++ left :: after) ∧
      left.point = .leave ∧ left.number = c.number

/-! Calls elsewhere do not matter. -/

theorem Bracketed.append_left {before calls : List (Call σ)} {c : Call σ} (h : Bracketed calls c)
    (apart : before.filter (fun d => c.covers d.number) = []) : Bracketed (before ++ calls) c := by
  obtain ⟨front, left, back, split, leaves⟩ := h
  refine ⟨before ++ front, left, back, ?_, leaves⟩
  rw [List.filter_append, apart, List.nil_append, List.append_assoc, ← split]

theorem Bracketed.append_right {calls after : List (Call σ)} {c : Call σ} (h : Bracketed calls c)
    (apart : after.filter (fun d => c.covers d.number) = []) : Bracketed (calls ++ after) c := by
  obtain ⟨front, left, back, split, leaves⟩ := h
  refine ⟨front, left, back ++ after, ?_, leaves⟩
  rw [List.filter_append, apart, List.append_nil]
  conv => lhs; rw [split]
  simp

theorem Bracketed.cons {d : Call σ} {calls : List (Call σ)} {c : Call σ} (h : Bracketed calls c)
    (apart : c.covers d.number = false) : Bracketed (d :: calls) c := by
  have alone : [d].filter (fun e => c.covers e.number) = [] := by simp [apart]
  exact h.append_left alone

/-- A node around calls below it. -/
theorem Bracketed.of_within {enter left : Call σ} {inner after : List (Call σ)} {n : Nat}
    (inside : Within (enter.number + 1) (enter.number + enter.place.element.size) inner)
    (leaves : left.point = .leave) (same : left.number = enter.number)
    (behind : Within (enter.number + enter.place.element.size) n after) :
    Bracketed (enter :: (inner ++ left :: after)) enter := by
  refine ⟨[], left, after, ?_, leaves, same⟩
  have below : inner.filter (fun d => enter.covers d.number) = inner := by
    refine List.filter_eq_self.mpr fun d hd => ?_
    have := inside d hd
    have := d.place.element.size_pos
    grind
  have itself : enter.covers enter.number = false := by simp [covers]
  simp [List.filter_append, itself, same, below, behind.filter_covers_eq_nil (.inr (Nat.le_refl _))]

end Call

/-! ## Calls that follow elements -/

/-- Calls that follow elements which stand one after another. -/
inductive Trace : Nat → Nat → List Nat → List Stamped → List (Call σ) → Prop
  | nil {n offset : Nat} {above : List Nat} : Trace n offset above [] []
  | token {n offset s : Nat} {above : List Nat} {k : Kind} {t : List Char} {es : List Stamped}
      {r : Reaction σ} {rest : List (Call σ)} :
      Trace (n + 1) (offset + (Stamped.token s k t).width) above es rest →
      Trace n offset above (.token s k t :: es)
        (⟨.token, n, ⟨offset, .token s k t, above⟩, r⟩ :: rest)
  | passed {n offset s : Nat} {above : List Nat} {k : Kind} {cs es : List Stamped}
      {r l : Reaction σ} {rest : List (Call σ)} :
      r.action = .skipChildren →
      Trace (n + (sizeOfAll cs + 1)) (offset + (Stamped.node s k cs).width) above es rest →
      Trace n offset above (.node s k cs :: es)
        (⟨.enter, n, ⟨offset, .node s k cs, above⟩, r⟩ ::
          ⟨.leave, n, ⟨offset, .node s k cs, above⟩, l⟩ :: rest)
  | node {n offset s : Nat} {above : List Nat} {k : Kind} {cs es : List Stamped}
      {r l : Reaction σ} {inner rest : List (Call σ)} :
      r.action ≠ .skipChildren →
      Trace (n + 1) offset (n :: above) cs inner →
      Trace (n + (sizeOfAll cs + 1)) (offset + (Stamped.node s k cs).width) above es rest →
      Trace n offset above (.node s k cs :: es)
        (⟨.enter, n, ⟨offset, .node s k cs, above⟩, r⟩ ::
          (inner ++ ⟨.leave, n, ⟨offset, .node s k cs, above⟩, l⟩ :: rest))

namespace Visitor

variable (v : Visitor σ) (i : TreeIndex)

mutual

theorem trace_callsFrom (number offset : Nat) (above : List Nat) {es : List Stamped}
    {rest : List (Call σ)} :
    (e : Stamped) → (state : σ) → Trace (number + e.size) (offset + e.width) above es rest →
      Trace number offset above (e :: es) (v.callsFrom i number offset above e state ++ rest)
  | .token _ _ _, _, h => .token h
  | .node s k cs, state, h => by
    rw [callsFrom, List.cons_append, List.append_assoc, List.singleton_append]
    split
    · next skips => exact .passed skips h
    · next enters => exact .node enters (trace_callsOfAll _ _ _ cs _) h

/-- The calls by recursion follow the elements. -/
theorem trace_callsOfAll (number offset : Nat) (above : List Nat) :
    (es : List Stamped) → (state : σ) →
      Trace number offset above es (v.callsOfAll i number offset above es state)
  | [], _ => .nil
  | e :: es, state => trace_callsFrom number offset above e state (trace_callsOfAll _ _ above es _)

end

end Visitor

namespace Trace

open Call

variable {n offset : Nat} {above : List Nat} {es : List Stamped} {calls : List (Call σ)}

theorem within (h : Trace n offset above es calls) : Within n (n + sizeOfAll es) calls := by
  induction h with
  | nil => exact fun _ h => nomatch h
  | token _ ih | passed _ _ ih =>
    intro c hc
    have := ih c
    grind [Stamped.size, Stamped.sizeOfAll]
  | node _ _ _ ihInner ihRest =>
    intro c hc
    have := ihInner c
    have := ihRest c
    grind [Stamped.size, Stamped.sizeOfAll]

/-- The calls are at places of the tree. -/
theorem placed {root : Stamped} (h : Trace n offset above es calls)
    (listed : Listed root n (placesOfAll n offset above es)) :
    ∀ c ∈ calls, root.places[c.number]? = some c.place ∧
      (c.point = .token ↔ c.place.element.isNode = false) := by
  induction h with
  | nil => exact fun _ h => nomatch h
  | token _ ih =>
    rintro c (_ | ⟨_, hc⟩)
    · exact ⟨listed.head.here, by simp [isNode]⟩
    · exact ih listed.tail c hc
  | passed _ _ ih =>
    rintro c (_ | ⟨_, _ | ⟨_, hc⟩⟩)
    · exact ⟨listed.head.here, by simp [isNode]⟩
    · exact ⟨listed.head.here, by simp [isNode]⟩
    · exact ih listed.tail c hc
  | node _ _ _ ihInner ihRest =>
    intro c hc
    simp only [List.mem_cons, List.mem_append] at hc
    rcases hc with rfl | hc | rfl | hc
    · exact ⟨listed.head.here, by simp [isNode]⟩
    · exact ihInner listed.head.children c hc
    · exact ⟨listed.head.here, by simp [isNode]⟩
    · exact ihRest listed.tail c hc

/-- A node is left as often as it is entered. -/
theorem left_perm_entered (h : Trace n offset above es calls) :
    ((calls.filter (·.point == .leave)).map number).Perm
      ((calls.filter (·.point == .enter)).map number) := by
  induction h with
  | nil => exact .refl _
  | token _ ih => simpa using ih
  | passed _ _ ih => simpa using ih
  | node _ _ _ ihInner ihRest =>
    simpa using List.perm_middle.trans ((ihInner.append ihRest).cons _)

/-- The numbers of a node, of those below it, and of those behind it, each kept by a test of its
own. -/
theorem filter_range'_node (below behind : Nat → Bool) {keep : Nat → Bool} {n inner rest : Nat}
    (here : keep n = true) (inside : ∀ m, n < m → m < n + (inner + 1) → keep m = below m)
    (after : ∀ m, n + (inner + 1) ≤ m → keep m = behind m) :
    (List.range' n (inner + 1 + rest)).filter keep =
      n :: ((List.range' (n + 1) inner).filter below ++
        (List.range' (n + (inner + 1)) rest).filter behind) := by
  rw [show inner + 1 + rest = (inner + rest) + 1 by omega, List.range'_succ,
    List.filter_cons_of_pos here, show inner + rest = inner + 1 * rest by omega,
    ← List.range'_append, List.filter_append, Nat.one_mul, Nat.one_mul,
    show n + (inner + 1) = n + 1 + inner by omega]
  congr 2
  · exact List.filter_congr fun m hm => inside m (by grind) (by grind)
  · exact List.filter_congr fun m hm => after m (by grind)

/-- Nodes are entered and tokens are visited in preorder, save those passed over. -/
theorem visited (h : Trace n offset above es calls) :
    (calls.filter (·.point != .leave)).map number =
      (List.range' n (sizeOfAll es)).filter (fun m => !passOver calls m) := by
  induction h with
  | nil => rfl
  | @token n offset s above k t es r rest behind ih =>
    have first : passOver rest n = false := behind.within.passOver_eq_false (.inl (by omega))
    have kept := passOver_cons_of_not_skips (c := ⟨.token, n, ⟨offset, .token s k t, above⟩, r⟩) rfl
      rest
    simp only [sizeOfAll, Stamped.size, kept]
    rw [show 1 + sizeOfAll es = 0 + 1 + sizeOfAll es by omega,
      filter_range'_node _ _ (by simp [first]) (fun _ _ _ => rfl) (fun _ _ => rfl), ← ih]
    rfl
  | @passed n offset s above k cs es r l rest passes behind ih =>
    have first : passOver rest n = false := behind.within.passOver_eq_false (.inl (by omega))
    have passed : ∀ m, passOver (⟨.enter, n, ⟨offset, .node s k cs, above⟩, r⟩ ::
        ⟨.leave, n, ⟨offset, .node s k cs, above⟩, l⟩ :: rest) m =
          (decide (n < m ∧ m < n + (sizeOfAll cs + 1)) || passOver rest m) := fun m => by
      rw [passOver_cons, passOver_cons_of_not_skips rfl, Bool.eq_iff_iff, Bool.or_eq_true,
        Bool.and_eq_true, covers_iff]
      simp [skips, passes, Stamped.size]
    simp only [sizeOfAll, Stamped.size, passed]
    rw [filter_range'_node (fun _ => false) (fun m => !passOver rest m) (by simp [first])
      (by grind) (by grind), ← ih]
    simp
  | @node n offset s above k cs es r l inner rest enters inside behind ihInner ihRest =>
    have beforeInner := fun m (h : m ≤ n) =>
      inside.within.passOver_eq_false (.inl (Nat.le_succ_of_le h))
    have afterInner := fun m (h : n + (sizeOfAll cs + 1) ≤ m) =>
      inside.within.passOver_eq_false (k := m) (.inr (by omega))
    have beforeRest := fun m (h : m < n + (sizeOfAll cs + 1)) =>
      behind.within.passOver_eq_false (.inl (Nat.le_of_lt h))
    have kept : ∀ m, passOver (⟨.enter, n, ⟨offset, .node s k cs, above⟩, r⟩ ::
        (inner ++ ⟨.leave, n, ⟨offset, .node s k cs, above⟩, l⟩ :: rest)) m =
          (passOver inner m || passOver rest m) := fun m => by
      rw [passOver_cons_of_not_skips (by simp [skips, enters]), passOver_append,
        passOver_cons_of_not_skips rfl]
    simp only [sizeOfAll, Stamped.size, kept]
    rw [filter_range'_node (fun m => !passOver inner m) (fun m => !passOver rest m) (by grind)
      (by grind) (by grind), ← ihInner, ← ihRest]
    simp

/-- Between entering a node and leaving it are exactly the calls below it. -/
theorem bracketed (h : Trace n offset above es calls) {c : Call σ} (hc : c ∈ calls)
    (enters : c.point = .enter) : Bracketed calls c := by
  induction h with
  | nil => exact nomatch hc
  | @token n offset s above k t es r rest behind ih =>
    rcases hc with _ | ⟨_, hc⟩
    · cases enters
    have apart : c.covers n = false := by grind [behind.within c hc]
    exact (ih hc).cons apart
  | @passed n offset s above k cs es r l rest _ behind ih =>
    rcases hc with _ | ⟨_, _ | ⟨_, hc⟩⟩
    · exact @Bracketed.of_within σ _ _ [] rest _ (fun _ h => nomatch h) rfl rfl behind.within
    · cases enters
    have apart : c.covers n = false := by grind [behind.within c hc]
    exact ((ih hc).cons apart).cons apart
  | @node n offset s above k cs es r l inner rest _ inside behind ihInner ihRest =>
    have span : (Stamped.node s k cs).size = sizeOfAll cs + 1 := rfl
    simp only [List.mem_cons, List.mem_append] at hc
    rcases hc with rfl | hc | rfl | hc
    · exact .of_within (by simpa [span, Nat.add_assoc, Nat.add_comm 1] using inside.within) rfl rfl
        behind.within
    · have := inside.within c hc
      have apart : c.covers n = false := by grind
      have behind := behind.within.filter_covers_eq_nil (c := c) (.inr (by omega))
      exact ((ihInner hc).append_right (by simpa [apart] using behind)).cons apart
    · cases enters
    · have := behind.within c hc
      have apart : c.covers n = false := by grind
      have inside := inside.within.filter_covers_eq_nil (c := c) (.inl (by omega))
      exact (((ihRest hc).cons apart).append_left inside).cons apart

end Trace

/-! ## Whole walks -/

/-- A call that passes over the children of a node above the place with this number. -/
def Call.passesOver (root : Stamped) (n : Nat) (c : Call σ) : Bool :=
  c.skips && root.places[n]?.any fun p => p.above.contains c.number

/-- What the calls of a whole walk are. -/
structure Traverses (root : Stamped) (calls : List (Call σ)) : Prop where
  /-- The calls are at places of the tree. -/
  placed : ∀ c ∈ calls, root.places[c.number]? = some c.place ∧
    (c.point = .token ↔ c.place.element.isNode = false)
  /-- Nodes are entered and tokens are visited in preorder, each once. What is left out are the
  places below nodes whose children are passed over. -/
  visited : (calls.filter (·.point != .leave)).map Call.number =
    (List.range root.places.length).filter fun n => !calls.any (Call.passesOver root n)
  /-- Nodes are left as often as they are entered. -/
  left : ((calls.filter (·.point == .leave)).map Call.number).Perm
    ((calls.filter (·.point == .enter)).map Call.number)
  /-- Between entering a node and leaving it are exactly the calls below it. -/
  nested : ∀ c ∈ calls, c.point = .enter → ∃ before left after,
    calls = before ++
        c :: (calls.filter (fun d => d.place.above.contains c.number) ++ left :: after) ∧
      left.point = .leave ∧ left.number = c.number

/-- A place is below that of a call if the call is at a node above it. -/
theorem Call.covers_eq_contains {root : Stamped} {c : Call σ} {n : Nat} {p : Place}
    (hc : root.places[c.number]? = some c.place) (hp : root.places[n]? = some p) :
    c.covers n = p.above.contains c.number := by
  rw [Bool.eq_iff_iff, covers_iff, List.contains_iff_mem, mem_above hp]
  simp [hc]

theorem Trace.traverses {root : Stamped} {calls : List (Call σ)} (h : Trace 0 0 [] [root] calls) :
    Traverses root calls := by
  have listed : placesOfAll 0 0 [] [root] = root.places := by simp [placesOfAll, places]
  have all : Listed root 0 (placesOfAll 0 0 [] [root]) := listed ▸ List.prefix_refl _
  have placed := h.placed all
  refine ⟨placed, ?_, h.left_perm_entered, fun c hc enters => ?_⟩
  · have all : root.places.length = sizeOfAll [root] := by
      rw [← listed, length_placesOfAll]
    rw [h.visited, all, List.range_eq_range']
    refine List.filter_congr fun n hn => congrArg _ ?_
    obtain ⟨p, hp⟩ : ∃ p, root.places[n]? = some p :=
      ⟨_, List.getElem?_eq_getElem (by rw [all]; simpa using hn)⟩
    have same : ∀ c ∈ calls, (c.skips && c.covers n) = Call.passesOver root n c := fun c hc => by
      rw [Call.covers_eq_contains (placed c hc).1 hp, Call.passesOver, hp, Option.any_some]
    rw [Call.passOver, Bool.eq_iff_iff, List.any_eq_true, List.any_eq_true]
    exact exists_congr fun c => and_congr_right fun hc => by rw [same c hc]
  · obtain ⟨before, left, after, split, leaves⟩ := h.bracketed hc enters
    refine ⟨before, left, after, ?_, leaves⟩
    rwa [List.filter_congr fun d hd => Call.covers_eq_contains (placed c hc).1 (placed d hd).1]
      at split

/-! ## Hooks -/

/-- What hooks give that are called one after another. -/
def Hook.reactions (visit : Visit) : List (Hook σ) → σ → List (Reaction σ)
  | [], _ => []
  | h :: hs, s => h.run visit s :: Hook.reactions visit hs (h.run visit s).state

/-- The hooks for a point of the walk and a kind, in the order of the list. -/
def Hook.listening (hooks : List (Hook σ)) (point : HookPoint) (kind : Kind) : List (Hook σ) :=
  hooks.filter fun h => h.point == point && h.kind == kind

namespace VisitAction

theorem strength_merge (a b : VisitAction) : (a.merge b).strength = max a.strength b.strength := by
  cases a <;> cases b <;> rfl

theorem merge_eq_or (a b : VisitAction) : a.merge b = a ∨ a.merge b = b := by
  cases a <;> cases b <;> decide

end VisitAction

/-- What one reaction and then another give together. -/
def Reaction.join (r next : Reaction σ) : Reaction σ :=
  ⟨next.state, r.edits ++ next.edits, r.action.merge next.action⟩

theorem Visitor.runHooks_eq (hooks : List (Hook σ)) (point : HookPoint) (visit : Visit) (s : σ) :
    Visitor.runHooks hooks point visit s =
      (Hook.reactions visit (Hook.listening hooks point visit.place.element.kind) s).foldl
        Reaction.join { state := s } := by
  have run : ∀ (hooks : List (Hook σ)) (r : Reaction σ),
      hooks.foldl (fun r h => r.join (h.run visit r.state)) r =
        (Hook.reactions visit hooks r.state).foldl Reaction.join r := by
    intro hooks
    induction hooks with
    | nil => exact fun _ => rfl
    | cons h hooks ih => exact fun r => ih _
  exact run _ _

/-- Reactions together: the last state, all edits in order, and the strongest action. -/
theorem Reaction.foldl_join (rs : List (Reaction σ)) (r : Reaction σ) :
    let whole := rs.foldl Reaction.join r
    whole.state = ((rs.getLast?.map Reaction.state).getD r.state) ∧
      whole.edits = r.edits ++ rs.flatMap Reaction.edits ∧
      (∀ q ∈ r :: rs, q.action.strength ≤ whole.action.strength) ∧
      ∃ q ∈ r :: rs, whole.action = q.action := by
  induction rs generalizing r with
  | nil => simp
  | cons next rs ih =>
    obtain ⟨state, edits, strongest, q, hq, decides⟩ := ih (r.join next)
    have both := VisitAction.strength_merge r.action next.action
    have joined := strongest _ List.mem_cons_self
    refine ⟨?_, ?_, ?_, ?_⟩
    · rw [List.foldl_cons, state]
      cases rs <;> simp [join, List.getLast?_cons]
    · rw [List.foldl_cons, edits]
      simp [join]
    · rintro q (_ | ⟨_, _ | ⟨_, hq⟩⟩)
      · exact Nat.le_trans (by rw [join, both]; omega) joined
      · exact Nat.le_trans (by rw [join, both]; omega) joined
      · exact strongest q (.tail _ hq)
    · rw [List.foldl_cons, decides]
      rcases hq with _ | ⟨_, hq⟩
      · rcases VisitAction.merge_eq_or r.action next.action with one | other
        · exact ⟨r, .head _, one⟩
        · exact ⟨next, .tail _ (.head _), other⟩
      · exact ⟨q, .tail _ (.tail _ hq), rfl⟩

/-- What the call of a visitor made of hooks gives, from what the hooks give. Leaving a node asks for
no action. -/
structure Reaction.Gathers (whole : Reaction σ) (point : HookPoint) (s : σ)
    (ran : List (Reaction σ)) : Prop where
  state : whole.state = (ran.getLast?.map Reaction.state).getD s
  edits : whole.edits = ran.flatMap Reaction.edits
  strongest : point ≠ .leave → ∀ r ∈ ran, r.action.strength ≤ whole.action.strength
  decides : whole.action = .descend ∨ ∃ r ∈ ran, whole.action = r.action

/-- All hooks for the kind of the element are called, in order. -/
theorem Visitor.gathers_ofHooks (hooks : List (Hook σ)) (point : HookPoint) (visit : Visit)
    (s : σ) :
    ((ofHooks hooks).call point visit s).Gathers point s
      (Hook.reactions visit (Hook.listening hooks point visit.place.element.kind) s) := by
  obtain ⟨state, edits, strongest, q, hq, decides⟩ := Reaction.foldl_join
    (Hook.reactions visit (Hook.listening hooks point visit.place.element.kind) s) { state := s }
  rw [← runHooks_eq] at state edits strongest decides
  have decides : (runHooks hooks point visit s).action = .descend ∨ ∃ r ∈ Hook.reactions visit
      (Hook.listening hooks point visit.place.element.kind) s,
        (runHooks hooks point visit s).action = r.action := by
    rcases hq with _ | ⟨_, hq⟩
    · exact .inl decides
    · exact .inr ⟨q, hq, decides⟩
  have strongest := fun r hr => strongest r (List.mem_cons_of_mem _ hr)
  cases point with
  | enter => exact ⟨state, edits, fun _ => strongest, decides⟩
  | token => exact ⟨state, edits, fun _ => strongest, decides⟩
  | leave => exact ⟨state, edits, fun h => absurd rfl h, .inl rfl⟩

/-! ## The contract of a walk -/

/-- The calls of a walk are those of the recursion up to the first one that stops, and if none stops,
they are those of a whole walk. A visitor made of hooks calls each hook for the kind of the element,
in order and with the state that the hook before it left, keeps all edits, and asks for the strongest
of the actions. -/
theorem SyntaxTree.walk_contract (t : SyntaxTree) (v : Visitor σ) (s : σ) :
    let made := Call.upToStop (v.callsFrom t.index 0 0 [] t.root s)
    (t.walk v.logged (s, [])).state.2 = made.map Call.entry ∧
      t.walk v s =
        ⟨Call.stateAfter s made, made.flatMap (·.reaction.edits), made.any Call.stops⟩ ∧
      ((t.walk v s).stopped = false → Traverses t.root made) ∧
      ∀ (hooks : List (Hook σ)) (point : HookPoint) (visit : Visit) (s : σ),
        ((Visitor.ofHooks hooks).call point visit s).Gathers point s
          (Hook.reactions visit (Hook.listening hooks point visit.place.element.kind) s) := by
  intro made
  refine ⟨t.log_walk v s, t.walk_eq_through v s, fun running => ?_, Visitor.gathers_ofHooks⟩
  rw [t.walk_eq_through, Call.any_stops_upToStop] at running
  have trace := v.trace_callsOfAll t.index 0 0 [] [t.root] s
  rw [Visitor.callsOfAll, Visitor.callsOfAll, List.append_nil] at trace
  simpa only [made, Call.upToStop_of_running running] using trace.traverses

end RuleLang
