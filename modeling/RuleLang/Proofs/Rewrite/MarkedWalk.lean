import RuleLang.Proofs.Rewrite.Marking
import RuleLang.Proofs.Visitor.Walk

/-!
# Walks that ask for marks

A visitor may decide on elements from the root down, as a marking does: it asks for the edits for
the marks of an element and passes over what is below, or it goes on to the children. Then a walk
asks for the edits for all marks. In the simplest case a visitor asks for a change of at most one
child at each node of some kind.

## Main definitions

* `Marking.Directs` — a visitor decides on the elements of a tree as a marking does.
* `ChildChoice` — a child of the nodes of a kind, to be changed.
* `ChildChoice.marking` — the marks of these changes.
* `ChildChoice.Chosen` — a visitor asks for these changes.

## Main statements

* `Marking.Directs.edits_walk` — a walk asks for the edits for the marks.
-/

namespace RuleLang

open Stamped Element

/-! ## Visitors that decide as a marking does -/

namespace Marking

variable {γ : Type} {m : Marking γ} {tree : SyntaxTree} {known : γ → List Nat → Prop}
  {v : Visitor Unit}

/-- The visitor decides on the elements of the tree as the marking does, if that is told what is
known of the nodes above an element. -/
structure Directs (m : Marking γ) (tree : SyntaxTree) (known : γ → List Nat → Prop)
    (v : Visitor Unit) : Prop where
  leave : Recipe.LeavesQuietly v
  token : ∀ {c : γ} {index offset s : Nat} {above : List Nat} {k : Kind} {t : List Char},
    known c above → tree.root.places[index]? = some ⟨offset, .token s k t, above⟩ →
      v.token ⟨tree.index, ⟨offset, .token s k t, above⟩⟩ () =
        Recipe.react ((m.marks c index (.token k t)).map (Mark.edit tree.id))
  node : ∀ {c : γ} {index offset s : Nat} {above : List Nat} {k : Kind} {cs : List Stamped},
    known c above → Listed tree.root index (placesFrom index offset above (.node s k cs)) →
      v.enter ⟨tree.index, ⟨offset, .node s k cs, above⟩⟩ () =
          Recipe.react ((m.marks c index (.node k (cs.map erase))).map (Mark.edit tree.id))
            .skipChildren ∨
        ∃ f, m.decide c (.node k (cs.map erase)) = .into f ∧ (∀ n, known (f n) (index :: above)) ∧
          v.enter ⟨tree.index, ⟨offset, .node s k cs, above⟩⟩ () = Recipe.react []

namespace Directs

mutual

/-- Walking an element asks for the edits for its marks. -/
theorem walkFrom_eq (h : m.Directs tree known v) {c : γ} {index offset : Nat} {above : List Nat}
    (w : Walk Unit) (hc : known c above) :
    (e : Stamped) → Listed tree.root index (placesFrom index offset above e) →
      v.walkFrom tree.index index offset above e w =
        ⟨(), w.edits ++ (m.marks c index e.erase).map (Mark.edit tree.id), false⟩
  | .token s k t, hlisted => by
    rw [Visitor.walkFrom, h.token hc hlisted.here, Recipe.after_react]
    rfl
  | .node s k cs, hlisted => by
    rw [erase, eraseAll_eq_map]
    rcases h.node hc hlisted with hskip | ⟨f, hdecide, hknown, hdescend⟩
    · exact h.leave.walkFrom_of_skip hskip
    · rw [Marking.marks, hdecide]
      exact h.leave.walkFrom_of_walkAll hdescend
        (h.walkAll_eq ⟨(), w.edits, false⟩ f hknown cs rfl hlisted.children)

theorem walkAll_eq (h : m.Directs tree known v) {index offset : Nat} {above : List Nat}
    (w : Walk Unit) (f : Nat → γ) (hknown : ∀ n, known (f n) above) :
    (es : List Stamped) → w.stopped = false →
      Listed tree.root index (placesOfAll index offset above es) →
      v.walkAll tree.index index offset above es w =
        ⟨(), w.edits ++ (m.marksOfAll f index (es.map erase)).map (Mark.edit tree.id), false⟩
  | [], hw, _ => by
    obtain ⟨s, edits, stopped⟩ := w
    simp [Visitor.walkAll, Marking.marksOfAll] at hw ⊢
    exact hw
  | e :: es, _, hlisted => by
    have he := h.walkFrom_eq w (hknown 0) e hlisted.head
    have hes (edits : List Edit) := h.walkAll_eq ⟨(), edits, false⟩ (fun n => f (n + 1))
      (fun n => hknown (n + 1)) es rfl hlisted.tail
    rw [Visitor.walkAll, he]
    simp only [Bool.false_eq_true, if_false, List.map_cons, Marking.marksOfAll, size_erase, hes,
      List.map_append, List.append_assoc]

end

/-- A walk asks for the edits for the marks. -/
theorem edits_walk (h : m.Directs tree known v) {c : γ} (hc : known c []) :
    (tree.walk v ()).edits = m.edits c tree := by
  rw [SyntaxTree.walk_eq, h.walkFrom_eq ⟨(), [], false⟩ hc tree.root (.root tree.root)]
  rfl

end Directs

end Marking

/-! ## One child of some nodes -/

/-- A child of the nodes of a kind, to be changed. -/
structure ChildChoice where
  kind : Kind
  /-- The child, told by its position. -/
  child? : List Element → Option Nat
  lt_length : ∀ {cs n}, child? cs = some n → n < cs.length
  change : Element → Action
  /-- Nodes of other kinds that are passed over. -/
  hides : Kind → Bool

/-- What is known of an element from the nodes above it. -/
inductive ChildStance where
  /-- It stands in no node of the kind, and in no node that is passed over. -/
  | outside
  /-- It is the child that is to be changed. -/
  | chosen
  /-- It stands anywhere else in a node of the kind. -/
  | inside

/-- What is known of a child by its position, and by that of the child that is to be changed. -/
def ChildStance.at (choice : Option Nat) (n : Nat) : ChildStance :=
  if choice = some n then .chosen else .inside

namespace ChildChoice

variable (q : ChildChoice)

/-- The chosen children are marked. -/
def marking : Marking ChildStance where
  decide
    | .chosen, e => .act (q.change e)
    | .outside, .node k cs =>
      if k = q.kind then .into (.at (q.child? cs))
      else if q.hides k then .keep
      else .into fun _ => .outside
    | _, _ => .keep

theorem at_none (n : Nat) : ChildStance.at none n = .inside := rfl

theorem at_succ (k n : Nat) : ChildStance.at (some (k + 1)) (n + 1) = .at (some k) n := by
  simp [ChildStance.at]

theorem at_zero_succ (n : Nat) : ChildStance.at (some 0) (n + 1) = .at none n := by
  simp [ChildStance.at]

variable {q}

theorem decide_of_kind {k : Kind} (h : k = q.kind) (cs : List Element) :
    q.marking.decide .outside (.node k cs) = .into (.at (q.child? cs)) :=
  if_pos h

theorem decide_of_hides {k : Kind} (hk : k ≠ q.kind) (h : q.hides k = true) (cs : List Element) :
    q.marking.decide .outside (.node k cs) = .keep := by
  simp [marking, hk, h]

theorem decide_node {k : Kind} (hk : k ≠ q.kind) (h : q.hides k = false) (cs : List Element) :
    q.marking.decide .outside (.node k cs) = .into fun _ => .outside := by
  simp [marking, hk, h]

/-- Outside of the nodes of the kind no action is carried out at an element itself. -/
theorem decide_outside (e : Element) (a : Action) : q.marking.decide .outside e ≠ .act a := by
  cases e with
  | token => nofun
  | node k cs =>
    by_cases hk : k = q.kind
    · simp [decide_of_kind hk]
    · cases hhides : q.hides k with
      | true => simp [decide_of_hides hk hhides]
      | false => simp [decide_node hk hhides]

/-! ### Below a node of the kind -/

theorem marks_inside (index : Nat) (e : Element) : q.marking.marks .inside index e = [] := by
  cases e <;> rfl

theorem changed_inside (e : Element) : q.marking.changed .inside e = [e] := by
  cases e <;> rfl

theorem marks_chosen (index : Nat) (e : Element) :
    q.marking.marks .chosen index e = [⟨index, e, q.change e⟩] := by
  cases e <;> rfl

theorem changed_chosen (e : Element) :
    q.marking.changed .chosen e = (q.change e).substitute e := by
  cases e <;> rfl

theorem marksOfAll_none (index : Nat) (es : List Element) :
    q.marking.marksOfAll (.at none) index es = [] := by
  induction es generalizing index with
  | nil => rfl
  | cons e es ih =>
    rw [Marking.marksOfAll, at_none, marks_inside, List.nil_append]
    exact ih _

theorem changedAll_none (es : List Element) : q.marking.changedAll (.at none) es = es := by
  induction es with
  | nil => rfl
  | cons e es ih =>
    rw [Marking.changedAll, at_none, changed_inside, List.singleton_append]
    exact congrArg (List.cons e) ih

theorem marksOfAll_some (index : Nat) (pre : List Element) (e : Element) (post : List Element) :
    q.marking.marksOfAll (.at (some pre.length)) index (pre ++ e :: post) =
      [⟨index + Element.sizeOfAll pre, e, q.change e⟩] := by
  induction pre generalizing index with
  | nil =>
    have hhere : ChildStance.at (some 0) 0 = .chosen := rfl
    simp only [List.length_nil, List.nil_append, Marking.marksOfAll, hhere, marks_chosen,
      at_zero_succ]
    rw [marksOfAll_none]
    rfl
  | cons p pre ih =>
    have hhere : ChildStance.at (some (pre.length + 1)) 0 = .inside := by
      simp [ChildStance.at]
    simp only [List.length_cons, List.cons_append, Marking.marksOfAll, hhere, marks_inside,
      at_succ, List.nil_append]
    rw [ih, Element.sizeOfAll, Nat.add_assoc]

theorem changedAll_succ (e : Element) (es : List Element) (n : Nat) :
    q.marking.changedAll (.at (some (n + 1))) (e :: es) =
      e :: q.marking.changedAll (.at (some n)) es := by
  have hhere : ChildStance.at (some (n + 1)) 0 = .inside := by
    simp [ChildStance.at]
  simp only [Marking.changedAll, hhere, changed_inside, at_succ]
  rfl

theorem changedAll_some (pre : List Element) (e : Element) (post : List Element) :
    q.marking.changedAll (.at (some pre.length)) (pre ++ e :: post) =
      pre ++ ((q.change e).substitute e ++ post) := by
  induction pre with
  | nil =>
    have hhere : ChildStance.at (some 0) 0 = .chosen := rfl
    simp only [List.length_nil, List.nil_append, Marking.changedAll, hhere, changed_chosen,
      at_zero_succ]
    rw [changedAll_none]
  | cons p pre ih => rw [List.length_cons, List.cons_append, changedAll_succ, ih, List.cons_append]

end ChildChoice

/-! ### The calls -/

namespace Stamped

theorem isNode_erase (e : Stamped) : e.erase.isNode = e.isNode := by
  cases e <;> rfl

theorem kind_erase (e : Stamped) : e.erase.kind = e.kind := by
  cases e <;> rfl

end Stamped

namespace Visit

theorem map_snd_children (offset : Nat) (cs : List Stamped) :
    (children.go offset cs).map Prod.snd = cs := by
  induction cs generalizing offset with
  | nil => rfl
  | cons c cs ih => rw [children.go, List.map_cons, ih]

/-- A child stands behind the children before it. -/
theorem getElem?_children (offset : Nat) (pre : List Stamped) (e : Stamped) (post : List Stamped) :
    (children.go offset (pre ++ e :: post))[pre.length]? =
      some (⟨e.stamp, offset + Element.widthOf (pre.map erase)⟩, e) := by
  induction pre generalizing offset with
  | nil => rfl
  | cons c pre ih =>
    rw [List.cons_append, children.go, List.length_cons, List.getElem?_cons_succ, ih, List.map_cons,
      Element.widthOf_cons, ← Nat.add_assoc]
    rfl

/-- The elements right below the visited one. -/
def childElements (v : Visit) : List Element :=
  (v.children.map Prod.snd).map erase

/-- The first child with a property, found by its position. -/
theorem find?_children (p : Element → Bool) (v : Visit) :
    (v.children.find? fun x => p x.2.erase) =
      (v.childElements.findIdx? p).bind fun n => v.children[n]? := by
  have hindex : v.childElements.findIdx? p = v.children.findIdx? fun x => p x.2.erase := by
    rw [childElements, List.findIdx?_map, List.findIdx?_map]
    rfl
  rw [hindex, List.find?_eq_map_findFinIdx?_getElem, List.findIdx?_eq_map_findFinIdx?_val]
  cases v.children.findFinIdx? fun x => p x.2.erase <;> simp

/-- The child at a position at which a property was found. -/
theorem exists_child {p : Element → Bool} {v : Visit} {n : Nat}
    (h : v.childElements.findIdx? p = some n) :
    ∃ x, v.children[n]? = some x ∧ v.childElements[n]? = some x.2.erase ∧ p x.2.erase = true := by
  obtain ⟨hn, hp, -⟩ := List.findIdx?_eq_some_iff_getElem.1 h
  have hlength : n < v.children.length := by simpa [childElements] using hn
  refine ⟨v.children[n], List.getElem?_eq_getElem hlength, ?_, ?_⟩
  · simp [childElements, hlength]
  · simpa [childElements] using hp

/-- The edit of a child. -/
def editChild (v : Visit) (change : Element → Action) (n : Nat) : List Edit :=
  (v.children[n]?.map fun x => v.edit x.1 (change x.2.erase)).getD []

end Visit

namespace ChildChoice

variable (q : ChildChoice)

/-- A visitor asks for the changes of the chosen children. -/
structure Chosen (v : Visitor Unit) : Prop where
  leave : Recipe.LeavesQuietly v
  token : ∀ visit s, v.token visit s = Recipe.react []
  choose : ∀ visit s, visit.place.element.kind = q.kind →
    v.enter visit s =
      Recipe.react (((q.child? visit.childElements).map (visit.editChild q.change)).getD [])
        .skipChildren
  skip : ∀ visit s, visit.place.element.kind ≠ q.kind →
    q.hides visit.place.element.kind = true → v.enter visit s = Recipe.react [] .skipChildren
  descend : ∀ visit s, visit.place.element.kind ≠ q.kind →
    q.hides visit.place.element.kind = false → v.enter visit s = Recipe.react []

variable {q} {v : Visitor Unit} {tree : SyntaxTree}

/-- The edit of the chosen child is the one for its mark. -/
theorem edits_choose (hnodup : (tree.root.places.map Place.identity).Nodup)
    {index offset s : Nat} {above : List Nat} {k : Kind} {cs : List Stamped} (hk : k = q.kind)
    (h : Listed tree.root index (placesFrom index offset above (.node s k cs))) :
    let visit : Visit := ⟨tree.index, ⟨offset, .node s k cs, above⟩⟩
    ((q.child? visit.childElements).map (visit.editChild q.change)).getD [] =
      (q.marking.marks .outside index (.node k (cs.map erase))).map (Mark.edit tree.id) := by
  intro visit
  have hchildren : visit.childElements = cs.map erase :=
    congrArg (List.map erase) (Visit.map_snd_children offset cs)
  rw [Marking.marks, decide_of_kind hk, hchildren]
  dsimp only
  cases hchild : q.child? (cs.map erase) with
  | none =>
    rw [marksOfAll_none]
    rfl
  | some n =>
    have hn : n < cs.length := by simpa using q.lt_length hchild
    obtain ⟨pre, e, post, rfl, rfl⟩ : ∃ pre e post, cs = pre ++ e :: post ∧ pre.length = n :=
      ⟨cs.take n, cs[n], cs.drop (n + 1), by simp, by simp; omega⟩
    have hplace := h.children.middle.here
    have hhandle := TreeIndex.handleOf?_identity (i := tree.index)
      (by simpa [SyntaxTree.index] using hnodup) (by simpa [SyntaxTree.index] using hplace)
    rw [Place.identity] at hhandle
    have hat : visit.children[pre.length]? = _ := Visit.getElem?_children offset pre e post
    rw [Option.map_some, Option.getD_some, Visit.editChild, hat, Option.map_some, Option.getD_some,
      Visit.edit, hhandle, List.map_append, List.map_cons, ← List.length_map (f := erase),
      marksOfAll_some, sizeOfAll_map_erase]
    rfl

/-- The visitor decides on elements as the marking does. -/
theorem Chosen.directs (h : q.Chosen v) (hnodup : (tree.root.places.map Place.identity).Nodup) :
    q.marking.Directs tree (fun c _ => c = .outside) v where
  leave := h.leave
  token := by
    rintro _ index offset s above k t rfl -
    exact h.token _ _
  node := by
    rintro _ index offset s above k cs rfl hlisted
    let visit : Visit := ⟨tree.index, ⟨offset, .node s k cs, above⟩⟩
    by_cases hk : k = q.kind
    · exact .inl ((h.choose visit () hk).trans (by rw [edits_choose hnodup hk hlisted]))
    cases hhides : q.hides k with
    | true =>
      refine .inl ((h.skip visit () hk hhides).trans ?_)
      rw [Marking.marks, decide_of_hides hk hhides]
      rfl
    | false => exact .inr ⟨_, decide_node hk hhides _, fun _ => rfl, h.descend visit () hk hhides⟩

end ChildChoice

end RuleLang
