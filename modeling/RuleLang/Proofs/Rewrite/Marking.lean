import Mathlib.Data.List.Pairwise
import RuleLang.Proofs.Rewrite.Outcome

/-!
# Marked trees

Changes that are decided on from the root down: an element is kept with all below it, or an action
is carried out at it, or its children are decided on. No target of such a change stands inside
another one, so that the batch of all its edits is carried out as a whole.

## Main definitions

* `Decision`, `Marking` — what to do at an element, told from what is known of the nodes above it.
* `Marking.marks` — the targets with their actions, by preorder index.
* `Marking.changed` — what becomes of an element.

## Main statements

* `Marking.edited_eq` — carrying out the actions of the marks gives the changed element.
* `Marking.exists_apply` — a batch of all the marks of a tree is carried out without a conflict.
-/

namespace RuleLang

open Element Stamped

/-- What to do at an element. -/
inductive Decision (γ : Type) where
  /-- Nothing is done at the element or below it. -/
  | keep
  | act (action : Action)
  /-- The children are decided on, with what is known of each by its position. -/
  | into (known : Nat → γ)

/-- Decisions on the elements of a tree, each from what is known where the element stands. -/
structure Marking (γ : Type) where
  decide : γ → Element → Decision γ

/-- An action at an element, told by its preorder index. -/
structure Mark where
  index : Nat
  target : Element
  action : Action

/-- The edit for a mark of a tree. -/
def Mark.edit (id : TreeId) (x : Mark) : Edit :=
  ⟨⟨id, x.index⟩, x.action⟩

namespace Marking

variable {γ : Type} (m : Marking γ)

mutual

/-- The marks of an element with the given preorder index, in order. -/
def marks (c : γ) (index : Nat) : Element → List Mark
  | .token k t =>
    match m.decide c (.token k t) with
    | .act a => [⟨index, .token k t, a⟩]
    | .keep | .into _ => []
  | .node k cs =>
    match m.decide c (.node k cs) with
    | .keep => []
    | .act a => [⟨index, .node k cs, a⟩]
    | .into f => marksOfAll f (index + 1) cs

def marksOfAll (f : Nat → γ) (index : Nat) : List Element → List Mark
  | [] => []
  | e :: es => marks (f 0) index e ++ marksOfAll (fun n => f (n + 1)) (index + e.size) es

end

mutual

/-- What becomes of an element. -/
def changed (c : γ) : Element → List Element
  | .token k t =>
    match m.decide c (.token k t) with
    | .act a => a.substitute (.token k t)
    | .keep | .into _ => [.token k t]
  | .node k cs =>
    match m.decide c (.node k cs) with
    | .keep => [.node k cs]
    | .act a => a.substitute (.node k cs)
    | .into f => [.node k (changedAll f cs)]

def changedAll (f : Nat → γ) : List Element → List Element
  | [] => []
  | e :: es => changed (f 0) e ++ changedAll (fun n => f (n + 1)) es

end

/-! ## Where marks stand -/

mutual

theorem index_of_mem_marks {c : γ} {index : Nat} {x : Mark} :
    (e : Element) → x ∈ m.marks c index e →
      index ≤ x.index ∧ x.index + x.target.size ≤ index + e.size
  | .token k t, h => by
    rw [marks] at h
    split at h
    · obtain rfl := List.mem_singleton.1 h
      exact ⟨Nat.le_refl _, Nat.le_refl _⟩
    all_goals exact absurd h List.not_mem_nil
  | .node k cs, h => by
    rw [marks] at h
    split at h
    · exact absurd h List.not_mem_nil
    · obtain rfl := List.mem_singleton.1 h
      exact ⟨Nat.le_refl _, Nat.le_refl _⟩
    · have := index_of_mem_marksOfAll cs h
      simp only [Element.size]
      omega

theorem index_of_mem_marksOfAll {f : Nat → γ} {index : Nat} {x : Mark} :
    (es : List Element) → x ∈ m.marksOfAll f index es →
      index ≤ x.index ∧ x.index + x.target.size ≤ index + Element.sizeOfAll es
  | [], h => absurd h List.not_mem_nil
  | e :: es, h => by
    rw [marksOfAll, List.mem_append] at h
    simp only [Element.sizeOfAll]
    rcases h with h | h
    · have := index_of_mem_marks e h
      omega
    · have := index_of_mem_marksOfAll es h
      omega

end

mutual

/-- No mark stands inside the target of another. -/
theorem pairwise_marks (c : γ) (index : Nat) :
    (e : Element) → (m.marks c index e).Pairwise fun x y => x.index + x.target.size ≤ y.index
  | .token k t => by
    rw [marks]
    split <;> simp
  | .node k cs => by
    rw [marks]
    split
    · exact .nil
    · exact List.pairwise_singleton _ _
    · exact pairwise_marksOfAll _ _ cs

theorem pairwise_marksOfAll (f : Nat → γ) (index : Nat) :
    (es : List Element) →
      (m.marksOfAll f index es).Pairwise fun x y => x.index + x.target.size ≤ y.index
  | [] => .nil
  | e :: es => by
    rw [marksOfAll, List.pairwise_append]
    refine ⟨pairwise_marks _ _ e, pairwise_marksOfAll _ _ es, fun x hx y hy => ?_⟩
    have := (m.index_of_mem_marks e hx).2
    have := (m.index_of_mem_marksOfAll es hy).1
    omega

end

/-- A mark stands before the target of another or behind it. -/
theorem apart {c : γ} {index : Nat} {e : Element} {x y : Mark} (hx : x ∈ m.marks c index e)
    (hy : y ∈ m.marks c index e) (h : x.index < y.index) : x.index + x.target.size ≤ y.index := by
  obtain ⟨i, hi, rfl⟩ := List.getElem_of_mem hx
  obtain ⟨j, hj, rfl⟩ := List.getElem_of_mem hy
  have hpairwise := List.pairwise_iff_getElem.1 (m.pairwise_marks c index e)
  rcases Nat.lt_trichotomy i j with hij | rfl | hji
  · exact hpairwise i j hi hj hij
  · omega
  · have := hpairwise j i hj hi hji
    omega

mutual

/-- A mark stands at the place of its target. -/
theorem exists_place_of_mem_marks {c : γ} {index : Nat} (offset : Nat) (above : List Nat)
    {x : Mark} : (e : Stamped) → x ∈ m.marks c index e.erase →
      ∃ p, (placesFrom index offset above e)[x.index - index]? = some p ∧
        p.element.erase = x.target
  | .token s k t, h => by
    rw [erase, marks] at h
    split at h
    · obtain rfl := List.mem_singleton.1 h
      exact ⟨_, by rw [Nat.sub_self]; rfl, rfl⟩
    all_goals exact absurd h List.not_mem_nil
  | .node s k cs, h => by
    rw [erase, eraseAll_eq_map, marks] at h
    split at h
    · exact absurd h List.not_mem_nil
    · obtain rfl := List.mem_singleton.1 h
      exact ⟨_, by rw [Nat.sub_self]; rfl, by rw [erase, eraseAll_eq_map]⟩
    · have := (m.index_of_mem_marksOfAll _ h).1
      rw [show x.index - index = x.index - (index + 1) + 1 by omega]
      exact exists_place_of_mem_marksOfAll offset (index :: above) cs h

theorem exists_place_of_mem_marksOfAll {f : Nat → γ} {index : Nat} (offset : Nat)
    (above : List Nat) {x : Mark} :
    (es : List Stamped) → x ∈ m.marksOfAll f index (es.map erase) →
      ∃ p, (placesOfAll index offset above es)[x.index - index]? = some p ∧
        p.element.erase = x.target
  | [], h => absurd h List.not_mem_nil
  | e :: es, h => by
    rw [List.map_cons, marksOfAll, size_erase, List.mem_append] at h
    rw [getElem?_placesOfAll_cons]
    rcases h with h | h
    · have hindex := m.index_of_mem_marks _ h
      have hpos := x.target.size_pos
      rw [size_erase] at hindex
      rw [if_pos (by omega)]
      exact exists_place_of_mem_marks offset above e h
    · have := (m.index_of_mem_marksOfAll _ h).1
      rw [if_neg (by omega), show x.index - index - e.size = x.index - (index + e.size) by omega]
      exact exists_place_of_mem_marksOfAll (offset + e.width) above es h

end

/-! ## Carrying out the actions -/

/-- The action of the mark at an index. -/
def actionAt? (xs : List Mark) (n : Nat) : Option Action :=
  (xs.find? fun x => x.index == n).map Mark.action

theorem actionAt?_append_left {xs ys : List Mark} {n : Nat} (h : ∀ y ∈ ys, n < y.index) :
    actionAt? (xs ++ ys) n = actionAt? xs n := by
  have hnone : (ys.find? fun y => y.index == n) = none :=
    List.find?_eq_none.2 fun y hy => by have := h y hy; simp; omega
  rw [actionAt?, actionAt?, List.find?_append, hnone, Option.or_none]

theorem actionAt?_append_right {xs ys : List Mark} {n : Nat} (h : ∀ x ∈ xs, x.index < n) :
    actionAt? (xs ++ ys) n = actionAt? ys n := by
  have hnone : (xs.find? fun x => x.index == n) = none :=
    List.find?_eq_none.2 fun x hx => by have := h x hx; simp; omega
  rw [actionAt?, actionAt?, List.find?_append, hnone, Option.none_or]

variable {act? : Nat → Option Action}

mutual

/-- Carrying out the actions of the marks gives the changed element. -/
theorem edited_eq (c : γ) (index : Nat) :
    (e : Element) →
      (∀ n, index ≤ n → n < index + e.size → act? n = actionAt? (m.marks c index e) n) →
      e.edited act? index = m.changed c e
  | .token k t, h => by
    have h := h index (Nat.le_refl _) (by simp [Element.size])
    rw [marks] at h
    rw [edited, changed, h]
    cases m.decide c (.token k t) <;> simp [actionAt?]
  | .node k cs, h => by
    have hhere := h index (Nat.le_refl _) (by simp [Element.size])
    rw [marks] at h hhere
    rw [changed]
    cases hd : m.decide c (.node k cs) with
    | keep =>
      refine edited_of_none index _ fun n h₁ h₂ => ?_
      rw [h n h₁ h₂, hd]
      rfl
    | act a => simp [edited, hhere, hd, actionAt?]
    | into f =>
      have hnone : act? index = none := by
        rw [hhere, hd, actionAt?, List.find?_eq_none.2, Option.map_none]
        intro x hx
        have := (m.index_of_mem_marksOfAll cs hx).1
        simp
        omega
      have hcs := editedAll_eq f (index + 1) cs fun n h₁ h₂ => by
        rw [h n (by omega) (by simp only [Element.size]; omega), hd]
      simp [edited, hnone, hcs]

theorem editedAll_eq (f : Nat → γ) (index : Nat) :
    (es : List Element) →
      (∀ n, index ≤ n → n < index + Element.sizeOfAll es →
        act? n = actionAt? (m.marksOfAll f index es) n) →
      editedAll act? index es = m.changedAll f es
  | [], _ => rfl
  | e :: es, h => by
    simp only [Element.sizeOfAll, marksOfAll] at h
    have hhead := edited_eq (f 0) index e fun n h₁ h₂ => by
      rw [h n h₁ (by omega), actionAt?_append_left]
      intro y hy
      have := (m.index_of_mem_marksOfAll es hy).1
      omega
    have htail := editedAll_eq (fun n => f (n + 1)) (index + e.size) es
      fun n h₁ h₂ => by
        rw [h n (by omega) (by omega), actionAt?_append_right]
        intro x hx
        have := (m.index_of_mem_marks e hx).2
        have := x.target.size_pos
        omega
    rw [editedAll, changedAll, hhead, htail]

end

end Marking

/-! ## Batches without conflicts -/

namespace Batch

variable {tree : SyntaxTree} {edits : List Edit}

/-- No two edits have one target, and no target stands inside another one. -/
structure Separate (tree : SyntaxTree) (edits : List Edit) : Prop where
  nodup : (edits.map fun e => e.handle.index).Nodup
  apart : ∀ e ∈ edits, ∀ f ∈ edits, f.handle.index ∉ tree.above e.handle.index

/-- Separate edits are all carried out. -/
theorem Separate.accepted_eq_self (h : Separate tree edits) : accepted tree edits = edits := by
  have hverdict : ∀ x ∈ edits.zipIdx, (verdict tree edits x.1 x.2).isNone = true := by
    rintro ⟨e, n⟩ hx
    obtain ⟨hn, he⟩ := List.getElem?_eq_some_iff.1 (List.mem_zipIdx_iff_getElem?.1 hx)
    have hmem : e ∈ edits := List.mem_of_getElem he
    have hrepeated : isRepeated edits e n = false := by
      rw [isRepeated, List.any_eq_false]
      intro f hf heq
      obtain ⟨j, hj, hfj⟩ := List.getElem_of_mem hf
      rw [List.length_take] at hj
      rw [List.getElem_take] at hfj
      have hsame : (edits.map fun e => e.handle.index)[j]? =
          (edits.map fun e => e.handle.index)[n]? := by
        rw [List.getElem?_map, List.getElem?_map, List.getElem?_eq_getElem (by omega),
          List.getElem?_eq_getElem hn, hfj, he]
        simpa using heq
      have := (List.getElem?_inj (by rw [List.length_map]; omega) h.nodup).1 hsame
      omega
    have hcovered : isCovered tree edits e = false := by
      rw [isCovered, List.any_eq_false]
      intro k hk hany
      obtain ⟨f, hf, hfk⟩ := List.any_eq_true.1 hany
      refine h.apart e hmem f hf ?_
      rw [show f.handle.index = k by simpa using hfk]
      exact hk
    simp [verdict, hrepeated, hcovered]
  rw [accepted, List.filter_eq_self.2 hverdict, List.zipIdx_map_fst]

end Batch

namespace Marking

variable {γ : Type} (m : Marking γ) {tree : SyntaxTree} {s : Nat} {cs : List Stamped}

/-- All the edits for the marks of a tree. -/
def edits (c : γ) (tree : SyntaxTree) : List Edit :=
  (m.marks c 0 tree.element).map (Mark.edit tree.id)

theorem exists_place (c : γ) {x : Mark} (hx : x ∈ m.marks c 0 tree.element) :
    ∃ p, tree.root.places[x.index]? = some p ∧ p.element.size = x.target.size := by
  obtain ⟨p, hp, htarget⟩ := m.exists_place_of_mem_marks 0 [] tree.root hx
  rw [Nat.sub_zero] at hp
  exact ⟨p, hp, by rw [← htarget, size_erase]⟩

theorem separate_edits (c : γ) (tree : SyntaxTree) : Batch.Separate tree (m.edits c tree) := by
  have hpairwise := m.pairwise_marks c 0 tree.element
  refine ⟨?_, ?_⟩
  · rw [edits, List.map_map]
    refine List.pairwise_map.2 (hpairwise.imp fun {x y} h => ?_)
    have := x.target.size_pos
    simp only [Function.comp, Mark.edit]
    omega
  · intro e he f hf
    obtain ⟨x, hx, rfl⟩ := List.mem_map.1 he
    obtain ⟨y, hy, rfl⟩ := List.mem_map.1 hf
    obtain ⟨p, hp, -⟩ := m.exists_place c hx
    obtain ⟨q, hq, hsize⟩ := m.exists_place c hy
    have habove : tree.above x.index = p.above := by
      rw [SyntaxTree.above, hp]
      rfl
    simp only [Mark.edit]
    rw [habove, mem_above hp]
    rintro ⟨hlt, q', hq', hstretch⟩
    obtain rfl := Option.some.inj (hq.symm.trans hq')
    have := m.apart hy hx hlt
    omega

/-- A batch of all the marks of a tree, of which none is at the root, is carried out without a
conflict. -/
theorem exists_apply (config : RewriteConfig) (newId : TreeId) (c : γ)
    (hroot : tree.root = .node s .compilationUnit cs)
    (hnodup : (tree.root.places.map Place.identity).Nodup)
    (hdecide : ∀ a, m.decide c tree.element ≠ .act a) :
    ∃ r, tree.apply config newId (m.edits c tree) = .ok r ∧
      [r.tree.element] = m.changed c tree.element ∧
      r.applied = (m.edits c tree).length ∧ r.dropped = 0 ∧ r.diagnostics = [] := by
  have haccepted := (m.separate_edits c tree).accepted_eq_self
  have happly := @SyntaxTree.apply_of_nodup config tree s cs newId (m.edits c tree) hroot hnodup
  have hreaches : ((m.edits c tree).find? fun e => !tree.reaches e.handle) = none := by
    refine List.find?_eq_none.2 fun e he => ?_
    obtain ⟨x, hx, rfl⟩ := List.mem_map.1 he
    obtain ⟨p, hp, -⟩ := m.exists_place c hx
    have hlt := (List.getElem?_eq_some_iff.1 hp).1
    rw [Stamped.places, length_placesFrom] at hlt
    simp [SyntaxTree.reaches, Mark.edit, hlt]
  rw [hreaches] at happly
  obtain ⟨r, hok, happlied⟩ := happly
  have hcount := happlied.applied
  have hsum := happlied.dropped
  rw [haccepted] at hcount
  have hdropped : r.dropped = 0 := by omega
  refine ⟨r, hok, ?_, hcount, hdropped, ?_⟩
  · have hact : Batch.action? tree (m.edits c tree) = actionAt? (m.marks c 0 tree.element) := by
      funext n
      rw [Batch.action?, haccepted, edits, List.find?_map, Option.map_map]
      rfl
    have hedited : tree.element.edited (Batch.action? tree (m.edits c tree)) 0 =
        m.changed c tree.element := m.edited_eq c 0 tree.element fun n _ _ => by rw [hact]
    have helement : tree.element = .node .compilationUnit (cs.map erase) := by
      rw [SyntaxTree.element, hroot, erase, eraseAll_eq_map]
    have hnone : Batch.action? tree (m.edits c tree) 0 = none := by
      rw [hact, actionAt?, List.find?_eq_none.2, Option.map_none]
      intro x hx
      rw [helement] at hx hdecide
      rw [marks] at hx
      cases hd : m.decide c (.node .compilationUnit (cs.map erase)) with
      | keep => simp [hd] at hx
      | act a => exact absurd hd (hdecide a)
      | into f =>
        rw [hd] at hx
        have := (m.index_of_mem_marksOfAll _ hx).1
        simp
        omega
    rw [← hedited, happlied.element, helement, editedRoot, edited, hnone]
    rfl
  · have hperm := happlied.warnings
    cases hreport : config.reportConflicts with
    | false =>
      rw [hreport] at hperm
      exact hperm.eq_nil
    | true =>
      have := (happlied.oneEach hreport).1
      exact List.eq_nil_of_length_eq_zero (by omega)

end Marking

end RuleLang
