import RuleLang.Proofs.Tree.Places
import RuleLang.Rewrite.Batch

/-!
# Rebuilding a tree

What a tree becomes when actions are carried out at some of its places, told by preorder index. The
engine finds the places by their identities instead, and makes only the nodes above them anew; where
identities lead to one place each, both come to the same.

## Main definitions

* `Action.substitute`, `Action.unit` — what an element, and a whole tree, gives way to.
* `Element.edited`, `Element.leavesWith` — the tree, and its leaves, after actions at some places.
* `Plan.Fits` — a plan does at every place what is to be done there.

## Main statements

* `Stamped.erase_rebuild` — rebuilding by a plan that fits carries out its actions.
* `Stamped.mem_parts_rebuild` — rebuilding keeps what no action reaches.
* `Element.leavesOf_edited` — the leaves of what was edited.
-/

namespace RuleLang

open Element Stamped

/-! ## Actions at places -/

namespace Action

/-- What an element gives way to. A text takes the place of a node's children. -/
def substitute : Action → Element → List Element
  | .delete, _ => []
  | .replace (.text t), .token _ _ => [.token .verbatim t]
  | .replace (.text t), .node k _ => [.node k [.token .verbatim t]]
  | .replace (.node e), _ => [e]
  | .replace (.token k t), _ => [.token k t]

/-- What a whole tree gives way to: its root stays a compilation unit. -/
def unit : Action → Element
  | .delete => .node .compilationUnit []
  | .replace (.text t) => .node .compilationUnit [.token .verbatim t]
  | .replace (.node (.node .compilationUnit cs)) => .node .compilationUnit cs
  | .replace (.node e) => .node .compilationUnit [e]
  | .replace (.token k t) => .node .compilationUnit [.token k t]

/-- The leaves that an action puts in. -/
def leaves : Action → List Leaf
  | .delete => []
  | .replace (.text t) => [⟨.verbatim, t⟩]
  | .replace (.node e) => e.leaves
  | .replace (.token k t) => [⟨k, t⟩]

theorem leavesOf_substitute (a : Action) (e : Element) :
    leavesOf (a.substitute e) = a.leaves := by
  cases a with
  | delete => rfl
  | replace r => cases r <;> cases e <;> simp [substitute, leaves]

theorem leaves_unit (a : Action) : a.unit.leaves = a.leaves := by
  unfold unit
  split <;> simp [leaves]

theorem kind_unit (a : Action) : ∃ cs, a.unit = .node .compilationUnit cs := by
  unfold unit
  split <;> exact ⟨_, rfl⟩

end Action

namespace Element

mutual

/-- The number of elements below an element, itself included. -/
def size : Element → Nat
  | .token _ _ => 1
  | .node _ cs => sizeOfAll cs + 1

def sizeOfAll : List Element → Nat
  | [] => 0
  | e :: es => e.size + sizeOfAll es

end

theorem size_pos (e : Element) : 0 < e.size := by
  cases e <;> simp [size]

mutual

/-- What becomes of an element with the given index, if `act?` tells the actions by index. -/
def edited (act? : Nat → Option Action) (index : Nat) : Element → List Element
  | .token k t =>
    match act? index with
    | some a => a.substitute (.token k t)
    | none => [.token k t]
  | .node k cs =>
    match act? index with
    | some a => a.substitute (.node k cs)
    | none => [.node k (editedAll act? (index + 1) cs)]

def editedAll (act? : Nat → Option Action) (index : Nat) : List Element → List Element
  | [] => []
  | e :: es => e.edited act? index ++ editedAll act? (index + e.size) es

end

/-- What becomes of a whole tree. -/
def editedRoot (act? : Nat → Option Action) (root : Element) : Element :=
  match act? 0 with
  | some a => a.unit
  | none => .node root.kind (editedAll act? 1 root.children)

mutual

/-- The leaves of an element, where an action puts its own leaves in the place of those of its
target. -/
def leavesWith (act? : Nat → Option Action) (index : Nat) : Element → List Leaf
  | .token k t =>
    match act? index with
    | some a => a.leaves
    | none => [⟨k, t⟩]
  | .node _ cs =>
    match act? index with
    | some a => a.leaves
    | none => leavesWithAll act? (index + 1) cs

def leavesWithAll (act? : Nat → Option Action) (index : Nat) : List Element → List Leaf
  | [] => []
  | e :: es => e.leavesWith act? index ++ leavesWithAll act? (index + e.size) es

end

variable {act? : Nat → Option Action}

mutual

theorem leavesOf_edited (act? : Nat → Option Action) (index : Nat) :
    (e : Element) → leavesOf (e.edited act? index) = e.leavesWith act? index
  | .token k t => by
    rw [edited, leavesWith]
    cases act? index with
    | none => simp
    | some a => exact a.leavesOf_substitute _
  | .node k cs => by
    rw [edited, leavesWith]
    cases act? index with
    | none => simp [leavesOf_editedAll act? (index + 1) cs]
    | some a => exact a.leavesOf_substitute _

theorem leavesOf_editedAll (act? : Nat → Option Action) (index : Nat) :
    (es : List Element) → leavesOf (editedAll act? index es) = leavesWithAll act? index es
  | [] => rfl
  | e :: es => by
    simp [editedAll, leavesWithAll, leavesOf_edited act? index e,
      leavesOf_editedAll act? (index + e.size) es]

end

theorem leaves_editedRoot (act? : Nat → Option Action) (k : Kind) (cs : List Element) :
    (editedRoot act? (.node k cs)).leaves = (node k cs).leavesWith act? 0 := by
  rw [editedRoot, leavesWith]
  cases act? 0 with
  | none => simp [kind, children, leavesOf_editedAll]
  | some a => exact a.leaves_unit

mutual

/-- What no action reaches stays as it is. -/
theorem edited_of_none (index : Nat) :
    (e : Element) → (∀ n, index ≤ n → n < index + e.size → act? n = none) →
      e.edited act? index = [e]
  | .token k t, h => by simp [edited, h index (Nat.le_refl _) (by simp [size])]
  | .node k cs, h => by
    have hcs := editedAll_of_none (index + 1) cs fun n h₁ h₂ =>
      h n (by omega) (by simp only [size]; omega)
    simp [edited, h index (Nat.le_refl _) (by simp [size]), hcs]

theorem editedAll_of_none (index : Nat) :
    (es : List Element) → (∀ n, index ≤ n → n < index + sizeOfAll es → act? n = none) →
      editedAll act? index es = es
  | [], _ => rfl
  | e :: es, h => by
    have he := edited_of_none index e fun n h₁ h₂ =>
      h n h₁ (by simp only [sizeOfAll]; omega)
    have hes := editedAll_of_none (index + e.size) es fun n h₁ h₂ =>
      h n (by omega) (by simp only [sizeOfAll]; omega)
    simp [editedAll, he, hes]

end

end Element

/-! ## Plans -/

/-- New content does what an action says. -/
inductive Content.Stands : Content → Action → Prop
  | nothing : Stands .nothing .delete
  | text (t : List Char) : Stands (.text t) (.replace (.text t))
  | node (e : Stamped) : Stands (.element e) (.replace (.node e.erase))
  | token (s : Nat) (k : Kind) (t : List Char) :
    Stands (.element (.token s k t)) (.replace (.token k t))

namespace Content.Stands

variable {c : Content} {a : Action}

theorem stamp (supply : Nat) (a : Action) : Content.Stands (Plan.stamp supply a).1 a := by
  cases a with
  | delete => exact .nothing
  | replace r =>
    cases r with
    | text t => exact .text t
    | node e =>
      have := Content.Stands.node (ofElement supply e).1
      rwa [ofElement, erase_stampFrom] at this
    | token k t => exact .token supply k t

theorem erase_substitute (h : c.Stands a) (supply : Nat) (old : Stamped) :
    (Stamped.substitute supply old c).1.map erase = a.substitute old.erase := by
  cases h with
  | nothing => rfl
  | text t => cases old <;> rfl
  | node e => cases old <;> rfl
  | token s k t => cases old <;> rfl

theorem erase_asRoot (h : c.Stands a) (supply : Nat) :
    (Stamped.asRoot supply c).1.erase = a.unit := by
  cases h with
  | nothing => rfl
  | text t => rfl
  | node e =>
    cases e with
    | token s k t => rfl
    | node s k cs => cases k <;> simp [asRoot, erase, Action.unit]
  | token s k t => rfl

end Content.Stands

/-- At every place listed from `index` on, a plan does what is to be done there, and the nodes it
makes anew are those above a place with something to do. -/
structure Plan.Fits (plan : Plan) (act? : Nat → Option Action) (index : Nat)
    (places : List Place) : Prop where
  content {j : Nat} {p : Place} : places[j]? = some p →
    Option.Rel Content.Stands (plan.content? p.identity) (act? (index + j))
  touched {j : Nat} {p : Place} : places[j]? = some p →
    (plan.touched.contains p.identity = true ↔
      ∃ n, index + j < n ∧ n < index + j + p.element.size ∧ (act? n).isSome = true)

namespace Plan.Fits

variable {plan : Plan} {act? : Nat → Option Action} {index offset : Nat} {above : List Nat}

theorem children {s : Nat} {k : Kind} {cs : List Stamped}
    (h : plan.Fits act? index (placesFrom index offset above (.node s k cs))) :
    plan.Fits act? (index + 1) (placesOfAll (index + 1) offset (index :: above) cs) where
  content {j p} hp := by
    have := h.content ((getElem?_placesFrom_succ index offset above s k cs j).trans hp)
    rwa [← Nat.add_assoc, Nat.add_right_comm] at this
  touched {j p} hp := by
    have := h.touched ((getElem?_placesFrom_succ index offset above s k cs j).trans hp)
    rwa [← Nat.add_assoc, Nat.add_right_comm] at this

theorem head {e : Stamped} {es : List Stamped}
    (h : plan.Fits act? index (placesOfAll index offset above (e :: es))) :
    plan.Fits act? index (placesFrom index offset above e) := by
  have hget {j : Nat} {p : Place} (hp : (placesFrom index offset above e)[j]? = some p) :
      (placesOfAll index offset above (e :: es))[j]? = some p := by
    have hj : j < e.size := by
      have := (List.getElem?_eq_some_iff.1 hp).1
      rwa [length_placesFrom] at this
    rw [getElem?_placesOfAll_cons, if_pos hj, hp]
  exact ⟨fun hp => h.content (hget hp), fun hp => h.touched (hget hp)⟩

theorem tail {e : Stamped} {es : List Stamped}
    (h : plan.Fits act? index (placesOfAll index offset above (e :: es))) :
    plan.Fits act? (index + e.size)
      (placesOfAll (index + e.size) (offset + e.width) above es) := by
  have hget {j : Nat} {p : Place}
      (hp : (placesOfAll (index + e.size) (offset + e.width) above es)[j]? = some p) :
      (placesOfAll index offset above (e :: es))[e.size + j]? = some p := by
    rw [getElem?_placesOfAll_cons, if_neg (by omega), Nat.add_sub_cancel_left, hp]
  refine ⟨fun hp => ?_, fun hp => ?_⟩
  · have := h.content (hget hp)
    rwa [← Nat.add_assoc] at this
  · have := h.touched (hget hp)
    rwa [← Nat.add_assoc] at this

end Plan.Fits

/-! ## Rebuilding -/

namespace Stamped

variable {plan : Plan} {act? : Nat → Option Action}

mutual

@[simp] theorem size_erase : (e : Stamped) → e.erase.size = e.size
  | .token _ _ _ => rfl
  | .node _ _ cs => by
    simp only [erase, eraseAll_eq_map, Element.size, size, sizeOfAll_map_erase cs]

theorem sizeOfAll_map_erase : (es : List Stamped) → Element.sizeOfAll (es.map erase) = sizeOfAll es
  | [] => rfl
  | e :: es => by
    simp only [List.map_cons, Element.sizeOfAll, sizeOfAll, size_erase e, sizeOfAll_map_erase es]

end

mutual

/-- Rebuilding an element that has nothing to do itself carries out the actions below it. -/
theorem erase_rebuild {index offset : Nat} {above : List Nat} (supply : Nat) :
    (e : Stamped) → plan.Fits act? index (placesFrom index offset above e) → act? index = none →
      [(rebuild plan offset supply e).1.erase] = e.erase.edited act? index
  | .token s k t, _, hnone => by simp [rebuild, erase, edited, hnone]
  | .node s k cs, h, hnone => by
    have htouched := h.touched (getElem?_placesFrom_zero index offset above (.node s k cs))
    simp only [Place.identity, stamp] at htouched
    have hcs := map_erase_rebuildAll supply cs h.children
    simp only [rebuild]
    split
    · simp [erase, edited, hnone, hcs]
    · rename_i hnot
      have hkeep : editedAll act? (index + 1) (cs.map erase) = cs.map erase := by
        refine editedAll_of_none _ _ fun n h₁ h₂ => ?_
        rw [sizeOfAll_map_erase] at h₂
        cases hn : act? n with
        | none => rfl
        | some a =>
          refine absurd (htouched.2 ⟨n, by omega, ?_, by simp [hn]⟩) hnot
          simp only [size]
          omega
      simp [erase, edited, hnone, hkeep]

theorem map_erase_rebuildAll {index offset : Nat} {above : List Nat} (supply : Nat) :
    (es : List Stamped) → plan.Fits act? index (placesOfAll index offset above es) →
      (rebuildAll plan offset supply es).1.map erase = editedAll act? index (es.map erase)
  | [], _ => rfl
  | e :: es, h => by
    have hcontent := h.head.content (getElem?_placesFrom_zero index offset above e)
    rw [Nat.add_zero] at hcontent
    simp only [Place.identity] at hcontent
    have hrest (supply : Nat) := map_erase_rebuildAll supply es h.tail
    simp only [rebuildAll, List.map_cons, editedAll, size_erase, List.map_append, hrest]
    congr 1
    generalize hc : plan.content? ⟨e.stamp, offset⟩ = c at hcontent
    generalize ha : act? index = a at hcontent
    cases hcontent with
    | none =>
      exact erase_rebuild supply e h.head ha
    | some hstands =>
      rename_i c a
      rw [hstands.erase_substitute]
      cases e <;> simp [erase, edited, ha]

end

/-- Rebuilding a whole tree carries out the actions at its places. -/
theorem erase_rewrite (supply : Nat) {s : Nat} {k : Kind} {cs : List Stamped}
    (h : plan.Fits act? 0 (places (.node s k cs))) :
    (rewrite plan supply (.node s k cs)).1.erase = (erase (.node s k cs)).editedRoot act? := by
  have hcontent := h.content (getElem?_placesFrom_zero 0 0 [] (.node s k cs))
  simp only [Place.identity, Nat.add_zero] at hcontent
  rw [rewrite, editedRoot]
  generalize hc : plan.content? ⟨(node s k cs).stamp, 0⟩ = c at hcontent
  generalize ha : act? 0 = a at hcontent
  cases hcontent with
  | none =>
    have := erase_rebuild supply (.node s k cs) h ha
    simpa [erase, edited, ha, Element.kind, Element.children] using this
  | some hstands => exact hstands.erase_asRoot supply

/-! ## What is kept -/

/-- No action is at a place, above it or below it. -/
structure Unreached (act? : Nat → Option Action) (index : Nat) (places : List Place) (j : Nat)
    (p : Place) : Prop where
  above {n : Nat} : Encloses index places n (index + j) → act? n = none
  stretch {n : Nat} : index + j ≤ n → n < index + j + p.element.size → act? n = none

theorem mem_parts_of_placesFrom {index offset j : Nat} {above : List Nat} {e : Stamped} {p : Place}
    (hp : (placesFrom index offset above e)[j]? = some p) : p.element ∈ e.parts := by
  rw [← map_element_placesFrom index offset above]
  exact List.mem_map.2 ⟨p, List.mem_of_getElem? hp, rfl⟩

theorem partsOfAll_append (xs ys : List Stamped) :
    partsOfAll (xs ++ ys) = partsOfAll xs ++ partsOfAll ys := by
  induction xs with
  | nil => rfl
  | cons e es ih => simp [partsOfAll, ih]

mutual

/-- Rebuilding keeps an element that no action reaches, with its stamps. -/
theorem mem_parts_rebuild {index offset j : Nat} {above : List Nat} {p : Place} (supply : Nat) :
    (e : Stamped) → plan.Fits act? index (placesFrom index offset above e) →
      (placesFrom index offset above e)[j]? = some p →
      Unreached act? index (placesFrom index offset above e) j p →
      p.element ∈ (rebuild plan offset supply e).1.parts
  | .token s k t, _, hp, _ => by
    simpa [rebuild] using mem_parts_of_placesFrom hp
  | .node s k cs, h, hp, hun => by
    simp only [rebuild]
    split
    · rename_i htouched
      cases j with
      | zero =>
        cases hp
        obtain ⟨n, h₁, h₂, hn⟩ :=
          (h.touched (getElem?_placesFrom_zero index offset above (.node s k cs))).1 htouched
        rw [hun.stretch (by omega) h₂] at hn
        cases hn
      | succ j =>
        have hget := getElem?_placesFrom_succ index offset above s k cs j
        have hun' : Unreached act? (index + 1)
            (placesOfAll (index + 1) offset (index :: above) cs) j p := by
          refine ⟨fun {n} ⟨h₁, h₂, q, hq, h₃⟩ => hun.above ⟨by omega, by omega, q, ?_, by omega⟩,
            fun {n} h₁ h₂ => hun.stretch (by omega) (by omega)⟩
          rw [show n - index = n - (index + 1) + 1 by omega]
          exact hq
        have := mem_partsOfAll_rebuildAll supply cs h.children (hget ▸ hp) hun'
        simp [parts, this]
    · exact mem_parts_of_placesFrom hp

theorem mem_partsOfAll_rebuildAll {index offset j : Nat} {above : List Nat} {p : Place}
    (supply : Nat) :
    (es : List Stamped) → plan.Fits act? index (placesOfAll index offset above es) →
      (placesOfAll index offset above es)[j]? = some p →
      Unreached act? index (placesOfAll index offset above es) j p →
      p.element ∈ partsOfAll (rebuildAll plan offset supply es).1
  | [], _, hp, _ => by simp [placesOfAll] at hp
  | e :: es, h, hp, hun => by
    have hget := getElem?_placesOfAll_cons index offset above e es
    simp only [rebuildAll, partsOfAll_append, List.mem_append]
    rw [hget] at hp
    split at hp
    · rename_i hj
      have hnone : act? index = none := by
        rcases Nat.eq_zero_or_pos j with rfl | hpos
        · exact hun.stretch (Nat.le_refl _) (by have := p.element.size_pos; omega)
        · refine hun.above ⟨Nat.le_refl _, by omega, ⟨offset, e, above⟩, ?_, by simp only; omega⟩
          rw [Nat.sub_self, hget, if_pos (by omega)]
          exact getElem?_placesFrom_zero index offset above e
      have hcontent := h.head.content (getElem?_placesFrom_zero index offset above e)
      rw [Nat.add_zero, hnone] at hcontent
      simp only [Place.identity] at hcontent
      have hun' : Unreached act? index (placesFrom index offset above e) j p := by
        refine ⟨fun {n} ⟨h₁, h₂, q, hq, h₃⟩ => hun.above ⟨h₁, h₂, q, ?_, h₃⟩, hun.stretch⟩
        rw [hget, if_pos (by omega), hq]
      have := mem_parts_rebuild supply e h.head hp hun'
      generalize hc : plan.content? ⟨e.stamp, offset⟩ = c at hcontent
      cases hcontent
      refine .inl ?_
      simpa [partsOfAll] using this
    · rename_i hj
      have hun' : Unreached act? (index + e.size)
          (placesOfAll (index + e.size) (offset + e.width) above es) (j - e.size) p := by
        refine ⟨fun {n} ⟨h₁, h₂, q, hq, h₃⟩ => hun.above ⟨by omega, by omega, q, ?_, by omega⟩,
          fun {n} h₁ h₂ => hun.stretch (by omega) (by omega)⟩
        rw [hget, if_neg (by omega), show n - index - e.size = n - (index + e.size) by omega, hq]
      exact .inr (mem_partsOfAll_rebuildAll _ es h.tail hp hun')

end

theorem mem_parts_rewrite {root : Stamped} {j : Nat} {p : Place} (supply : Nat)
    (h : plan.Fits act? 0 root.places) (hp : root.places[j]? = some p)
    (hun : Unreached act? 0 root.places j p) : p.element ∈ (rewrite plan supply root).1.parts := by
  have hnone : act? 0 = none := by
    rcases Nat.eq_zero_or_pos j with rfl | hpos
    · exact hun.stretch (Nat.le_refl _) (by have := p.element.size_pos; omega)
    · have hsize := add_size_le_of_placesFrom root hp
      have := p.element.size_pos
      exact hun.above ⟨Nat.le_refl _, by omega, _, getElem?_placesFrom_zero 0 0 [] root,
        by simp only; omega⟩
  have hcontent := h.content (getElem?_placesFrom_zero 0 0 [] root)
  rw [Nat.add_zero, hnone] at hcontent
  simp only [Place.identity] at hcontent
  rw [rewrite]
  generalize hc : plan.content? ⟨root.stamp, 0⟩ = c at hcontent
  cases hcontent
  exact mem_parts_rebuild supply root h hp hun

end Stamped

end RuleLang
