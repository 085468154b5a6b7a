import RuleLang.Tree.SyntaxTree

/-!
# Places of a tree

Stamps do not change an element. The places of a tree are listed in preorder, so the places below a
node are the stretch of the list right after it that is as long as the node is large.

## Main definitions

* `Stamped.parts` — an element and the elements below it, in preorder.
* `Stamped.Listed` — a stretch of the places of a tree.

## Main statements

* `Stamped.erase_stampFrom` — an element with its stamps erased again.
* `Stamped.mem_above` — the nodes above a place are the ones whose stretch it stands in.
-/

namespace RuleLang.Stamped

/-! ## Erasing stamps -/

mutual

@[simp] theorem erase_stampFrom (base next : Nat) :
    (e : Element) → (stampFrom base next e).1.erase = e
  | .token _ _ => rfl
  | .node _ [] => rfl
  | .node k (c :: cs) => by
    simp [stampFrom, erase, erase_stampFrom base (next + 1) c,
      map_erase_stampAllFrom base (stampFrom base (next + 1) c).2 cs]

theorem map_erase_stampAllFrom (base next : Nat) :
    (es : List Element) → (stampAllFrom base next es).1.map erase = es
  | [] => rfl
  | e :: es => by
    simp [stampAllFrom, erase_stampFrom base next e,
      map_erase_stampAllFrom base (stampFrom base next e).2 es]

end

@[simp] theorem width_stampFrom (base next : Nat) (e : Element) :
    (stampFrom base next e).1.width = e.width := by
  rw [width, erase_stampFrom]

/-! ## Places and parts -/

mutual

/-- An element and the elements below it, in preorder. -/
def parts : Stamped → List Stamped
  | .token s k t => [.token s k t]
  | .node s k cs => .node s k cs :: partsOfAll cs

def partsOfAll : List Stamped → List Stamped
  | [] => []
  | e :: es => e.parts ++ partsOfAll es

end

mutual

theorem map_element_placesFrom (index offset : Nat) (above : List Nat) :
    (e : Stamped) → (placesFrom index offset above e).map Place.element = e.parts
  | .token _ _ _ => rfl
  | .node _ _ cs => by
    simp [placesFrom, parts, map_element_placesOfAll (index + 1) offset (index :: above) cs]

theorem map_element_placesOfAll (index offset : Nat) (above : List Nat) :
    (es : List Stamped) → (placesOfAll index offset above es).map Place.element = partsOfAll es
  | [] => rfl
  | e :: es => by
    simp [placesOfAll, partsOfAll, map_element_placesFrom index offset above e,
      map_element_placesOfAll (index + e.size) (offset + e.width) above es]

end

mutual

theorem length_parts : (e : Stamped) → e.parts.length = e.size
  | .token _ _ _ => rfl
  | .node _ _ cs => by simp [parts, size, length_partsOfAll cs]

theorem length_partsOfAll : (es : List Stamped) → (partsOfAll es).length = sizeOfAll es
  | [] => rfl
  | e :: es => by simp [partsOfAll, sizeOfAll, length_parts e, length_partsOfAll es]

end

@[simp] theorem length_placesFrom (index offset : Nat) (above : List Nat) (e : Stamped) :
    (placesFrom index offset above e).length = e.size := by
  rw [← length_parts, ← map_element_placesFrom index offset above, List.length_map]

@[simp] theorem length_placesOfAll (index offset : Nat) (above : List Nat) (es : List Stamped) :
    (placesOfAll index offset above es).length = sizeOfAll es := by
  rw [← length_partsOfAll, ← map_element_placesOfAll index offset above, List.length_map]

theorem size_pos (e : Stamped) : 0 < e.size := by
  cases e <;> simp [size]

/-! ## Looking places up -/

/-- A place in a list is one in its first element or one in the others. -/
theorem getElem?_placesOfAll_cons (index offset : Nat) (above : List Nat) (e : Stamped)
    (es : List Stamped) (j : Nat) :
    (placesOfAll index offset above (e :: es))[j]? =
      if j < e.size then (placesFrom index offset above e)[j]?
      else (placesOfAll (index + e.size) (offset + e.width) above es)[j - e.size]? := by
  rw [placesOfAll, List.getElem?_append, length_placesFrom]

theorem getElem?_placesFrom_zero (index offset : Nat) (above : List Nat) (e : Stamped) :
    (placesFrom index offset above e)[0]? = some ⟨offset, e, above⟩ := by
  cases e <;> rfl

theorem getElem?_placesFrom_succ (index offset : Nat) (above : List Nat) (s : Nat) (k : Kind)
    (cs : List Stamped) (j : Nat) :
    (placesFrom index offset above (.node s k cs))[j + 1]? =
      (placesOfAll (index + 1) offset (index :: above) cs)[j]? := rfl

mutual

/-- The stretch of a place lies in the list. -/
theorem add_size_le_of_placesFrom {index offset : Nat} {above : List Nat} {q : Place} {j : Nat} :
    (e : Stamped) → (placesFrom index offset above e)[j]? = some q → j + q.element.size ≤ e.size
  | .token s k t, h => by
    cases j with
    | zero =>
      cases h
      simp
    | succ j => simp [placesFrom] at h
  | .node s k cs, h => by
    cases j with
    | zero =>
      cases h
      simp
    | succ j =>
      have := add_size_le_of_placesOfAll cs h
      simp only [size]
      omega

theorem add_size_le_of_placesOfAll {index offset : Nat} {above : List Nat} {q : Place} {j : Nat} :
    (es : List Stamped) → (placesOfAll index offset above es)[j]? = some q →
      j + q.element.size ≤ sizeOfAll es
  | [], h => by simp [placesOfAll] at h
  | e :: es, h => by
    rw [getElem?_placesOfAll_cons] at h
    simp only [sizeOfAll]
    split at h
    · have := add_size_le_of_placesFrom e h
      omega
    · have := add_size_le_of_placesOfAll es h
      omega

end

/-- A place is in the stretch of a place, if the places are listed from `index` on. -/
def Encloses (index : Nat) (places : List Place) (n m : Nat) : Prop :=
  index ≤ n ∧ n < m ∧ ∃ p, places[n - index]? = some p ∧ m < n + p.element.size

mutual

theorem mem_above_placesFrom {index offset : Nat} {above : List Nat} {q : Place} {j : Nat}
    (n : Nat) :
    (e : Stamped) → (placesFrom index offset above e)[j]? = some q →
      (n ∈ q.above ↔
        n ∈ above ∨ Encloses index (placesFrom index offset above e) n (index + j))
  | .token s k t, h => by
    cases j with
    | zero =>
      cases h
      simp only [Encloses]
      exact ⟨.inl, fun h => h.elim id fun ⟨h₁, h₂, _⟩ => by omega⟩
    | succ j => simp [placesFrom] at h
  | .node s k cs, h => by
    cases j with
    | zero =>
      cases h
      simp only [Encloses]
      exact ⟨.inl, fun h => h.elim id fun ⟨h₁, h₂, _⟩ => by omega⟩
    | succ j =>
      have hsize := add_size_le_of_placesOfAll cs h
      have hpos := q.element.size_pos
      rw [mem_above_placesOfAll n cs h, List.mem_cons, or_assoc, or_left_comm]
      refine or_congr Iff.rfl ?_
      constructor
      · rintro (rfl | ⟨h₁, h₂, p, hp, h₃⟩)
        · refine ⟨Nat.le_refl _, by omega, ⟨offset, .node s k cs, above⟩, ?_, ?_⟩
          · rw [Nat.sub_self]
            exact getElem?_placesFrom_zero _ _ _ _
          · simp only [size]
            omega
        · refine ⟨by omega, by omega, p, ?_, by omega⟩
          rw [show n - index = n - (index + 1) + 1 by omega]
          exact hp
      · rintro ⟨h₁, h₂, p, hp, h₃⟩
        rcases Nat.eq_or_lt_of_le h₁ with rfl | hlt
        · exact .inl rfl
        · refine .inr ⟨hlt, by omega, p, ?_, by omega⟩
          rw [show n - index = n - (index + 1) + 1 by omega] at hp
          exact hp

theorem mem_above_placesOfAll {index offset : Nat} {above : List Nat} {q : Place} {j : Nat}
    (n : Nat) :
    (es : List Stamped) → (placesOfAll index offset above es)[j]? = some q →
      (n ∈ q.above ↔
        n ∈ above ∨ Encloses index (placesOfAll index offset above es) n (index + j))
  | [], h => by simp [placesOfAll] at h
  | e :: es, h => by
    rw [getElem?_placesOfAll_cons] at h
    split at h
    · rename_i hj
      rw [mem_above_placesFrom n e h]
      refine or_congr Iff.rfl ⟨?_, ?_⟩
      · rintro ⟨h₁, h₂, p, hp, h₃⟩
        refine ⟨h₁, h₂, p, ?_, h₃⟩
        rw [getElem?_placesOfAll_cons, if_pos (by omega)]
        exact hp
      · rintro ⟨h₁, h₂, p, hp, h₃⟩
        rw [getElem?_placesOfAll_cons, if_pos (by omega)] at hp
        exact ⟨h₁, h₂, p, hp, h₃⟩
    · rename_i hj
      rw [mem_above_placesOfAll n es h]
      refine or_congr Iff.rfl ⟨?_, ?_⟩
      · rintro ⟨h₁, h₂, p, hp, h₃⟩
        refine ⟨by omega, by omega, p, ?_, by omega⟩
        rw [getElem?_placesOfAll_cons, if_neg (by omega),
          show n - index - e.size = n - (index + e.size) by omega]
        exact hp
      · rintro ⟨h₁, h₂, p, hp, h₃⟩
        rw [getElem?_placesOfAll_cons] at hp
        split at hp
        · have := add_size_le_of_placesFrom e hp
          omega
        · refine ⟨by omega, by omega, p, ?_, by omega⟩
          rw [show n - (index + e.size) = n - index - e.size by omega]
          exact hp

end

/-- The nodes above a place are those in whose stretch it stands. -/
theorem mem_above {root : Stamped} {j n : Nat} {q : Place} (h : root.places[j]? = some q) :
    n ∈ q.above ↔
      n < j ∧ ∃ p, root.places[n]? = some p ∧ j < n + p.element.size := by
  have := mem_above_placesFrom n root h
  simpa [Encloses, places] using this

/-! ## Stretches of the places -/

/-- The places stand in a tree from an index on. -/
def Listed (root : Stamped) (index : Nat) (places : List Place) : Prop :=
  places <+: root.places.drop index

namespace Listed

theorem root (e : Stamped) : Listed e 0 (placesFrom 0 0 [] e) :=
  List.prefix_refl _

variable {root : Stamped} {index offset : Nat} {above : List Nat}

theorem here {e : Stamped} (h : Listed root index (placesFrom index offset above e)) :
    root.places[index]? = some ⟨offset, e, above⟩ := by
  obtain ⟨rest, h⟩ := h
  have := congrArg (fun ps : List Place => ps[0]?) h
  rw [← getElem?_placesFrom_zero index offset above e, ← Nat.add_zero index, ← List.getElem?_drop,
    ← h, List.getElem?_append_left (by rw [length_placesFrom]; exact e.size_pos)]
  rfl

theorem children {s : Nat} {k : Kind} {cs : List Stamped}
    (h : Listed root index (placesFrom index offset above (.node s k cs))) :
    Listed root (index + 1) (placesOfAll (index + 1) offset (index :: above) cs) := by
  obtain ⟨rest, h⟩ := h
  exact ⟨rest, by rw [← List.tail_drop, ← h]; rfl⟩

theorem head {e : Stamped} {es : List Stamped}
    (h : Listed root index (placesOfAll index offset above (e :: es))) :
    Listed root index (placesFrom index offset above e) :=
  (List.prefix_append _ _).trans h

theorem tail {e : Stamped} {es : List Stamped}
    (h : Listed root index (placesOfAll index offset above (e :: es))) :
    Listed root (index + e.size) (placesOfAll (index + e.size) (offset + e.width) above es) := by
  obtain ⟨rest, h⟩ := h
  refine ⟨rest, ?_⟩
  rw [← List.drop_drop, ← h, placesOfAll, List.append_assoc,
    List.drop_left' (length_placesFrom ..)]

/-- An element stands behind the ones before it. -/
theorem middle {pre : List Stamped} {e : Stamped} {post : List Stamped}
    (h : Listed root index (placesOfAll index offset above (pre ++ e :: post))) :
    Listed root (index + sizeOfAll pre)
      (placesFrom (index + sizeOfAll pre) (offset + Element.widthOf (pre.map erase)) above e) := by
  induction pre generalizing index offset with
  | nil => exact h.head
  | cons p pre ih =>
    have := ih h.tail
    rwa [Nat.add_assoc, Nat.add_assoc] at this

end Listed

end RuleLang.Stamped
