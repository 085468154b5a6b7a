import RuleLang.Element

/-!
# What holds of every element at its place

A property of elements and of the offsets where they stand, for all elements at or below a list.
Reading appends elements to a list and makes nodes of lists, and the property follows along.

## Main definitions

* `Element.Everywhere` — a property of every element at or below a list, at its offset.

## Main statements

* `Element.Everywhere.append`, `Element.Everywhere.node` — the property for lists that are put
  together, and for nodes.
* `Element.mem_preorderOf` — an element at or below a list belongs to one of its items.
-/

namespace RuleLang.Element

/-! ## Widths -/

theorem widthOf_append (xs ys : List Element) : widthOf (xs ++ ys) = widthOf xs + widthOf ys := by
  induction xs with
  | nil => simp
  | cons e es ih => simp [ih, Nat.add_assoc]

/-! ## Preorder -/

theorem preorderOf_append (depth offset : Nat) (xs ys : List Element) :
    preorderOf depth offset (xs ++ ys) =
      preorderOf depth offset xs ++ preorderOf depth (offset + widthOf xs) ys := by
  induction xs generalizing offset with
  | nil => simp [preorderOf]
  | cons e es ih => simp [preorderOf, ih, Nat.add_assoc]

/-- An element at or below a list belongs to one of its items, which starts where the items before
it end. -/
theorem mem_preorderOf {depth offset : Nat} {es : List Element} {p : Placed}
    (h : p ∈ preorderOf depth offset es) :
    ∃ before e after, es = before ++ e :: after ∧
      p ∈ e.preorder depth (offset + widthOf before) := by
  induction es generalizing offset with
  | nil => simp [preorderOf] at h
  | cons e es ih =>
    rcases List.mem_append.1 h with h | h
    · exact ⟨[], e, es, rfl, h⟩
    · obtain ⟨before, e', after, rfl, hp⟩ := ih h
      exact ⟨e :: before, e', after, rfl, by rwa [widthOf_cons, ← Nat.add_assoc]⟩

/-! ## Everywhere -/

/-- What holds of every element at or below a list, at the offset where it stands. -/
def Everywhere (P : Nat → Element → Prop) (offset : Nat) (es : List Element) : Prop :=
  ∀ depth, ∀ p ∈ preorderOf depth offset es, P p.offset p.element

variable {P Q : Nat → Element → Prop} {offset : Nat} {xs ys : List Element}

@[simp] theorem everywhere_nil : Everywhere P offset [] := by
  intro depth p hp
  simp [preorderOf] at hp

theorem Everywhere.append (hx : Everywhere P offset xs)
    (hy : Everywhere P (offset + widthOf xs) ys) : Everywhere P offset (xs ++ ys) := by
  intro depth p hp
  rw [preorderOf_append] at hp
  exact (List.mem_append.1 hp).elim (hx depth p) (hy depth p)

@[simp] theorem everywhere_token {k : Kind} {t : List Char} :
    Everywhere P offset [.token k t] ↔ P offset (.token k t) := by
  simp [Everywhere, preorderOf, preorder]

theorem Everywhere.node {k : Kind} {cs : List Element} (hn : P offset (.node k cs))
    (hcs : Everywhere P offset cs) : Everywhere P offset [.node k cs] := by
  intro depth p hp
  rw [preorderOf, preorderOf, List.append_nil, preorder, List.mem_cons] at hp
  rcases hp with rfl | hp
  · exact hn
  · exact hcs _ p hp

theorem Everywhere.mono (h : Everywhere P offset xs) (himp : ∀ n e, P n e → Q n e) :
    Everywhere Q offset xs :=
  fun depth p hp => himp _ _ (h depth p hp)

end RuleLang.Element
