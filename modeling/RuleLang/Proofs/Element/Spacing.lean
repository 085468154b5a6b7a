import RuleLang.Element

/-!
# Where empty nodes stand

An empty node covers no text, so its offset does not tell it from what stands next to it. In a tree
that was read from a source an empty node stands only right after a token with text.

## Main definitions

* `Element.isHollow`, `Element.isSolid` — nodes without children, and tokens with text.
* `Element.Spaced`, `Element.SpacedAll` — every empty node stands right after a token with text.
-/

namespace RuleLang.Element

/-- A node without children. -/
def isHollow : Element → Bool
  | .token _ _ => false
  | .node _ cs => cs.isEmpty

/-- A token with text. -/
def isSolid : Element → Bool
  | .token _ t => !t.isEmpty
  | .node _ _ => false

mutual

/-- Below an element every empty node stands right after a token with text. -/
def Spaced : Element → Prop
  | .token _ _ => True
  | .node _ cs => SpacedAll false cs

/-- The same in a list, where `behind` tells that the list stands right after such a token. -/
def SpacedAll (behind : Bool) : List Element → Prop
  | [] => True
  | e :: es => (e.isHollow = true → behind = true) ∧ e.Spaced ∧ SpacedAll e.isSolid es

end

@[simp] theorem spaced_token (k : Kind) (t : List Char) : (token k t).Spaced := by
  simp [Spaced]

@[simp] theorem spaced_node (k : Kind) (cs : List Element) :
    (node k cs).Spaced ↔ SpacedAll false cs := by
  simp [Spaced]

@[simp] theorem spacedAll_nil (behind : Bool) : SpacedAll behind [] := by
  simp [SpacedAll]

@[simp] theorem spacedAll_cons (behind : Bool) (e : Element) (es : List Element) :
    SpacedAll behind (e :: es) ↔
      (e.isHollow = true → behind = true) ∧ e.Spaced ∧ SpacedAll e.isSolid es := by
  simp [SpacedAll]

/-- Whether a list ends with a token with text, if what stands before it does. -/
def endsSolid (behind : Bool) (es : List Element) : Bool :=
  (es.getLast?.map isSolid).getD behind

theorem spacedAll_append (behind : Bool) (xs ys : List Element) :
    SpacedAll behind (xs ++ ys) ↔ SpacedAll behind xs ∧ SpacedAll (endsSolid behind xs) ys := by
  induction xs generalizing behind with
  | nil => simp [endsSolid]
  | cons e es ih =>
    have hlast : endsSolid behind (e :: es) = endsSolid e.isSolid es := by
      cases es <;> simp [endsSolid, List.getLast?_cons]
    simp [ih, hlast, and_assoc]

/-- A list may also stand after a token with text. -/
theorem SpacedAll.of_false {es : List Element} (h : SpacedAll false es) (behind : Bool) :
    SpacedAll behind es := by
  cases es with
  | nil => exact spacedAll_nil behind
  | cons e es =>
    obtain ⟨hollow, he, hes⟩ := (spacedAll_cons _ _ _).1 h
    exact (spacedAll_cons _ _ _).2 ⟨fun h => absurd (hollow h) Bool.false_ne_true, he, hes⟩

end RuleLang.Element
