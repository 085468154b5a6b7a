import RuleLang.Proofs.Element.Spacing
import RuleLang.Proofs.Tree.Places

/-!
# Identities of places

Elements that were just read have stamps of their own, except that empty nodes of one kind share
theirs. In a spaced tree no two empty nodes stand at one offset, so each place has an identity of its
own, and the way from a place to its handle leads back to that place.

## Main definitions

* `Stamped.Stamping` — identities with stamps from a range of their own, or of empty nodes.

## Main statements

* `Stamped.nodup_identities` — the places of a spaced tree that was just read have identities of
  their own.
* `TreeIndex.handleOf?_identity` — the handle of a place leads to it.
-/

namespace RuleLang

open Element

theorem Kind.raw_lt (k : Kind) : k.raw < Stamped.firstOwnStamp := by
  cases k <;> decide

namespace Stamped

theorem width_pos_of_isSolid {e : Element} (h : e.isSolid = true) : 0 < e.width := by
  cases e with
  | token k t =>
    cases t with
    | nil => cases h
    | cons c t =>
      rw [Element.width, Text.byteLength_cons]
      have := c.utf8Size_pos
      omega
  | node k cs => cases h

/-! ## Stamps of an element that was just read -/

/-- Identities with stamps from `next` to `next'`, or of empty nodes, which stand between two
offsets and at the first one only if `hollow` allows it. -/
structure Stamping (base next next' start stop : Nat) (hollow : Bool) (ids : List Identity) :
    Prop where
  le : next ≤ next'
  nodup : ids.Nodup
  mem : ∀ i ∈ ids, (next ≤ i.stamp ∧ i.stamp < next') ∨
    (i.stamp < base + firstOwnStamp ∧ start ≤ i.offset ∧ i.offset ≤ stop ∧
      (i.offset = start → hollow = true))

namespace Stamping

variable {base next next' next'' start middle stop : Nat} {hollow hollow' : Bool}
  {xs ys : List Identity}

theorem nil : Stamping base next next start start false [] :=
  ⟨Nat.le_refl _, List.nodup_nil, nofun⟩

theorem own (offset : Nat) :
    Stamping base next (next + 1) start stop hollow [⟨next, offset⟩] := by
  refine ⟨Nat.le_succ _, by simp, fun i hi => .inl ?_⟩
  rw [List.mem_singleton.1 hi]
  exact ⟨Nat.le_refl _, Nat.lt_succ_self _⟩

theorem shared (k : Kind) (offset : Nat) :
    Stamping base next next offset offset true [⟨base + k.raw, offset⟩] := by
  refine ⟨Nat.le_refl _, by simp, fun i hi => .inr ?_⟩
  rw [List.mem_singleton.1 hi]
  have := k.raw_lt
  exact ⟨by simp only; omega, Nat.le_refl _, Nat.le_refl _, fun _ => rfl⟩

/-- A node with a stamp of its own before the places below it. -/
theorem cons (hnext : base + firstOwnStamp ≤ next) (offset : Nat)
    (h : Stamping base (next + 1) next' start stop hollow xs) :
    Stamping base next next' start stop hollow (⟨next, offset⟩ :: xs) := by
  have hle := h.le
  refine ⟨by omega, List.nodup_cons.2 ⟨fun hm => ?_, h.nodup⟩, fun i hi => ?_⟩
  · rcases h.mem _ hm with ⟨h₁, -⟩ | ⟨h₁, -⟩ <;> simp only at h₁ <;> omega
  · rcases List.mem_cons.1 hi with rfl | hi
    · exact .inl ⟨Nat.le_refl _, by simp only; omega⟩
    · rcases h.mem i hi with ⟨h₁, h₂⟩ | h₁
      · exact .inl ⟨by omega, h₂⟩
      · exact .inr h₁

/-- What stands at the first offset of the second part follows nothing but a token with text. -/
theorem append (hnext : base + firstOwnStamp ≤ next) (hstart : start ≤ middle)
    (hstop : middle ≤ stop) (h : Stamping base next next' start middle hollow xs)
    (h' : Stamping base next' next'' middle stop hollow' ys)
    (hsolid : hollow' = true → start < middle ∧ ∀ i ∈ xs, next ≤ i.stamp) :
    Stamping base next next'' start stop hollow (xs ++ ys) := by
  have hle := h.le
  have hle' := h'.le
  refine ⟨by omega, List.nodup_append.2 ⟨h.nodup, h'.nodup, fun i hi j hj hij => ?_⟩,
    fun i hi => ?_⟩
  · subst hij
    rcases h.mem i hi with ⟨h₁, h₂⟩ | ⟨h₁, h₂, h₃, h₄⟩ <;>
      rcases h'.mem i hj with ⟨k₁, k₂⟩ | ⟨k₁, k₂, k₃, k₄⟩
    · omega
    · omega
    · omega
    · have := (hsolid (k₄ (by omega))).2 i hi
      omega
  · rcases List.mem_append.1 hi with hi | hi
    · rcases h.mem i hi with ⟨h₁, h₂⟩ | ⟨h₁, h₂, h₃, h₄⟩
      · exact .inl ⟨h₁, by omega⟩
      · exact .inr ⟨h₁, h₂, by omega, h₄⟩
    · rcases h'.mem i hi with ⟨k₁, k₂⟩ | ⟨k₁, k₂, k₃, k₄⟩
      · exact .inl ⟨by omega, k₂⟩
      · refine .inr ⟨k₁, by omega, k₃, fun hs => ?_⟩
        have := (hsolid (k₄ (by omega))).1
        omega

end Stamping

mutual

theorem stamping_placesFrom {base next : Nat} (hnext : base + firstOwnStamp ≤ next)
    (index offset : Nat) (above : List Nat) :
    (e : Element) → e.Spaced →
      Stamping base next (stampFrom base next e).2 offset (offset + e.width) e.isHollow
        ((placesFrom index offset above (stampFrom base next e).1).map Place.identity)
  | .token _ _, _ => .own offset
  | .node k [], _ => by
    simpa [stampFrom, placesFrom, placesOfAll, Place.identity, stamp, isHollow, Element.width]
      using Stamping.shared k offset
  | .node k (c :: cs), he => by
    have hnext' : base + firstOwnStamp ≤ next + 1 := by omega
    have h := stamping_placesOfAll hnext' (index + 1) offset (index :: above) (c :: cs) false ((spaced_node _ _).1 he)
    simp only [List.head?_cons, Option.any_some] at h
    have hc : c.isHollow = false := by
      have := ((spacedAll_cons _ _ _).1 ((spaced_node _ _).1 he)).1
      cases hh : c.isHollow
      · rfl
      · exact absurd (this hh) Bool.false_ne_true
    rw [hc] at h
    rw [width_node]
    exact h.cons hnext offset

theorem stamping_placesOfAll {base next : Nat} (hnext : base + firstOwnStamp ≤ next)
    (index offset : Nat) (above : List Nat) :
    (es : List Element) → (behind : Bool) → SpacedAll behind es →
      Stamping base next (stampAllFrom base next es).2 offset (offset + widthOf es)
        (es.head?.any isHollow)
        ((placesOfAll index offset above (stampAllFrom base next es).1).map Place.identity)
  | [], _, _ => .nil
  | e :: es, _, hes => by
    obtain ⟨-, he, hes⟩ := (spacedAll_cons _ _ _).1 hes
    have h := stamping_placesFrom hnext index offset above e he
    have h' := stamping_placesOfAll (Nat.le_trans hnext h.le)
      (index + (stampFrom base next e).1.size) (offset + e.width) above es e.isSolid hes
    simp only [stampAllFrom, placesOfAll, List.map_append, width_stampFrom, widthOf_cons,
      List.head?_cons, Option.any_some, ← Nat.add_assoc]
    refine h.append hnext (by omega) (by omega) h' fun hh => ?_
    have hsolid : e.isSolid = true := by
      cases es with
      | nil => cases hh
      | cons f fs => exact ((spacedAll_cons _ _ _).1 hes).1 hh
    refine ⟨by have := width_pos_of_isSolid hsolid; omega, fun i hi => ?_⟩
    cases e with
    | token k t =>
      rw [List.mem_singleton.1 hi]
      exact Nat.le_refl _
    | node k cs => cases hsolid

end

/-- The places of a spaced tree that was just read have identities of their own. -/
theorem nodup_identities {e : Element} (he : e.Spaced) (base : Nat) :
    ((ofElement base e).1.places.map Place.identity).Nodup :=
  (stamping_placesFrom (Nat.le_refl _) 0 0 [] e he).nodup

end Stamped

/-! ## Handles -/

namespace TreeIndex

open Stamped

variable {i : TreeIndex}

theorem lastBefore?_eq {n m : Nat} {p : Place}
    (hnodup : (i.places.toList.map Place.identity).Nodup) (hp : i.places[n]? = some p)
    (hm : n < m) : i.lastBefore? p.identity m = some n := by
  induction m with
  | zero => omega
  | succ m ih =>
    rw [lastBefore?]
    rcases Nat.eq_or_lt_of_le (Nat.le_of_lt_succ hm) with rfl | hlt
    · simp [hp]
    · rw [if_neg, ih hlt]
      intro hq
      cases hm' : i.places[m]? with
      | none => simp [hm'] at hq
      | some q =>
        have hq' : q.identity = p.identity := by simpa [hm'] using hq
        have hn : (i.places.toList.map Place.identity)[n]? = some p.identity := by simp [hp]
        have hm'' : (i.places.toList.map Place.identity)[m]? = some p.identity := by
          simp [hm', hq']
        have := (List.getElem?_inj (by simpa using (List.getElem?_eq_some_iff.1 hn).1) hnodup).1
          (hn.trans hm''.symm)
        omega

/-- The handle of a place leads to it, if the places have identities of their own. -/
theorem handleOf?_identity {n : Nat} {p : Place}
    (hnodup : (i.places.toList.map Place.identity).Nodup) (hp : i.places[n]? = some p) :
    i.handleOf? p.identity = some ⟨i.tree, n⟩ := by
  have hn : n < i.size := (Array.getElem?_eq_some_iff.1 hp).1
  rw [handleOf?, indexOf?, lastBefore?_eq hnodup hp hn, Option.map_some]

end TreeIndex

end RuleLang
