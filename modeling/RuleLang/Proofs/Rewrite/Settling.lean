import Mathlib.Data.List.Basic
import Mathlib.Data.List.Induction
import Mathlib.Data.List.Nodup
import RuleLang.Proofs.Rewrite.Rebuild
import RuleLang.Proofs.Tree.Identity

/-!
# Settling a batch

Which edits of a batch are carried out, told by their positions in it: an edit is carried out if no
edit before it has the same target and no edit at all has a target above its own.

## Main definitions

* `Batch.verdict` — why the edit at a position is dropped, if it is.
* `Batch.accepted`, `Batch.action?` — the edits carried out, and what they do at a place.
* `Batch.warnings` — a warning for every edit that is dropped.

## Main statements

* `Batch.settle_accepted`, `Batch.settle_dropped` — the engine settles a batch by these verdicts.
* `Plan.fits_ofAccepted` — the plan of the edits carried out does what they say at their targets.
-/

namespace RuleLang

open Stamped

/-- The nodes above the element with an index. -/
def SyntaxTree.above (tree : SyntaxTree) (n : Nat) : List Nat :=
  (tree.root.places[n]?.map Place.above).getD []

namespace Batch

/-- An edit before a position has the same target. -/
def isRepeated (edits : List Edit) (e : Edit) (m : Nat) : Bool :=
  (edits.take m).any fun f => f.handle.index == e.handle.index

/-- An edit has a target above. -/
def isCovered (tree : SyntaxTree) (edits : List Edit) (e : Edit) : Bool :=
  (tree.above e.handle.index).any fun n => edits.any fun f => f.handle.index == n

/-- Why the edit at a position is dropped, if it is. -/
def verdict (tree : SyntaxTree) (edits : List Edit) (e : Edit) (m : Nat) : Option DropReason :=
  if isRepeated edits e m then some .sameElement
  else if isCovered tree edits e then some .enclosed
  else none

/-- The edits that are carried out. -/
def accepted (tree : SyntaxTree) (edits : List Edit) : List Edit :=
  (edits.zipIdx.filter fun x => (verdict tree edits x.1 x.2).isNone).map Prod.fst

/-- What is carried out at the element with an index. -/
def action? (tree : SyntaxTree) (edits : List Edit) (n : Nat) : Option Action :=
  ((accepted tree edits).find? fun e => e.handle.index == n).map Edit.action

/-- A warning for every edit that is dropped. -/
def warnings (tree : SyntaxTree) (edits : List Edit) : List Diagnostic :=
  edits.zipIdx.filterMap fun x => (verdict tree edits x.1 x.2).bind fun reason =>
    tree.root.places[x.1.handle.index]?.map fun p =>
      Dropped.diagnostic tree.sourceId (LineMap.ofSource tree.text) ⟨⟨p, x.1⟩, reason⟩

theorem any_congr_of_mem {α : Type} {xs : List α} {f g : α → Bool} (h : ∀ x ∈ xs, f x = g x) :
    xs.any f = xs.any g := by
  induction xs with
  | nil => rfl
  | cons x xs ih =>
    rw [List.any_cons, List.any_cons, h x List.mem_cons_self,
      ih fun y hy => h y (List.mem_cons_of_mem x hy)]

/-! ## Repeated targets -/

/-- The same among edits with their places. -/
def repeats (targeted : List Targeted) (t : Targeted) (m : Nat) : Bool :=
  (targeted.take m).any fun u => u.edit.handle == t.edit.handle

theorem splitRepeated_eq {seen : List Handle} (before : List Targeted)
    {targeted : List Targeted} (hseen : ∀ h, h ∈ seen ↔ ∃ t ∈ before, t.edit.handle = h) :
    splitRepeated seen targeted =
      (((targeted.zipIdx before.length).filter
          fun x => !repeats (before ++ targeted) x.1 x.2).map Prod.fst,
        ((targeted.zipIdx before.length).filter
          fun x => repeats (before ++ targeted) x.1 x.2).map Prod.fst) := by
  induction targeted generalizing seen before with
  | nil => rfl
  | cons t ts ih =>
    have hrepeats : repeats (before ++ t :: ts) t before.length = seen.contains t.edit.handle := by
      rw [Bool.eq_iff_iff]
      simp [repeats, hseen]
    have happend : before ++ t :: ts = before ++ [t] ++ ts := by simp
    simp only [splitRepeated, List.zipIdx_cons, List.filter_cons, hrepeats]
    split
    · rename_i hs
      have hseen' (h : Handle) : h ∈ seen ↔ ∃ u ∈ before ++ [t], u.edit.handle = h := by
        obtain ⟨v, hv, hveq⟩ := (hseen t.edit.handle).1 (by simpa using hs)
        grind
      have := ih (before ++ [t]) hseen'
      rw [List.length_append, List.length_singleton, ← happend] at this
      simp only [this, hs, Bool.not_true, Bool.false_eq_true, if_false, List.map_cons]
    · rename_i hs
      have hseen' (h : Handle) :
          h ∈ t.edit.handle :: seen ↔ ∃ u ∈ before ++ [t], u.edit.handle = h := by
        grind
      have := ih (before ++ [t]) hseen'
      rw [List.length_append, List.length_singleton, ← happend] at this
      simp only [this, hs, Bool.not_false, if_true, List.map_cons]

/-- Every target is the target of a first edit. -/
theorem mem_targets (seen : List Handle) (targeted : List Targeted) (h : Handle) :
    (h ∈ seen ∨ h ∈ (splitRepeated seen targeted).1.map fun t => t.edit.handle) ↔
      h ∈ seen ∨ ∃ t ∈ targeted, t.edit.handle = h := by
  induction targeted generalizing seen with
  | nil => simp [splitRepeated]
  | cons t ts ih =>
    simp only [splitRepeated]
    split
    · rename_i hs
      have hs' : t.edit.handle ∈ seen := by simpa using hs
      have := ih seen
      simp only [List.mem_cons, exists_eq_or_imp]
      rw [this]
      constructor
      · rintro (h' | h')
        · exact .inl h'
        · exact .inr (.inr h')
      · rintro (h' | rfl | h')
        · exact .inl h'
        · exact .inl hs'
        · exact .inr h'
    · have := ih (t.edit.handle :: seen)
      simp only [List.mem_cons, List.map_cons, exists_eq_or_imp] at this ⊢
      grind

/-! ## Verdicts -/

/-- Targets that are where the handles of their edits lead to. -/
def Resolved (tree : SyntaxTree) (targeted : List Targeted) : Prop :=
  ∀ t ∈ targeted, tree.root.places[t.edit.handle.index]? = some t.place ∧
    t.edit.handle.tree = tree.id

variable {tree : SyntaxTree} {targeted : List Targeted}

theorem Resolved.handle_eq (h : Resolved tree targeted) {t u : Targeted} (ht : t ∈ targeted)
    (hu : u ∈ targeted) :
    (u.edit.handle == t.edit.handle) = (u.edit.handle.index == t.edit.handle.index) := by
  have h₁ := (h t ht).2
  have h₂ := (h u hu).2
  rw [Bool.eq_iff_iff, beq_iff_eq, beq_iff_eq, Handle.mk.injEq]
  exact ⟨And.right, fun h => ⟨h₂.trans h₁.symm, h⟩⟩

theorem Resolved.repeats_eq (h : Resolved tree targeted) {t : Targeted} (ht : t ∈ targeted)
    (m : Nat) : repeats targeted t m = isRepeated (targeted.map Targeted.edit) t.edit m := by
  rw [repeats, isRepeated, ← List.map_take, List.any_map]
  refine any_congr_of_mem fun u hu => ?_
  exact h.handle_eq ht (List.mem_of_mem_take hu)

/-- The nodes above a target are looked up by their identities. -/
theorem Resolved.isEnclosed_eq (h : Resolved tree targeted)
    (hnodup : (tree.root.places.map Place.identity).Nodup) {t : Targeted} (ht : t ∈ targeted) :
    isEnclosed tree.index ((splitRepeated [] targeted).1.map fun t => t.edit.handle) t =
      isCovered tree (targeted.map Targeted.edit) t.edit := by
  obtain ⟨hplace, -⟩ := h t ht
  have habove : tree.above t.edit.handle.index = t.place.above := by
    rw [SyntaxTree.above, hplace]
    rfl
  rw [isEnclosed, isCovered, habove]
  refine any_congr_of_mem fun n hn => ?_
  obtain ⟨-, p, hp, -⟩ := (mem_above hplace).1 hn
  have hp' : tree.index.places[n]? = some p := by
    simpa [SyntaxTree.index] using hp
  have hhandle := TreeIndex.handleOf?_identity (i := tree.index)
    (by simpa [SyntaxTree.index] using hnodup) hp'
  rw [hp', Option.bind_some, hhandle, Option.any_some, Bool.eq_iff_iff, List.contains_iff_mem,
    List.any_map, List.any_eq_true]
  have := mem_targets [] targeted ⟨tree.id, n⟩
  simp only [List.not_mem_nil, false_or] at this
  change _ ∈ _ ↔ _
  rw [show tree.index.tree = tree.id from rfl, this]
  refine exists_congr fun u => and_congr_right fun hu => ?_
  have hid := (h u hu).2
  simp only [Function.comp, beq_iff_eq]
  exact ⟨fun he => by rw [he], fun he => by rw [← hid, ← he]⟩

/-- The verdict on a resolved edit is what the engine finds. -/
theorem Resolved.verdict_eq (h : Resolved tree targeted)
    (hnodup : (tree.root.places.map Place.identity).Nodup) {t : Targeted} (ht : t ∈ targeted)
    (m : Nat) :
    verdict tree (targeted.map Targeted.edit) t.edit m =
      if repeats targeted t m then some .sameElement
      else if isEnclosed tree.index
        ((splitRepeated [] targeted).1.map fun t => t.edit.handle) t then some .enclosed
      else none := by
  rw [verdict, h.repeats_eq ht, h.isEnclosed_eq hnodup ht]

/-- The verdict on a resolved edit at its position. -/
def judge (tree : SyntaxTree) (targeted : List Targeted) (x : Targeted × Nat) :
    Option DropReason :=
  verdict tree (targeted.map Targeted.edit) x.1.edit x.2

theorem mem_of_mem_zipIdx {α : Type} {xs : List α} {x : α × Nat} (h : x ∈ xs.zipIdx) :
    x.1 ∈ xs := by
  obtain ⟨-, h⟩ := List.mem_zipIdx' h
  exact h ▸ List.getElem_mem _

theorem splitRepeated_nil (targeted : List Targeted) :
    splitRepeated [] targeted =
      ((targeted.zipIdx.filter fun x => !repeats targeted x.1 x.2).map Prod.fst,
        (targeted.zipIdx.filter fun x => repeats targeted x.1 x.2).map Prod.fst) :=
  splitRepeated_eq [] fun h => by simp

/-- The engine carries out the edits that no verdict drops, in the order of the batch. -/
theorem settle_accepted (h : Resolved tree targeted)
    (hnodup : (tree.root.places.map Place.identity).Nodup) :
    (settle tree.index targeted).accepted =
      (targeted.zipIdx.filter fun x => (judge tree targeted x).isNone).map Prod.fst := by
  simp only [settle, List.partition_eq_filter_filter]
  rw [splitRepeated_nil]
  rw [List.filter_map, List.filter_filter]
  congr 1
  refine List.filter_congr fun x hx => ?_
  have hverdict := h.verdict_eq hnodup (mem_of_mem_zipIdx hx) x.2
  rw [splitRepeated_nil] at hverdict
  rw [judge, hverdict]
  simp only [Function.comp]
  split
  · rename_i hr
    simp [hr]
  · rename_i hr
    split
    · rename_i he
      simp only [he, Bool.not_true, Bool.false_and, Option.isNone_some]
    · rename_i he
      simp only [hr, he, Bool.not_false, Bool.and_true, Option.isNone_none]

theorem perm_filterMap {α β : Type} (xs : List α) (p q : α → Bool) (f g : α → β) :
    ((xs.filter p).map f ++ ((xs.filter fun x => !p x).filter q).map g).Perm
      (xs.filterMap fun x => if p x then some (f x) else if q x then some (g x) else none) := by
  induction xs with
  | nil => exact .nil
  | cons x xs ih =>
    cases hp : p x
    · cases hq : q x
      · simpa [hp, hq] using ih
      · simpa [hp, hq] using List.perm_middle.trans (ih.cons (g x))
    · simpa [hp] using ih.cons (f x)

/-- The engine drops the other edits, each for the reason of its verdict. -/
theorem settle_dropped (h : Resolved tree targeted)
    (hnodup : (tree.root.places.map Place.identity).Nodup) :
    (settle tree.index targeted).dropped.Perm
      (targeted.zipIdx.filterMap fun x => (judge tree targeted x).map fun r => ⟨x.1, r⟩) := by
  simp only [settle, List.partition_eq_filter_filter]
  rw [splitRepeated_nil]
  simp only [List.map_map, List.filter_map]
  refine (perm_filterMap _ _ _ _ _).trans (.of_eq (List.filterMap_congr fun x hx => ?_))
  have hverdict := h.verdict_eq hnodup (mem_of_mem_zipIdx hx) x.2
  rw [splitRepeated_nil] at hverdict
  rw [judge, hverdict]
  simp only [Function.comp_def, List.map_map]
  split
  · rfl
  · split <;> rfl

/-- The edits that are carried out, without their places. -/
theorem map_edit_settle_accepted (h : Resolved tree targeted)
    (hnodup : (tree.root.places.map Place.identity).Nodup) :
    (settle tree.index targeted).accepted.map Targeted.edit =
      accepted tree (targeted.map Targeted.edit) := by
  rw [settle_accepted h hnodup, accepted, List.zipIdx_map, List.filter_map, List.map_map,
    List.map_map]
  rfl

theorem action?_eq (h : Resolved tree targeted)
    (hnodup : (tree.root.places.map Place.identity).Nodup) :
    action? tree (targeted.map Targeted.edit) = fun n =>
      ((settle tree.index targeted).accepted.find? fun t => t.edit.handle.index == n).map
        fun t => t.edit.action := by
  funext n
  rw [action?, ← map_edit_settle_accepted h hnodup, List.find?_map, Option.map_map]
  rfl

/-- Every edit is carried out or dropped. -/
theorem length_settle (h : Resolved tree targeted)
    (hnodup : (tree.root.places.map Place.identity).Nodup) :
    (settle tree.index targeted).accepted.length + (settle tree.index targeted).dropped.length =
      targeted.length := by
  rw [settle_accepted h hnodup, (settle_dropped h hnodup).length_eq, List.length_map]
  have hsplit (xs : List (Targeted × Nat)) :
      (xs.filter fun x => (judge tree targeted x).isNone).length +
        (xs.filterMap fun x => (judge tree targeted x).map fun r => Dropped.mk x.1 r).length =
        xs.length := by
    induction xs with
    | nil => rfl
    | cons x xs ih => cases hx : judge tree targeted x <;> simp [hx] <;> omega
  rw [hsplit, List.length_zipIdx]

/-- The warnings of the edits that are dropped. -/
theorem perm_warnings (h : Resolved tree targeted)
    (hnodup : (tree.root.places.map Place.identity).Nodup) :
    ((settle tree.index targeted).dropped.map
      (Dropped.diagnostic tree.sourceId (LineMap.ofSource tree.text))).Perm
      (warnings tree (targeted.map Targeted.edit)) := by
  refine ((settle_dropped h hnodup).map _).trans (.of_eq ?_)
  rw [warnings, List.zipIdx_map, List.filterMap_map, List.map_filterMap]
  refine List.filterMap_congr fun x hx => ?_
  have hplace := (h x.1 (mem_of_mem_zipIdx hx)).1
  simp only [Function.comp, Prod.map, id_eq, judge, hplace, Option.map_some, Option.map_map]
  cases verdict tree (targeted.map Targeted.edit) x.1.edit x.2 <;> rfl

/-- No two edits that are carried out have one target. -/
theorem nodup_splitRepeated (seen : List Handle) (targeted : List Targeted) :
    ((splitRepeated seen targeted).1.map fun t => t.edit.handle).Nodup ∧
      ∀ t ∈ (splitRepeated seen targeted).1, t.edit.handle ∉ seen := by
  induction targeted generalizing seen with
  | nil => simp [splitRepeated]
  | cons t ts ih =>
    simp only [splitRepeated]
    split
    · exact ih seen
    · rename_i hs
      obtain ⟨hnodup, hseen⟩ := ih (t.edit.handle :: seen)
      simp only [List.mem_cons, not_or] at hseen
      refine ⟨?_, ?_⟩
      · rw [List.map_cons, List.nodup_cons]
        refine ⟨fun hm => ?_, hnodup⟩
        obtain ⟨u, hu, he⟩ := List.mem_map.1 hm
        exact (hseen u hu).1 he
      · intro u hu
        rcases List.mem_cons.1 hu with rfl | hu
        · simpa using hs
        · exact (hseen u hu).2

theorem settle_accepted_sublist (index : TreeIndex) (targeted : List Targeted) :
    (settle index targeted).accepted.Sublist (splitRepeated [] targeted).1 := by
  simp only [settle, List.partition_eq_filter_filter]
  exact List.filter_sublist

theorem mem_of_mem_splitRepeated {seen : List Handle} {targeted : List Targeted} {t : Targeted}
    (h : t ∈ (splitRepeated seen targeted).1) : t ∈ targeted := by
  induction targeted generalizing seen with
  | nil => simp [splitRepeated] at h
  | cons u us ih =>
    simp only [splitRepeated] at h
    split at h
    · exact List.mem_cons_of_mem u (ih h)
    · rcases List.mem_cons.1 h with rfl | h
      · exact List.mem_cons_self
      · exact List.mem_cons_of_mem u (ih h)

/-- The edits carried out are resolved, each at a target of its own. -/
theorem Resolved.accepted (h : Resolved tree targeted) :
    Resolved tree (settle tree.index targeted).accepted ∧
      ((settle tree.index targeted).accepted.map fun t => t.edit.handle).Nodup := by
  have hsub := settle_accepted_sublist tree.index targeted
  exact ⟨fun t ht => h t (mem_of_mem_splitRepeated (hsub.subset ht)),
    (nodup_splitRepeated [] targeted).1.sublist (hsub.map _)⟩

end Batch

/-! ## Plans -/

namespace Plan

theorem eraseDups_eq_self {xs : List Identity} (h : xs.Nodup) : xs.eraseDups = xs := by
  induction xs with
  | nil => rfl
  | cons x xs ih =>
    obtain ⟨hx, hxs⟩ := List.nodup_cons.1 h
    have hkeep : (xs.filter fun y => !y == x) = xs := by
      refine List.filter_eq_self.2 fun y hy => ?_
      have : y ≠ x := fun he => hx (he ▸ hy)
      simpa using this
    rw [List.eraseDups_cons, hkeep, ih hxs]

/-- The contents and the touched nodes of a plan are those of some edits. -/
structure Holds (index : TreeIndex) (plan : Plan) (edits : List Targeted) : Prop where
  keys : plan.contents.map Prod.fst = (edits.map fun t => t.place.identity).reverse
  stands : ∀ x ∈ plan.contents, ∃ t ∈ edits, x.1 = t.place.identity ∧ x.2.Stands t.edit.action
  touched (i : Identity) : i ∈ plan.touched ↔
    ∃ t ∈ edits, ∃ n ∈ t.place.above, ∃ p, index.places[n]? = some p ∧ p.identity = i

theorem holds_ofAccepted (index : TreeIndex) (supply : Nat) (edits : List Targeted) :
    Holds index (ofAccepted index supply edits).1 edits := by
  induction edits using List.reverseRecOn with
  | nil => exact ⟨rfl, nofun, fun i => by simp [ofAccepted]⟩
  | append_singleton edits t ih =>
    rw [ofAccepted, List.foldl_append]
    change Holds index (List.foldl _ (ofAccepted index supply edits) [t]).1 (edits ++ [t])
    generalize ofAccepted index supply edits = plan at ih
    obtain ⟨plan, supply⟩ := plan
    simp only [List.foldl_cons, List.foldl_nil]
    refine ⟨by simp [ih.keys], fun x hx => ?_, fun i => ?_⟩
    · rcases List.mem_cons.1 hx with rfl | hx
      · exact ⟨t, by simp, rfl, .stamp supply t.edit.action⟩
      · obtain ⟨u, hu, h⟩ := ih.stands x hx
        exact ⟨u, by simp [hu], h⟩
    · rw [List.mem_append, ih.touched i, List.mem_filterMap]
      simp only [List.mem_append, List.mem_singleton, Option.map_eq_some_iff]
      constructor
      · rintro (⟨n, hn, h⟩ | ⟨u, hu, h⟩)
        · exact ⟨t, .inr rfl, n, hn, h⟩
        · exact ⟨u, .inl hu, h⟩
      · rintro ⟨u, hu | rfl, h⟩
        · exact .inr ⟨u, hu, h⟩
        · obtain ⟨n, hn, h⟩ := h
          exact .inl ⟨n, hn, h⟩

theorem mem_of_lookup {i : Identity} {contents : List (Identity × Content)} {c : Content}
    (h : contents.lookup i = some c) : (i, c) ∈ contents := by
  obtain ⟨xs, ys, rfl, -⟩ := List.lookup_eq_some_iff.1 h
  simp

variable {tree : SyntaxTree} {edits : List Targeted}

/-- Places with one identity are one place. -/
theorem index_eq_of_identity_eq {root : Stamped} (hnodup : (root.places.map Place.identity).Nodup)
    {n m : Nat} {p q : Place} (hp : root.places[n]? = some p) (hq : root.places[m]? = some q)
    (h : p.identity = q.identity) : n = m := by
  have hn : n < (root.places.map Place.identity).length := by
    rw [List.length_map]
    exact (List.getElem?_eq_some_iff.1 hp).1
  refine (List.getElem?_inj hn hnodup).1 ?_
  simp [hp, hq, h]

/-- The plan of edits with targets of their own does what they say at their targets. -/
theorem fits_ofAccepted (hnodup : (tree.root.places.map Place.identity).Nodup)
    (hresolved : Batch.Resolved tree edits) (hhandles : (edits.map fun t => t.edit.handle).Nodup)
    (supply : Nat) :
    (ofAccepted tree.index supply edits).1.Fits
      (fun n => (edits.find? fun t => t.edit.handle.index == n).map fun t => t.edit.action) 0
      tree.root.places := by
  have holds := holds_ofAccepted tree.index supply edits
  generalize (ofAccepted tree.index supply edits).1 = plan at holds
  have htarget {t : Targeted} (ht : t ∈ edits) {j : Nat} {p : Place}
      (hp : tree.root.places[j]? = some p) (h : p.identity = t.place.identity) :
      t.edit.handle.index = j :=
    (index_eq_of_identity_eq hnodup hp (hresolved t ht).1 h).symm
  refine ⟨fun {j p} hp => ?_, fun {j p} hp => ?_⟩
  · rw [Nat.zero_add, content?]
    cases hfind : edits.find? fun t => t.edit.handle.index == j with
    | none =>
      have hlookup : plan.contents.lookup p.identity = none := by
        cases hl : plan.contents.lookup p.identity with
        | none => rfl
        | some c =>
          obtain ⟨t, ht, hid, -⟩ := holds.stands _ (mem_of_lookup hl)
          have := List.find?_eq_none.1 hfind t ht
          simp [htarget ht hp hid] at this
      rw [hlookup]
      exact .none
    | some t =>
      have ht := List.mem_of_find?_eq_some hfind
      have hindex : t.edit.handle.index = j := by simpa using List.find?_some hfind
      have hplace : t.place = p := by
        have := (hresolved t ht).1
        rw [hindex, hp] at this
        exact (Option.some.inj this).symm
      have hkey : p.identity ∈ plan.contents.map Prod.fst := by
        rw [holds.keys, List.mem_reverse]
        exact List.mem_map.2 ⟨t, ht, by rw [hplace]⟩
      cases hl : plan.contents.lookup p.identity with
      | none =>
        obtain ⟨x, hx, hxid⟩ := List.mem_map.1 hkey
        have := List.lookup_eq_none_iff.1 hl x hx
        simp [hxid] at this
      | some c =>
        obtain ⟨u, hu, hid, hstands⟩ := holds.stands _ (mem_of_lookup hl)
        have huindex := htarget hu hp hid
        have hut : u = t := by
          refine List.inj_on_of_nodup_map hhandles hu ht ?_
          rw [Handle.mk.injEq]
          exact ⟨(hresolved u hu).2.trans (hresolved t ht).2.symm, huindex.trans hindex.symm⟩
        exact .some (hut ▸ hstands)
  · rw [List.contains_iff_mem, holds.touched, Nat.zero_add]
    constructor
    · rintro ⟨t, ht, n, hn, q, hq, hid⟩
      have hq' : tree.root.places[n]? = some q := by simpa [SyntaxTree.index] using hq
      obtain rfl := index_eq_of_identity_eq hnodup hq' hp hid
      obtain ⟨hlt, q', hq'', hsize⟩ := (mem_above (hresolved t ht).1).1 hn
      obtain rfl := Option.some.inj (hp.symm.trans hq'')
      refine ⟨t.edit.handle.index, hlt, hsize, ?_⟩
      rw [Option.isSome_map, List.find?_isSome]
      exact ⟨t, ht, by simp⟩
    · rintro ⟨n, hlt, hsize, hsome⟩
      rw [Option.isSome_map, List.find?_isSome] at hsome
      obtain ⟨t, ht, hindex⟩ := hsome
      obtain rfl : t.edit.handle.index = n := by simpa using hindex
      refine ⟨t, ht, j, (mem_above (hresolved t ht).1).2 ⟨hlt, p, hp, hsize⟩, p, ?_, rfl⟩
      simpa [SyntaxTree.index] using hp

/-- As many places have new contents as edits are carried out. -/
theorem count_ofAccepted (hnodup : (tree.root.places.map Place.identity).Nodup)
    (hresolved : Batch.Resolved tree edits) (hhandles : (edits.map fun t => t.edit.handle).Nodup)
    (supply : Nat) : (ofAccepted tree.index supply edits).1.count = edits.length := by
  have hkeys : (edits.map fun t => t.place.identity).Nodup := by
    refine List.Nodup.map_on (fun t ht u hu h => ?_) hhandles.of_map
    refine List.inj_on_of_nodup_map hhandles ht hu ?_
    rw [Handle.mk.injEq]
    exact ⟨(hresolved t ht).2.trans (hresolved u hu).2.symm,
      index_eq_of_identity_eq hnodup (hresolved t ht).1 (hresolved u hu).1 h⟩
  rw [count, (holds_ofAccepted tree.index supply edits).keys,
    eraseDups_eq_self (List.nodup_reverse.2 hkeys)]
  simp

end Plan

end RuleLang
