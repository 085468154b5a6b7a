import RuleLang.Proofs.Diagnostic.Order
import RuleLang.Proofs.Grammar.SpacedRules
import RuleLang.Proofs.Rewrite.Settling

/-!
# What a batch comes to

A batch fails exactly if one of its handles leads nowhere. Otherwise the edits that no other edit
wins over are carried out, all at once, and all else stays as it is.

## Main definitions

* `SyntaxTree.reaches`, `SyntaxTree.staleness` — handles that lead to an element, and what is wrong
  with the others.
* `SyntaxTree.Applied` — what the outcome of a batch has to be.

## Main statements

* `SyntaxTree.apply_parsed` — what a batch comes to on the tree of a source.
-/

namespace RuleLang

open Stamped

/-! ## Handles -/

namespace SyntaxTree

variable {tree : SyntaxTree}

/-- The handle leads to an element of the tree. -/
def reaches (tree : SyntaxTree) (h : Handle) : Bool :=
  h.tree == tree.id && h.index < tree.root.size

/-- The failure for a handle that leads nowhere. -/
def staleness (tree : SyntaxTree) (h : Handle) : Failure :=
  .staleHandle h (if h.tree = tree.id then .outOfRange tree.root.size else .otherTree tree.id)

theorem size_index (tree : SyntaxTree) : tree.index.size = tree.root.size := by
  simp [index, TreeIndex.size, Stamped.places]

theorem resolve_of_reaches {h : Handle} (hr : tree.reaches h = true) :
    ∃ p, tree.root.places[h.index]? = some p ∧ h.tree = tree.id ∧
      tree.index.resolve h = .ok p := by
  obtain ⟨htree, hindex⟩ := Bool.and_eq_true_iff.1 hr
  have htree : h.tree = tree.id := by simpa using htree
  have hlt : h.index < tree.root.places.length := by
    simpa [Stamped.places] using hindex
  refine ⟨tree.root.places[h.index], List.getElem?_eq_getElem hlt, htree, ?_⟩
  simp [TreeIndex.resolve, index, htree, hlt]

theorem resolve_of_not_reaches {h : Handle} (hr : tree.reaches h = false) :
    tree.index.resolve h = .error (tree.staleness h) := by
  rw [TreeIndex.resolve, staleness]
  by_cases htree : h.tree = tree.id
  · have hindex : ¬h.index < tree.root.size := by
      simpa [reaches, htree] using hr
    have hnone : tree.index.places[h.index]? = none := by
      have := tree.size_index
      rw [TreeIndex.size] at this
      rw [Array.getElem?_eq_none_iff]
      omega
    rw [if_neg (by simpa [index] using htree), hnone, if_pos htree, size_index]
  · rw [if_pos (by simpa [index] using htree), if_neg htree]
    rfl

/-! ## Resolving a batch -/

theorem resolve_batch (tree : SyntaxTree) (edits : List Edit) :
    match edits.find? fun e => !tree.reaches e.handle with
    | some e => Batch.resolve tree.index edits = .error (tree.staleness e.handle)
    | none => ∃ targeted, Batch.resolve tree.index edits = .ok targeted ∧
        Batch.Resolved tree targeted ∧ targeted.map Targeted.edit = edits := by
  induction edits with
  | nil => exact ⟨[], rfl, nofun, rfl⟩
  | cons e es ih =>
    rw [List.find?_cons]
    cases hr : tree.reaches e.handle with
    | false =>
      simp only [Bool.not_false]
      rw [Batch.resolve, List.mapM_cons, resolve_of_not_reaches hr]
      rfl
    | true =>
      obtain ⟨p, hp, htree, hresolve⟩ := resolve_of_reaches hr
      simp only [Bool.not_true]
      split at ih
      · rename_i f hf
        rw [Batch.resolve] at ih
        simp only [hf, Batch.resolve, List.mapM_cons, hresolve, ih]
        rfl
      · rename_i hf
        simp only [hf]
        obtain ⟨targeted, hok, hresolved, hedits⟩ := ih
        refine ⟨⟨p, e⟩ :: targeted, ?_, ?_, by rw [List.map_cons, hedits]⟩
        · rw [Batch.resolve] at hok ⊢
          rw [List.mapM_cons, hresolve, hok]
          rfl
        · intro t ht
          rcases List.mem_cons.1 ht with rfl | ht
          · exact ⟨hp, htree⟩
          · exact hresolved t ht

/-! ## Outcomes -/

/-- What the outcome of a batch has to be, if all its handles lead to elements. -/
structure Applied (config : RewriteConfig) (tree : SyntaxTree) (edits : List Edit)
    (r : Rewritten) : Prop where
  /-- At the targets of the edits that are carried out stands what they put in. -/
  element : r.tree.element = tree.element.editedRoot (Batch.action? tree edits)
  /-- The leaves of those targets give way, in place and in order, and no others. -/
  leaves : r.tree.element.leaves = tree.element.leavesWith (Batch.action? tree edits) 0
  /-- An element is kept if nothing is carried out at it, above it or below it. -/
  kept : ∀ n p, tree.root.places[n]? = some p →
    (∀ m, m = n ∨ m ∈ tree.above n ∨ n ∈ tree.above m → Batch.action? tree edits m = none) →
    ∃ q ∈ r.tree.root.places, q.element = p.element
  root : ∃ cs, r.tree.element = .node .compilationUnit cs
  applied : r.applied = (Batch.accepted tree edits).length
  dropped : r.applied + r.dropped = edits.length
  /-- Each edit that is dropped is worth one warning. -/
  warnings : r.diagnostics.Perm
    (if config.reportConflicts then Batch.warnings tree edits else [])
  oneEach : config.reportConflicts = true → r.diagnostics.length = r.dropped ∧
    ∀ d ∈ r.diagnostics, d.severity = .warning ∧ d.kind = .rewriteConflict
  sorted : r.diagnostics.Pairwise fun a b => a.location.span.start ≤ b.location.span.start

namespace Applied

variable {config : RewriteConfig} {tree : SyntaxTree} {edits : List Edit}

/-- A tree without anything to do stays as it is. -/
theorem nil {s : Nat} {cs : List Stamped} (hroot : tree.root = .node s .compilationUnit cs) :
    Applied config tree [] ⟨tree, [], 0, 0⟩ := by
  have hnone : Batch.action? tree [] = fun _ => none := rfl
  have helement : tree.element = .node .compilationUnit (cs.map erase) := by
    rw [SyntaxTree.element, hroot, erase, eraseAll_eq_map]
  have hedited : tree.element.editedRoot (Batch.action? tree []) = tree.element := by
    have hcs : Element.editedAll (fun _ => none) 1 (cs.map erase) = cs.map erase :=
      Element.editedAll_of_none 1 (cs.map erase) fun _ _ _ => rfl
    simp [hnone, helement, Element.editedRoot, Element.kind, Element.children, hcs]
  refine ⟨hedited.symm, ?_, fun n p hp _ => ⟨p, List.mem_of_getElem? hp, rfl⟩, ⟨_, helement⟩, rfl,
    rfl, ?_, fun _ => ⟨rfl, by simp⟩, .nil⟩
  · rw [helement, ← Element.leaves_editedRoot, ← helement, hedited]
  · simp [Batch.warnings]

end Applied

theorem warning_of_mem_warnings {tree : SyntaxTree} {edits : List Edit} {d : Diagnostic}
    (h : d ∈ Batch.warnings tree edits) : d.severity = .warning ∧ d.kind = .rewriteConflict := by
  obtain ⟨x, -, hx⟩ := List.mem_filterMap.1 h
  obtain ⟨reason, -, hx⟩ := Option.bind_eq_some_iff.1 hx
  obtain ⟨p, -, rfl⟩ := Option.map_eq_some_iff.1 hx
  exact ⟨rfl, rfl⟩

/-- The outcome of a batch of resolved edits. -/
def outcome (config : RewriteConfig) (newId : TreeId) (tree : SyntaxTree)
    (targeted : List Targeted) : Rewritten :=
  let settled := Batch.settle tree.index targeted
  let plan := Plan.ofAccepted tree.index tree.supply settled.accepted
  let root := tree.root.rewrite plan.1 plan.2
  ⟨⟨newId, tree.sourceId, root.1, root.2⟩,
    if config.reportConflicts then
      Diagnostic.sort (settled.dropped.map
        (Dropped.diagnostic tree.sourceId (LineMap.ofSource tree.text)))
    else [],
    plan.1.count, settled.dropped.length⟩

theorem apply_of_resolve {config : RewriteConfig} {tree : SyntaxTree} {edits : List Edit}
    {targeted : List Targeted} (newId : TreeId) (hne : edits ≠ [])
    (hok : Batch.resolve tree.index edits = .ok targeted) :
    tree.apply config newId edits = .ok (outcome config newId tree targeted) := by
  have hempty : edits.isEmpty = false := by simpa using hne
  rw [apply, hempty]
  simp only [Bool.false_eq_true, if_false, hok, Except.map]
  rfl

section Outcome

variable {config : RewriteConfig} {tree : SyntaxTree} {targeted : List Targeted}
  {s : Nat} {cs : List Stamped}

/-- Nothing is done above a place, at it or below it. -/
theorem unreached_of_above {act? : Nat → Option Action} {n : Nat} {p : Place}
    (hp : tree.root.places[n]? = some p)
    (h : ∀ m, m = n ∨ m ∈ tree.above n ∨ n ∈ tree.above m → act? m = none) :
    Unreached act? 0 tree.root.places n p := by
  have habove (m : Nat) (q : Place) (hq : tree.root.places[m]? = some q) :
      tree.above m = q.above := by
    rw [SyntaxTree.above, hq]
    rfl
  constructor
  · rintro m ⟨-, hlt, q, hq, hsize⟩
    refine h m (.inr (.inl ?_))
    rw [habove n p hp, mem_above hp]
    exact ⟨by omega, q, hq, by omega⟩
  · intro m hle hlt
    rcases Nat.eq_or_lt_of_le hle with he | hlt'
    · exact h m (.inl (by omega))
    · have hsize := add_size_le_of_placesFrom tree.root hp
      obtain ⟨q, hq⟩ : ∃ q, tree.root.places[m]? = some q := by
        refine ⟨_, List.getElem?_eq_getElem ?_⟩
        rw [Stamped.places, length_placesFrom]
        omega
      refine h m (.inr (.inr ?_))
      rw [habove m q hq, mem_above hq]
      exact ⟨by omega, p, hp, by omega⟩

/-- What the outcome is, if the places of the tree have identities of their own. -/
theorem applied_outcome (newId : TreeId) (hroot : tree.root = .node s .compilationUnit cs)
    (hnodup : (tree.root.places.map Place.identity).Nodup)
    (hresolved : Batch.Resolved tree targeted) :
    Applied config tree (targeted.map Targeted.edit) (outcome config newId tree targeted) := by
  obtain ⟨haccepted, hhandles⟩ := hresolved.accepted
  have hfits := Plan.fits_ofAccepted hnodup haccepted hhandles tree.supply
  rw [← Batch.action?_eq hresolved hnodup] at hfits
  have hcount := Plan.count_ofAccepted hnodup haccepted hhandles tree.supply
  have hwarnings := Batch.perm_warnings hresolved hnodup
  have helement : (outcome config newId tree targeted).tree.element =
      tree.element.editedRoot (Batch.action? tree (targeted.map Targeted.edit)) := by
    change (tree.root.rewrite _ _).1.erase = tree.root.erase.editedRoot _
    rw [hroot] at hfits ⊢
    exact erase_rewrite _ hfits
  have herase : tree.element = .node .compilationUnit (cs.map erase) := by
    rw [SyntaxTree.element, hroot, erase, eraseAll_eq_map]
  have hperm : (outcome config newId tree targeted).diagnostics.Perm
      (if config.reportConflicts then Batch.warnings tree (targeted.map Targeted.edit) else []) := by
    simp only [outcome]
    split
    · exact (List.mergeSort_perm _ _).trans hwarnings
    · exact .nil
  refine ⟨helement, ?_, fun n p hp hm => ?_, ?_, ?_, ?_, hperm, fun hreport => ?_, ?_⟩
  · rw [helement, herase, Element.leaves_editedRoot]
  · have hun := unreached_of_above hp hm
    have := mem_parts_rewrite (Plan.ofAccepted tree.index tree.supply
      (Batch.settle tree.index targeted).accepted).2 hfits hp hun
    rw [← map_element_placesFrom 0 0 []] at this
    obtain ⟨q, hq, hqp⟩ := List.mem_map.1 this
    exact ⟨q, hq, hqp⟩
  · rw [helement, herase, Element.editedRoot]
    cases Batch.action? tree (targeted.map Targeted.edit) 0 with
    | none => exact ⟨_, rfl⟩
    | some a => exact a.kind_unit
  · change Plan.count _ = _
    rw [hcount, ← Batch.map_edit_settle_accepted hresolved hnodup, List.length_map]
  · change Plan.count _ + _ = _
    rw [hcount, List.length_map]
    exact Batch.length_settle hresolved hnodup
  · rw [if_pos hreport] at hperm
    refine ⟨?_, fun d hd => warning_of_mem_warnings (hperm.mem_iff.1 hd)⟩
    rw [hperm.length_eq, ← hwarnings.length_eq, List.length_map]
    rfl
  · simp only [outcome]
    split
    · exact Diagnostic.pairwise_sort _
    · exact .nil

/-- What a batch comes to, if the places of the tree have identities of their own. -/
theorem apply_of_nodup (newId : TreeId) (edits : List Edit)
    (hroot : tree.root = .node s .compilationUnit cs)
    (hnodup : (tree.root.places.map Place.identity).Nodup) :
    match edits.find? fun e => !tree.reaches e.handle with
    | some e => tree.apply config newId edits = .error (tree.staleness e.handle)
    | none => ∃ r, tree.apply config newId edits = .ok r ∧ tree.Applied config edits r := by
  have hbatch := resolve_batch tree edits
  cases hfind : edits.find? fun e => !tree.reaches e.handle with
  | some e =>
    have hne : edits ≠ [] := by
      rintro rfl
      cases hfind
    simp only [hfind] at hbatch
    rw [apply, if_neg (by simpa using hne)]
    simp only [hbatch, Except.map]
  | none =>
    simp only [hfind] at hbatch
    obtain ⟨targeted, hok, hresolved, rfl⟩ := hbatch
    by_cases hne : targeted.map Targeted.edit = []
    · rw [hne]
      exact ⟨_, rfl, .nil hroot⟩
    · exact ⟨_, apply_of_resolve newId hne hok, applied_outcome newId hroot hnodup hresolved⟩

end Outcome

/-! ## The tree of a source -/

theorem exists_root_ofElement (id : TreeId) (sourceId : String) (source : List Char)
    (limit : Option Nat) :
    ∃ s cs, (SyntaxTree.ofElement id sourceId (parse source limit).root).root =
      .node s .compilationUnit cs := by
  obtain ⟨children, -, hchildren, -⟩ := exists_parse source limit
  rw [hchildren]
  cases children with
  | nil => exact ⟨_, _, rfl⟩
  | cons e es => exact ⟨_, _, rfl⟩

theorem nodup_ofElement (id : TreeId) (sourceId : String) (source : List Char)
    (limit : Option Nat) :
    ((SyntaxTree.ofElement id sourceId (parse source limit).root).root.places.map
      Place.identity).Nodup :=
  nodup_identities (spaced_root source limit) 0

/-- What a batch comes to on the tree of a source. If a handle of the batch leads nowhere, the batch
fails and names the first such handle. Otherwise the edits are carried out of which none before has
the same target and none at all a target above. -/
theorem apply_parsed (config : RewriteConfig) (id newId : TreeId) (sourceId : String)
    (source : List Char) (limit : Option Nat) (edits : List Edit) :
    let tree := SyntaxTree.ofElement id sourceId (parse source limit).root
    match edits.find? fun e => !tree.reaches e.handle with
    | some e => tree.apply config newId edits = .error (tree.staleness e.handle)
    | none => ∃ r, tree.apply config newId edits = .ok r ∧ tree.Applied config edits r := by
  intro tree
  obtain ⟨s, cs, hroot⟩ := exists_root_ofElement id sourceId source limit
  exact apply_of_nodup newId edits hroot (nodup_ofElement id sourceId source limit)

end SyntaxTree

end RuleLang
