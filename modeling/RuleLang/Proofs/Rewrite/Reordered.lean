import RuleLang.Proofs.Rewrite.Outcome

/-!
# The order of a batch

The first edit of an element wins over the later ones of the same element. Beyond that the order of
a batch does not matter: two batches with the same edits, in the same order at each element, come to
the same.

## Main definitions

* `Batch.Reordered` — two batches have the same edits, in the same order at each handle.

## Main statements

* `Batch.perm_settle` — the same edits of both are carried out, and the others dropped.
* `SyntaxTree.apply_reordered` — what two such batches come to on the tree of a source.
-/

namespace RuleLang

open Stamped

namespace Batch

/-- The same edits, in the same order at each handle. -/
structure Reordered (edits edits' : List Edit) : Prop where
  perm : edits.Perm edits'
  turns : ∀ h : Handle, edits.filter (·.handle = h) = edits'.filter (·.handle = h)

/-- Lists that have the same items with each key, in the same order, have the same items. -/
theorem perm_of_filter_eq {α β : Type} [DecidableEq β] (key : α → β) {xs ys : List α}
    (h : ∀ k, xs.filter (key · = k) = ys.filter (key · = k)) : xs.Perm ys := by
  classical
  refine List.perm_iff_count.2 fun a => ?_
  have hcount (zs : List α) : zs.count a = (zs.filter (key · = key a)).count a :=
    (List.count_filter (by simp)).symm
  rw [hcount xs, hcount ys, h]

/-! ## First edits and repeated ones -/

/-- The handle of an edit with its place. -/
abbrev handleOf (t : Targeted) : Handle :=
  t.edit.handle

/-- At each handle that was not seen before the first edit is kept, and the others are repeated. -/
theorem filter_splitRepeated (h : Handle) (seen : List Handle) (targeted : List Targeted) :
    (splitRepeated seen targeted).1.filter (handleOf · = h) =
        (targeted.filter (handleOf · = h)).take (if h ∈ seen then 0 else 1) ∧
      (splitRepeated seen targeted).2.filter (handleOf · = h) =
        (targeted.filter (handleOf · = h)).drop (if h ∈ seen then 0 else 1) := by
  induction targeted generalizing seen with
  | nil => simp [splitRepeated]
  | cons t ts ih =>
    simp only [splitRepeated]
    split
    · rename_i hs
      have hs : handleOf t ∈ seen := by simpa using hs
      obtain ⟨hunique, hrepeated⟩ := ih seen
      by_cases ht : handleOf t = h
      · rw [ht] at hs
        simp_all
      · simp_all
    · rename_i hs
      have hs : handleOf t ∉ seen := by simpa using hs
      obtain ⟨hunique, hrepeated⟩ := ih (handleOf t :: seen)
      by_cases ht : handleOf t = h
      · rw [ht] at hs
        simp_all
      · have hiff : (h ∈ handleOf t :: seen) = (h ∈ seen) := by simp [Ne.symm ht]
        simp_all

theorem perm_splitRepeated {targeted targeted' : List Targeted}
    (h : ∀ h, targeted.filter (handleOf · = h) = targeted'.filter (handleOf · = h)) :
    (splitRepeated [] targeted).1.Perm (splitRepeated [] targeted').1 ∧
      (splitRepeated [] targeted).2.Perm (splitRepeated [] targeted').2 := by
  constructor
  · refine perm_of_filter_eq handleOf fun k => ?_
    rw [(filter_splitRepeated k [] targeted).1, (filter_splitRepeated k [] targeted').1, h k]
  · refine perm_of_filter_eq handleOf fun k => ?_
    rw [(filter_splitRepeated k [] targeted).2, (filter_splitRepeated k [] targeted').2, h k]

/-! ## Settling -/

/-- What lies inside a target does not depend on the order of the targets. -/
theorem isEnclosed_of_perm (index : TreeIndex) {targets targets' : List Handle}
    (h : targets.Perm targets') : isEnclosed index targets = isEnclosed index targets' := by
  have hcontains : targets.contains = targets'.contains := by
    funext k
    rw [Bool.eq_iff_iff, List.contains_iff_mem, List.contains_iff_mem, h.mem_iff]
  funext t
  simp only [isEnclosed, hcontains]

/-- The same edits are carried out, and the same edits dropped for the same reasons. -/
theorem perm_settle (index : TreeIndex) {targeted targeted' : List Targeted}
    (h : ∀ h, targeted.filter (handleOf · = h) = targeted'.filter (handleOf · = h)) :
    (settle index targeted).accepted.Perm (settle index targeted').accepted ∧
      (settle index targeted).dropped.Perm (settle index targeted').dropped := by
  obtain ⟨hunique, hrepeated⟩ := perm_splitRepeated h
  have henclosed := isEnclosed_of_perm index (hunique.map handleOf)
  simp only [settle, List.partition_eq_filter_filter]
  rw [← henclosed]
  exact ⟨hunique.filter _, (hrepeated.map _).append ((hunique.filter _).map _)⟩

/-! ## Edits of one tree -/

section Resolved

variable {tree : SyntaxTree} {targeted targeted' : List Targeted}

/-- The place of an edit is told by its handle. -/
theorem Resolved.eq_filterMap (h : Resolved tree targeted) :
    targeted = (targeted.map Targeted.edit).filterMap fun e =>
      tree.root.places[e.handle.index]?.map fun p => ⟨p, e⟩ := by
  induction targeted with
  | nil => rfl
  | cons t ts ih =>
    have hplace := (h t List.mem_cons_self).1
    rw [List.map_cons, List.filterMap_cons, hplace, Option.map_some]
    exact congrArg (List.cons t) (ih fun u hu => h u (List.mem_cons_of_mem t hu))

/-- Resolved edits are the edits of a handle in the order of the batch. -/
theorem Resolved.filter_eq (h : Resolved tree targeted) (h' : Resolved tree targeted') {k : Handle}
    (hturns : (targeted.map Targeted.edit).filter (·.handle = k) =
      (targeted'.map Targeted.edit).filter (·.handle = k)) :
    targeted.filter (handleOf · = k) = targeted'.filter (handleOf · = k) := by
  have hresolved {ts : List Targeted} (h : Resolved tree ts) :
      Resolved tree (ts.filter (handleOf · = k)) :=
    fun t ht => h t (List.mem_filter.1 ht).1
  rw [(hresolved h).eq_filterMap, (hresolved h').eq_filterMap]
  rw [List.filter_map, List.filter_map] at hturns
  exact congrArg _ hturns

/-- What is carried out at an element does not depend on the order of edits that have targets of
their own. -/
theorem find?_of_perm (hperm : targeted.Perm targeted') (hresolved : Resolved tree targeted)
    (hnodup : (targeted.map handleOf).Nodup) (n : Nat) :
    (targeted.find? fun t => t.edit.handle.index == n) =
      targeted'.find? fun t => t.edit.handle.index == n := by
  have hunique {t u : Targeted} (ht : t ∈ targeted) (hu : u ∈ targeted)
      (h : t.edit.handle.index = u.edit.handle.index) : t = u := by
    refine List.inj_on_of_nodup_map hnodup ht hu ?_
    rw [Handle.mk.injEq]
    exact ⟨(hresolved t ht).2.trans (hresolved u hu).2.symm, h⟩
  cases hfind : targeted.find? fun t => t.edit.handle.index == n with
  | none =>
    rw [List.find?_eq_none] at hfind
    exact (List.find?_eq_none.2 fun t ht => hfind t (hperm.mem_iff.2 ht)).symm
  | some t =>
    have ht := List.mem_of_find?_eq_some hfind
    have hindex : t.edit.handle.index = n := by simpa using List.find?_some hfind
    cases hfind' : targeted'.find? fun t => t.edit.handle.index == n with
    | none => exact absurd (List.find?_eq_none.1 hfind' t (hperm.mem_iff.1 ht)) (by simp [hindex])
    | some u =>
      have hu := hperm.mem_iff.2 (List.mem_of_find?_eq_some hfind')
      have hindex' : u.edit.handle.index = n := by simpa using List.find?_some hfind'
      rw [hunique ht hu (hindex.trans hindex'.symm)]

end Resolved

end Batch

/-! ## Outcomes -/

namespace SyntaxTree

/-- The outcomes of two batches of resolved edits that come in the same order at each handle. -/
theorem outcome_reordered (config : RewriteConfig) {tree : SyntaxTree} {s : Nat} {cs : List Stamped}
    (hroot : tree.root = .node s .compilationUnit cs)
    (hnodup : (tree.root.places.map Place.identity).Nodup) {targeted targeted' : List Targeted}
    (h : Batch.Resolved tree targeted) (h' : Batch.Resolved tree targeted')
    (hturns : ∀ k, targeted.filter (Batch.handleOf · = k) =
      targeted'.filter (Batch.handleOf · = k)) (newId newId' : TreeId) :
    let r := outcome config newId tree targeted
    let r' := outcome config newId' tree targeted'
    r.tree.element = r'.tree.element ∧ r.applied = r'.applied ∧ r.dropped = r'.dropped ∧
      r.diagnostics.Perm r'.diagnostics := by
  intro r r'
  obtain ⟨haccepted, hdropped⟩ := Batch.perm_settle tree.index hturns
  have happlied : tree.Applied config _ r := applied_outcome newId hroot hnodup h
  have happlied' : tree.Applied config _ r' := applied_outcome newId' hroot hnodup h'
  refine ⟨?_, ?_, hdropped.length_eq, ?_⟩
  · obtain ⟨hresolved, hhandles⟩ := h.accepted
    have haction : Batch.action? tree (targeted.map Targeted.edit) =
        Batch.action? tree (targeted'.map Targeted.edit) := by
      rw [Batch.action?_eq h hnodup, Batch.action?_eq h' hnodup]
      funext n
      rw [Batch.find?_of_perm haccepted hresolved hhandles n]
    rw [happlied.element, happlied'.element, haction]
  · rw [happlied.applied, happlied'.applied, ← Batch.map_edit_settle_accepted h hnodup,
      ← Batch.map_edit_settle_accepted h' hnodup, List.length_map, List.length_map,
      haccepted.length_eq]
  · have hwarnings := Batch.perm_warnings h hnodup
    have hwarnings' := Batch.perm_warnings h' hnodup
    have hsame := hwarnings.symm.trans ((hdropped.map _).trans hwarnings')
    have hdiagnostics := happlied.warnings
    have hdiagnostics' := happlied'.warnings
    cases hreport : config.reportConflicts with
    | false =>
      rw [hreport] at hdiagnostics hdiagnostics'
      exact hdiagnostics.trans hdiagnostics'.symm
    | true =>
      rw [hreport] at hdiagnostics hdiagnostics'
      exact hdiagnostics.trans (hsame.trans hdiagnostics'.symm)

/-- Sorted diagnostics that are the same but for their order have the same offsets one after
another. -/
theorem offsets_of_perm {ds ds' : List Diagnostic} (hperm : ds.Perm ds')
    (hsorted : ds.Pairwise fun a b => a.location.span.start ≤ b.location.span.start)
    (hsorted' : ds'.Pairwise fun a b => a.location.span.start ≤ b.location.span.start) :
    ds.map (·.location.span.start) = ds'.map (·.location.span.start) :=
  (hperm.map _).eq_of_pairwise (fun _ _ _ _ h h' => Nat.le_antisymm h h')
    (List.pairwise_map.2 hsorted) (List.pairwise_map.2 hsorted')

/-- Two batches of edits that lead to elements of the tree of a source, with the same edits in the
same order at each handle: both are carried out, with one and the same tree and text, the same
counts and the same warnings, which differ at most in their order at one offset. -/
theorem apply_reordered (config : RewriteConfig) (id newId newId' : TreeId) (sourceId : String)
    (source : List Char) (limit : Option Nat) {edits edits' : List Edit}
    (h : Batch.Reordered edits edits')
    (hvalid : ∀ e ∈ edits, (SyntaxTree.ofElement id sourceId (parse source limit).root).reaches
      e.handle = true) :
    let tree := SyntaxTree.ofElement id sourceId (parse source limit).root
    ∃ r r', tree.apply config newId edits = .ok r ∧ tree.apply config newId' edits' = .ok r' ∧
      r.tree.element = r'.tree.element ∧ r.text = r'.text ∧
      r.applied = r'.applied ∧ r.dropped = r'.dropped ∧
      r.diagnostics.Perm r'.diagnostics ∧
      r.diagnostics.map (·.location.span.start) = r'.diagnostics.map (·.location.span.start) := by
  intro tree
  obtain ⟨s, cs, hroot⟩ := exists_root_ofElement id sourceId source limit
  have hnodup := nodup_ofElement id sourceId source limit
  have hresolve {es : List Edit} (hes : ∀ e ∈ es, tree.reaches e.handle = true) :
      ∃ targeted, Batch.resolve tree.index es = .ok targeted ∧ Batch.Resolved tree targeted ∧
        targeted.map Targeted.edit = es := by
    have hbatch := resolve_batch tree es
    rwa [List.find?_eq_none.2 fun e he => by simp [hes e he]] at hbatch
  obtain ⟨targeted, hok, hresolved, rfl⟩ := hresolve hvalid
  obtain ⟨targeted', hok', hresolved', rfl⟩ :=
    hresolve fun e he => hvalid e (h.perm.mem_iff.2 he)
  by_cases hne : targeted.map Targeted.edit = []
  · rw [hne] at h ⊢
    rw [h.perm.nil_eq.symm]
    exact ⟨_, _, rfl, rfl, rfl, rfl, rfl, rfl, .refl _, rfl⟩
  have hne' : targeted'.map Targeted.edit ≠ [] := fun hnil => hne (hnil ▸ h.perm).eq_nil
  obtain ⟨helement, happlied, hdropped, hwarnings⟩ :=
    outcome_reordered config hroot hnodup hresolved hresolved'
      (fun k => hresolved.filter_eq hresolved' (h.turns k)) newId newId'
  refine ⟨_, _, apply_of_resolve newId hne hok, apply_of_resolve newId' hne' hok', helement,
    congrArg Element.text helement, happlied, hdropped, hwarnings, ?_⟩
  exact offsets_of_perm hwarnings (applied_outcome newId hroot hnodup hresolved).sorted
    (applied_outcome newId' hroot hnodup hresolved').sorted

/-- A pattern is replaced, whether the edit inside it and the second edit of the pattern come in the
one order or in the other. -/
theorem apply_reordered_enclosed :
    let tree := SyntaxTree.ofElement 0 "a.drl"
      (parse "rule R when A(x == 1) then end".toList).root
    let pattern : Edit := ⟨⟨0, 10⟩, .replace (.token .ident "B()".toList)⟩
    let again : Edit := ⟨⟨0, 10⟩, .delete⟩
    let inside : Edit := ⟨⟨0, 15⟩, .delete⟩
    ∃ r r', tree.apply {} 1 [inside, pattern, again] = .ok r ∧
      tree.apply {} 1 [pattern, again, inside] = .ok r' ∧
      r.text = "rule R when B() then end".toList ∧ r'.text = r.text ∧
      r.dropped = 2 ∧ r'.dropped = 2 ∧ r.diagnostics.Perm r'.diagnostics := by
  intro tree pattern again inside
  have hreordered : Batch.Reordered [inside, pattern, again] [pattern, again, inside] := by
    refine ⟨@List.perm_append_comm _ [inside] [pattern, again], fun h => ?_⟩
    by_cases hin : inside.handle = h
    · subst hin
      rfl
    · have hnone : [inside].filter (·.handle = h) = [] := by simp [hin]
      rw [← List.singleton_append, List.filter_append, hnone, List.nil_append,
        show [pattern, again, inside] = [pattern, again] ++ [inside] from rfl,
        List.filter_append, hnone, List.append_nil]
  obtain ⟨r, r', hok, hok', -, htext, -, hdropped, hdiagnostics, -⟩ :=
    apply_reordered {} 0 1 1 "a.drl" "rule R when A(x == 1) then end".toList none hreordered
      (by decide +kernel)
  have houtcome : (tree.apply {} 1 [inside, pattern, again]).map
      (fun r => (r.text, r.dropped)) = .ok ("rule R when B() then end".toList, 2) := by
    decide +kernel
  rw [hok, Except.map, Except.ok.injEq, Prod.mk.injEq] at houtcome
  exact ⟨r, r', hok, hok', houtcome.1, htext.symm, houtcome.2, hdropped ▸ houtcome.2,
    hdiagnostics⟩

end SyntaxTree

end RuleLang
