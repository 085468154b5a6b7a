import Mathlib.Data.List.Sort
import RuleLang.Diagnostic

/-!
# The order of diagnostics

Diagnostics are sorted by the offset at which they stand, and those that are in order already stay
as they are, whatever stands between them.

## Main definitions

* `Diagnostic.notAfter` — the order by offset.

## Main statements

* `Diagnostic.pairwise_sort` — diagnostics come by offset.
* `Diagnostic.filter_sort` — what was in order keeps its order.
-/

namespace RuleLang.Diagnostic

/-- A diagnostic does not stand after another one. -/
def notAfter (d e : Diagnostic) : Bool :=
  d.location.span.start ≤ e.location.span.start

theorem notAfter_iff {d e : Diagnostic} :
    d.notAfter e = true ↔ d.location.span.start ≤ e.location.span.start := decide_eq_true_iff

theorem notAfter_trans (a b c : Diagnostic) (hab : a.notAfter b = true) (hbc : b.notAfter c = true) :
    a.notAfter c = true :=
  notAfter_iff.2 (Nat.le_trans (notAfter_iff.1 hab) (notAfter_iff.1 hbc))

theorem notAfter_total (a b : Diagnostic) : (a.notAfter b || b.notAfter a) = true := by
  rw [Bool.or_eq_true, notAfter_iff, notAfter_iff]
  exact Nat.le_total _ _

theorem pairwise_sort (ds : List Diagnostic) :
    (sort ds).Pairwise fun d e => d.location.span.start ≤ e.location.span.start :=
  (List.pairwise_mergeSort notAfter_trans notAfter_total ds).imp notAfter_iff.1

/-- Diagnostics that are in order among themselves keep their order. -/
theorem filter_sort {p : Diagnostic → Bool} {ds : List Diagnostic}
    (h : (ds.filter p).Pairwise fun d e => d.location.span.start ≤ e.location.span.start) :
    (sort ds).filter p = ds.filter p := by
  have hsublist : (ds.filter p).Sublist (sort ds) :=
    List.sublist_mergeSort notAfter_trans notAfter_total (h.imp notAfter_iff.2) List.filter_sublist
  have hfiltered : (ds.filter p).Sublist ((sort ds).filter p) := by
    simpa using hsublist.filter p
  have hperm : ((sort ds).filter p).Perm (ds.filter p) := (List.mergeSort_perm ds _).filter p
  exact (hfiltered.eq_of_length hperm.length_eq.symm).symm

end RuleLang.Diagnostic
