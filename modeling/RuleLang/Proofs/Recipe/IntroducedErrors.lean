import RuleLang.Recipe.Run
import Mathlib.Data.List.Count
import Mathlib.Data.List.Perm.Basic

/-!
# Introduced errors

A run blames a recipe for the errors that the text did not have before it. Errors are told apart by
code and message only, so the errors of a text are a multiset of such pairs, and what is introduced is
the difference of two of them: a message that was there twice and is there three times is reported
once. The known errors are used up one by one, and the list of them is reordered on the way.

## Main definitions

* `Diagnostic.errorKey` — what two reports of one error have in common.

## Main statements

* `cons_swapRemove_perm` — what a removal takes out, and that the rest stays.
* `introducedErrors_eq_difference` — the difference, in the order of the new text.
-/

namespace RuleLang

/-- What errors are told apart by. -/
def Diagnostic.errorKey (d : Diagnostic) : String × String := (d.code, d.message)

theorem Diagnostic.sameError_iff {a b : Diagnostic} :
    a.sameError b = true ↔ a.errorKey = b.errorKey := by
  simp [sameError, errorKey]

theorem cons_swapRemove_perm {l : List Diagnostic} {i : Nat} (h : i < l.length) :
    (l[i] :: swapRemove l i).Perm l := by
  obtain ⟨front, last, rfl⟩ : ∃ front last, l = front ++ [last] :=
    ⟨l.dropLast, l.getLast (by grind), (List.dropLast_append_getLast _).symm⟩
  rcases Nat.lt_or_ge i front.length with inside | atEnd
  · -- The last member comes in for the one that goes.
    have removed : swapRemove (front ++ [last]) i = front.set i last := by
      simp [swapRemove, List.set_append_left _ _ inside]
    rw [removed, List.getElem_append_left inside]
    calc (front[i] :: front.set i last).Perm (front[i] :: last :: front.eraseIdx i) :=
          (List.set_perm_cons_eraseIdx inside last).cons _
      _ |>.Perm (last :: front[i] :: front.eraseIdx i) := .swap ..
      _ |>.Perm (last :: front) := (List.getElem_cons_eraseIdx_perm inside).cons _
      _ |>.Perm (front ++ [last]) := (List.perm_append_singleton ..).symm
  · obtain rfl : i = front.length := by simp at h; omega
    have removed : swapRemove (front ++ [last]) front.length = front := by
      simp [swapRemove, List.set_append_right]
    rw [removed]
    simpa using (List.perm_append_singleton last front).symm

theorem sublist_introducedErrors (known after : List Diagnostic) :
    (introducedErrors known after).Sublist (after.filter Diagnostic.isError) := by
  induction after generalizing known with
  | nil => simp [introducedErrors]
  | cons d after ih =>
    simp only [introducedErrors, List.filter_cons]
    split <;> grind

/-- Using up a known error takes its key off once. -/
theorem count_map_swapRemove {l : List Diagnostic} {i : Nat} (h : i < l.length)
    (key : String × String) :
    (l.map Diagnostic.errorKey).count key =
      ((swapRemove l i).map Diagnostic.errorKey).count key +
        if l[i].errorKey = key then 1 else 0 := by
  have kept := ((cons_swapRemove_perm h).map Diagnostic.errorKey).count_eq key
  rw [← kept, List.map_cons, List.count_cons]
  simp only [beq_iff_eq]

theorem count_introducedErrors (known after : List Diagnostic) (key : String × String) :
    ((introducedErrors known after).map Diagnostic.errorKey).count key =
      ((after.filter Diagnostic.isError).map Diagnostic.errorKey).count key -
        (known.map Diagnostic.errorKey).count key := by
  induction after generalizing known with
  | nil => simp [introducedErrors]
  | cons d after ih =>
    by_cases error : d.isError = true
    swap
    · simpa [introducedErrors, error] using ih known
    cases seen : known.findIdx? d.sameError with
    | some i =>
      -- The old error is used up, so both counts lose it if it has this key.
      obtain ⟨inside, same, -⟩ := List.findIdx?_eq_some_iff_getElem.mp seen
      have account := count_map_swapRemove inside key
      rw [← Diagnostic.sameError_iff.mp same] at account
      simp only [introducedErrors, error, seen, Bool.not_true, Bool.false_eq_true, if_false,
        List.filter_cons_of_pos, List.map_cons, List.count_cons, beq_iff_eq, ih, account]
      omega
    | none =>
      have absent : (known.map Diagnostic.errorKey).count d.errorKey = 0 := by
        rw [List.count_eq_zero, List.mem_map]
        rintro ⟨k, isKnown, same⟩
        have differs := List.findIdx?_eq_none_iff.mp seen k isKnown
        rw [Diagnostic.sameError_iff.mpr same.symm] at differs
        exact Bool.noConfusion differs
      simp only [introducedErrors, error, seen, Bool.not_true, Bool.false_eq_true, if_false,
        List.filter_cons_of_pos, List.map_cons, List.count_cons, beq_iff_eq, ih]
      by_cases here : d.errorKey = key
      · subst here
        simp only [absent]
        omega
      · simp [here]

/-- What a step introduces are errors of the new text in their order, and of each pair of code and
message as many as the new text has more than the old one. -/
theorem introducedErrors_eq_difference (before after : List Diagnostic) :
    (introducedErrors before after).Sublist (after.filter Diagnostic.isError) ∧
      ∀ code message : String,
        (introducedErrors before after).countP (fun d => d.code == code && d.message == message) =
          (after.filter Diagnostic.isError).countP
              (fun d => d.code == code && d.message == message) -
            before.countP (fun d => d.code == code && d.message == message) := by
  refine ⟨sublist_introducedErrors before after, fun code message => ?_⟩
  have counts := count_introducedErrors before after (code, message)
  have keyed (l : List Diagnostic) :
      (l.map Diagnostic.errorKey).count (code, message) =
        l.countP (fun d => d.code == code && d.message == message) := by
    rw [List.count, List.countP_map]
    rfl
  rwa [keyed, keyed, keyed] at counts

end RuleLang
