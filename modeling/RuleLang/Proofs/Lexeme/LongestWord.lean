import RuleLang.Proofs.Lexeme.Boundary

/-!
# The longest keyword

A word goes on as far as its characters do, and across a hyphen if a keyword does. Which words are
keywords only a table knows, so what is read is told by that table: the longest keyword among the
words that hyphens join from the start of the text on, or the first word alone.

## Main definitions

* `OpensWord`, `OpensJoined` — a word, and words joined by hyphens, that open a text.
* `OpensKeyword` — a keyword that opens a text.
* `ReadsWord` — the word that is read at the start of a text.

## Main statements

* `OpensJoined.mem_joinedLengths`, `opensJoined_of_mem` — the lengths that are tried are those of
  joined words.
* `readsWord_wordLength` — a word is read as the longest keyword.
-/

namespace RuleLang.Lexeme

open Text

/-! ## Words at the start of a text -/

/-- A word and the text after it, which does not go on with the word. -/
structure OpensWord (w rest : List Char) : Prop where
  start : w.head?.any isWordStart = true
  part : ∀ c ∈ w, isWordPart c = true
  stop : rest.head?.any isWordPart = false

/-- Words joined by hyphens, each as long as it goes, and the text after the last. -/
inductive OpensJoined : List Char → List Char → Prop
  | word {w rest : List Char} (h : OpensWord w rest) : OpensJoined w rest
  | join {v w rest : List Char} (hv : OpensWord v ('-' :: (w ++ rest))) (hw : OpensJoined w rest) :
    OpensJoined (v ++ '-' :: w) rest

/-- A keyword, made of words joined by hyphens, that opens a text. -/
def OpensKeyword (w text : List Char) : Prop :=
  ∃ rest, text = w ++ rest ∧ OpensJoined w rest ∧ (Kind.ofKeyword? w).isSome = true

/-- The word that is read at the start of a text, with its kind and the text after it. -/
inductive ReadsWord : Kind → List Char → List Char → Prop
  | keyword {k : Kind} {w rest : List Char} (hk : Kind.ofKeyword? w = some k)
    (h : OpensJoined w rest) (longest : ∀ v, OpensKeyword v (w ++ rest) → v.length ≤ w.length) :
    ReadsWord k w rest
  | ident {w rest : List Char} (h : OpensWord w rest) (plain : ∀ v, ¬OpensKeyword v (w ++ rest)) :
    ReadsWord .ident w rest

/-! ## Lengths of joined words -/

variable {n m : Nat} {w rest text : List Char}

theorem OpensJoined.exists_head (h : OpensJoined w rest) :
    ∃ c v, w = c :: v ∧ isWordStart c = true := by
  have hstart {v : List Char} (h : v.head?.any isWordStart = true) :
      ∃ c u, v = c :: u ∧ isWordStart c = true := by
    cases v with
    | nil => cases h
    | cons c u => exact ⟨c, u, rfl, h⟩
  cases h with
  | word h => exact hstart h.start
  | join hv _ =>
    obtain ⟨c, u, rfl, hc⟩ := hstart hv.start
    exact ⟨c, _, rfl, hc⟩

theorem mem_joinedLengths_self (h : rest.head?.any isWordPart = false) :
    n ∈ joinedLengths n rest := by
  cases rest with
  | nil => exact List.mem_singleton_self n
  | cons c rest =>
    have hc : isWordPart c = false := h
    rw [joinedLengths, hc, if_neg Bool.false_ne_true]
    split <;> simp

/-- Joined words of letters are tried. -/
theorem OpensJoined.mem_joinedLengths (h : OpensJoined w rest)
    (hletters : ∀ c ∈ w, c = '-' ∨ isAlphabetic c = true) :
    n + w.length ∈ joinedLengths n (w ++ rest) := by
  induction h generalizing n with
  | word h =>
    rw [joinedLengths_append n _ h.part]
    exact mem_joinedLengths_self h.stop
  | @join v w rest hv hw ih =>
    obtain ⟨c, u, rfl, hc⟩ := hw.exists_head
    have hne : c ≠ '-' := by
      rintro rfl
      exact absurd hc (by decide)
    have hletter : isAlphabetic c = true := (hletters c (by simp)).resolve_left hne
    have hmem := ih (n := n + v.length + 1) fun d hd =>
      hletters d (List.mem_append_right _ (List.mem_cons_of_mem _ hd))
    rw [List.append_assoc, joinedLengths_append n _ hv.part, List.cons_append, joinedLengths,
      if_neg (by decide), if_pos (by simpa using hletter)]
    refine List.mem_cons_of_mem _ ?_
    have hlength : n + (v ++ '-' :: c :: u).length = n + v.length + 1 + (c :: u).length := by
      simp only [List.length_append, List.length_cons]
      omega
    rwa [hlength]

/-- What is tried are joined words. The word `w` is read up to the text. -/
theorem opensJoined_of_mem (hw : ∀ c ∈ w, isWordPart c = true)
    (hstart : (w ++ text).head?.any isWordStart = true) (h : m ∈ joinedLengths n text) :
    OpensJoined (w ++ text.take (m - n)) (text.drop (m - n)) := by
  induction text generalizing n w with
  | nil =>
    rw [List.append_nil] at hstart
    exact .word ⟨by simpa using hstart, by simpa using hw, by simp⟩
  | cons c rest ih =>
    rw [joinedLengths] at h
    by_cases hc : isWordPart c = true
    · rw [if_pos hc] at h
      have hle := (mem_joinedLengths_le h).1
      have hw' : ∀ d ∈ w ++ [c], isWordPart d = true := by
        simpa [or_imp, forall_and] using ⟨hw, hc⟩
      have hjoined := ih hw' (by simpa using hstart) h
      rwa [show m - n = (m - (n + 1)) + 1 by omega, List.take_succ_cons, List.drop_succ_cons,
        List.append_cons]
    · rw [if_neg hc] at h
      have hne : w ≠ [] := by
        rintro rfl
        exact hc (isWordPart_of_isWordStart hstart)
      rw [List.head?_append_of_ne_nil _ hne] at hstart
      have hword (hm : m = n) :
          OpensJoined (w ++ (c :: rest).take (m - n)) ((c :: rest).drop (m - n)) := by
        rw [hm, Nat.sub_self, List.take_zero, List.drop_zero, List.append_nil]
        exact .word ⟨hstart, hw, by simpa using hc⟩
      split at h
      · rename_i hdash
        obtain ⟨hdash, hletter⟩ := Bool.and_eq_true_iff.1 hdash
        rcases List.mem_cons.1 h with hm | h
        · exact hword hm
        · have hle := (mem_joinedLengths_le h).1
          have hrest : ([] ++ rest).head?.any isWordStart = true := by
            cases rest with
            | nil => cases hletter
            | cons d rest =>
              have hd : isAlphabetic d = true := hletter
              simp [isWordStart, hd]
          have hjoined := ih (w := []) (fun _ hd => absurd hd List.not_mem_nil) hrest h
          rw [List.nil_append] at hjoined
          rw [show m - n = (m - (n + 1)) + 1 by omega, List.take_succ_cons, List.drop_succ_cons,
            beq_iff_eq.1 hdash]
          exact .join ⟨hstart, hw, rfl⟩ hjoined
      · exact hword (List.mem_singleton.1 h)

/-- Lengths are tried in ascending order. -/
theorem pairwise_joinedLengths (n : Nat) (text : List Char) :
    (joinedLengths n text).Pairwise (· < ·) := by
  induction text generalizing n with
  | nil => exact List.pairwise_singleton _ _
  | cons c rest ih =>
    rw [joinedLengths]
    split
    · exact ih _
    · split
      · exact List.pairwise_cons.2 ⟨fun m hm => (mem_joinedLengths_le hm).1, ih _⟩
      · exact List.pairwise_singleton _ _

/-! ## Keywords -/

/-- Keywords are spelled with letters and hyphens. -/
theorem isAlphabetic_of_ofKeyword? {k : Kind} (h : Kind.ofKeyword? w = some k) :
    ∀ c ∈ w, c = '-' ∨ isAlphabetic c = true := by
  have htable : (Kind.keywordTable.all fun p => p.1.all fun c => c == '-' || isAlphabetic c) =
      true := by
    decide +kernel
  simp only [List.all_eq_true, Bool.or_eq_true, beq_iff_eq] at htable
  exact htable _ (mem_of_lookup h)

/-- The length of a keyword that opens a text is tried. -/
theorem OpensKeyword.mem_joinedLengths (h : OpensKeyword w text) :
    w.length ∈ joinedLengths 0 text ∧ text.take w.length = w := by
  obtain ⟨rest, rfl, hjoined, hk⟩ := h
  obtain ⟨k, hk⟩ := Option.isSome_iff_exists.1 hk
  have hmem := hjoined.mem_joinedLengths (n := 0) (isAlphabetic_of_ofKeyword? hk)
  rw [Nat.zero_add] at hmem
  exact ⟨hmem, List.take_left⟩

/-- The first of the tried lengths, from the end on, that gives a keyword is the longest. -/
theorem longest_of_findSome? {α : Type} {f : Nat → Option α} {lengths : List Nat} {a : α}
    (hsorted : lengths.Pairwise (· < ·)) (h : lengths.reverse.findSome? f = some a) :
    ∃ n ∈ lengths, f n = some a ∧ ∀ m ∈ lengths, f m ≠ none → m ≤ n := by
  obtain ⟨more, n, less, hsplit, hn, hmore⟩ := List.findSome?_eq_some_iff.1 h
  have hmem (m : Nat) : m ∈ lengths ↔ m ∈ more ++ n :: less := by
    rw [← hsplit, List.mem_reverse]
  refine ⟨n, (hmem n).2 (by simp), hn, fun m hm hf => ?_⟩
  have hdescending : (more ++ n :: less).Pairwise (fun a b => b < a) := by
    rw [← hsplit, List.pairwise_reverse]
    exact hsorted
  rcases List.mem_append.1 ((hmem m).1 hm) with hm | hm
  · exact absurd (hmore m hm) hf
  · rcases List.mem_cons.1 hm with rfl | hm
    · exact Nat.le_refl _
    · exact Nat.le_of_lt ((List.pairwise_cons.1 (List.pairwise_append.1 hdescending).2.1).1 m hm)

theorem opensWord_plain {c : Char} (hc : isWordStart c = true) :
    OpensWord ((c :: rest).take (plainWordLength (c :: rest)))
      ((c :: rest).drop (plainWordLength (c :: rest))) := by
  have htake : (c :: rest).take (plainWordLength (c :: rest)) = (c :: rest).takeWhile isWordPart :=
    (List.prefix_iff_eq_take.1 (List.takeWhile_prefix isWordPart)).symm
  refine ⟨?_, ?_, head_drop_takeWhile isWordPart _⟩
  · rw [htake, List.takeWhile_cons_of_pos (isWordPart_of_isWordStart hc)]
    exact hc
  · rw [htake]
    exact fun d hd => List.mem_takeWhile_imp hd

/-- A word is read as the longest keyword that opens the text, else as the first word alone. -/
theorem readsWord_wordLength {c : Char} (hc : isWordStart c = true) :
    ReadsWord (wordLength (c :: rest)).2 ((c :: rest).take (wordLength (c :: rest)).1)
      ((c :: rest).drop (wordLength (c :: rest)).1) := by
  unfold wordLength
  dsimp only
  cases h : (joinedLengths 0 (c :: rest)).reverse.findSome? fun n =>
      (Kind.ofKeyword? ((c :: rest).take n)).map fun k => (n, k) with
  | none =>
    refine .ident (opensWord_plain hc) fun v hv => ?_
    rw [List.take_append_drop] at hv
    obtain ⟨hmem, htake⟩ := hv.mem_joinedLengths
    have hnone := List.findSome?_eq_none_iff.1 h _ (List.mem_reverse.2 hmem)
    obtain ⟨_, -, -, hk⟩ := hv
    rw [htake, Option.map_eq_none_iff] at hnone
    simp [hnone] at hk
  | some found =>
    obtain ⟨n, hn, hfound, hlongest⟩ := longest_of_findSome? (pairwise_joinedLengths 0 _) h
    obtain ⟨k, hk, rfl⟩ := Option.map_eq_some_iff.1 hfound
    have hle : n ≤ (c :: rest).length := by
      have := (mem_joinedLengths_le hn).2
      omega
    have hjoined : OpensJoined ([] ++ (c :: rest).take (n - 0)) ((c :: rest).drop (n - 0)) :=
      opensJoined_of_mem (fun _ hd => absurd hd List.not_mem_nil) hc hn
    rw [Nat.sub_zero, List.nil_append] at hjoined
    refine .keyword hk hjoined fun v hv => ?_
    rw [Option.getD_some, List.take_append_drop] at hv
    obtain ⟨hmem, htake⟩ := hv.mem_joinedLengths
    obtain ⟨_, -, -, hv⟩ := hv
    obtain ⟨j, hj⟩ := Option.isSome_iff_exists.1 hv
    rw [Option.getD_some, List.length_take, Nat.min_eq_left hle]
    exact hlongest _ hmem (by simp [htake, hj])

end RuleLang.Lexeme
