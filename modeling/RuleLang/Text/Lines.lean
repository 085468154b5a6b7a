import RuleLang.Text.Blank

/-!
# Lines

Cutting a text after its line ends. A line keeps its end, so the lines put together are the text.

## Main definitions

* `linesBy` — the lines of a text, for a choice of the characters that end a line.
* `lines` — the lines by the line breaks.
-/

namespace RuleLang.Text

/-- The lines of a text. A carriage return and the line feed after it are one end; after the last end
there is no empty line. -/
def linesBy (isEnd : Char → Bool) : List Char → List (List Char)
  | [] => []
  | c :: cs =>
    if isEnd c && !(c == '\r' && cs.head? == some '\n') then [c] :: linesBy isEnd cs
    else
      match linesBy isEnd cs with
      | [] => [[c]]
      | line :: lines => (c :: line) :: lines

@[simp] theorem flatten_linesBy (isEnd : Char → Bool) (cs : List Char) :
    (linesBy isEnd cs).flatten = cs := by
  induction cs with
  | nil => rfl
  | cons c cs ih =>
    simp only [linesBy]
    split
    · simp [ih]
    · split
      · next h => simpa [h, eq_comm] using ih
      · next h => simpa [h] using ih

theorem ne_nil_of_mem_linesBy {isEnd : Char → Bool} {cs line : List Char}
    (h : line ∈ linesBy isEnd cs) : line ≠ [] := by
  induction cs generalizing line with
  | nil => simp [linesBy] at h
  | cons c cs ih =>
    simp only [linesBy] at h
    split at h
    · rcases List.mem_cons.1 h with rfl | h
      · simp
      · exact ih h
    · split at h
      · simp_all
      · next first rest e =>
        rcases List.mem_cons.1 h with rfl | h
        · simp
        · exact ih (e ▸ List.mem_cons_of_mem _ h)

def lines (cs : List Char) : List (List Char) :=
  linesBy isLineBreak cs

end RuleLang.Text
