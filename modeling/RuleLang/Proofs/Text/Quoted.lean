import Mathlib.Tactic.SplitIfs
import RuleLang.Text.Blank
import RuleLang.Text.Quoted
import RuleLang.Toml.Text

/-!
# Quoted text can be read back

Each escape says what it stands for and where it ends, and no escape starts with a double quote: so
a quoted text shows where it ends and what it quotes. All that is written is printable.

## Main definitions

* `Text.unescape?` — reads one character of a quoted text.

## Main statements

* `Text.unescape?_escapeChar` — every character is read back.
* `Text.quote_injective` — two texts with the same quoted form are the same.
* `Text.isPrintable_of_mem_quote` — a quoted text has only printable characters.
-/

namespace RuleLang.Text

/-! ## Printable characters -/

theorem isPrintable_of_isAlphanum {c : Char} (h : c.isAlphanum = true) : isPrintable c = true := by
  have hbounds : 0x20 ≤ c.toNat ∧ c.toNat < 0x7f := by
    change ((decide (c.val ≥ 65 ∧ c.val ≤ 90) ||
      decide (c.val ≥ 97) && decide (c.val ≤ 122)) ||
      decide (c.val ≥ 48) && decide (c.val ≤ 57)) = true at h
    simp only [Bool.or_eq_true, Bool.and_eq_true, decide_eq_true_eq, ge_iff_le,
      UInt32.le_iff_toNat_le, UInt32.reduceToNat, Char.toNat_val] at h
    omega
  rw [isPrintable, if_pos (by omega)]
  simp [hbounds]

theorem isLineBreak_of_isPrintable {c : Char} (h : isPrintable c = true) :
    isLineBreak c = false := by
  rw [isLineBreak, Bool.or_eq_false_iff, beq_eq_false_iff_ne, beq_eq_false_iff_ne]
  constructor
  all_goals
    rintro rfl
    revert h
    decide

/-! ## Hexadecimal digits -/

theorem hexDigits_eq_if (n : Nat) :
    hexDigits n = if n < 16 then [n.digitChar] else hexDigits (n / 16) ++ [(n % 16).digitChar] :=
  Nat.toDigits_eq_if (by decide)

theorem hexDigit?_digitChar : ∀ n < 16, Toml.hexDigit? n.digitChar = some n := by
  decide

theorem foldlM_hexDigits (n : Nat) :
    (hexDigits n).foldlM (fun n c => (Toml.hexDigit? c).map fun d => 16 * n + d) 0 = some n := by
  induction n using Nat.strongRecOn with
  | ind n ih =>
    rw [hexDigits_eq_if]
    split
    next hn => simp [hexDigit?_digitChar n hn]
    next hn =>
      have hdigit := hexDigit?_digitChar (n % 16) (by omega)
      rw [List.foldlM_append, ih (n / 16) (by omega)]
      simp only [Option.bind_eq_bind, Option.bind_some, List.foldlM_cons, List.foldlM_nil, hdigit,
        Option.map_some, Option.pure_def, Option.some.injEq]
      omega

theorem charOfHex?_hexDigits (c : Char) : Toml.charOfHex? (hexDigits c.toNat) = some c := by
  have hvalid : c.toNat.isValidChar := c.valid
  rw [Toml.charOfHex?, foldlM_hexDigits, Option.bind_some, if_pos hvalid, Char.ofNat_toNat]

theorem exists_of_mem_hexDigits {n : Nat} {d : Char} (h : d ∈ hexDigits n) :
    ∃ k < 16, d = k.digitChar := by
  induction n using Nat.strongRecOn with
  | ind n ih =>
    rw [hexDigits_eq_if] at h
    split at h
    next hn => exact ⟨n, hn, List.mem_singleton.1 h⟩
    next hn =>
      rcases List.mem_append.1 h with h | h
      · exact ih (n / 16) (by omega) h
      · exact ⟨n % 16, by omega, List.mem_singleton.1 h⟩

theorem digitChar_hex : ∀ k < 16, k.digitChar ≠ '\x7d' ∧ isPrintable k.digitChar = true := by
  decide

/-! ## One character -/

/-- Reads one character between double quotes. -/
def unescape? : List Char → Option (Char × List Char)
  | '\\' :: '"' :: cs => some ('"', cs)
  | '\\' :: '\\' :: cs => some ('\\', cs)
  | '\\' :: 'n' :: cs => some ('\n', cs)
  | '\\' :: 'r' :: cs => some ('\r', cs)
  | '\\' :: 't' :: cs => some ('\t', cs)
  | '\\' :: '0' :: cs => some ('\x00', cs)
  | '\\' :: 'u' :: '\x7b' :: cs =>
    (Toml.charOfHex? (cs.takeWhile (· != '\x7d'))).map fun c =>
      (c, (cs.dropWhile (· != '\x7d')).tail)
  | '\\' :: _ => none
  | '"' :: _ => none
  | c :: cs => some (c, cs)
  | [] => none

theorem unescape?_code (c : Char) (rest : List Char) :
    unescape? (['\\', 'u', '\x7b'] ++ hexDigits c.toNat ++ ['\x7d'] ++ rest) = some (c, rest) := by
  have hdigits : ∀ d ∈ hexDigits c.toNat, (d != '\x7d') = true := by
    intro d hd
    obtain ⟨k, hk, rfl⟩ := exists_of_mem_hexDigits hd
    exact bne_iff_ne.2 (digitChar_hex k hk).1
  simp only [List.cons_append, List.nil_append, List.append_assoc, unescape?,
    List.takeWhile_append_of_pos hdigits, List.dropWhile_append_of_pos hdigits]
  simp [charOfHex?_hexDigits]

/-- Every character is read back. -/
theorem unescape?_escapeChar (c : Char) (rest : List Char) :
    unescape? (escapeChar c ++ rest) = some (c, rest) := by
  unfold escapeChar
  split_ifs with hquote hslash hn hr ht hzero hprintable
  · rw [hquote]; rfl
  · rw [hslash]; rfl
  · rw [hn]; rfl
  · rw [hr]; rfl
  · rw [ht]; rfl
  · rw [hzero]; rfl
  · simp [unescape?, hslash]
  · exact unescape?_code c rest

theorem isPrintable_of_mem_escapeChar (c : Char) : ∀ d ∈ escapeChar c, isPrintable d = true := by
  unfold escapeChar
  split_ifs with _ _ _ _ _ _ hprintable
  iterate 6 exact List.all_eq_true.1 rfl
  · exact List.forall_mem_singleton.2 hprintable
  · have hdigits : ∀ d ∈ hexDigits c.toNat, isPrintable d = true := by
      intro d hd
      obtain ⟨k, hk, rfl⟩ := exists_of_mem_hexDigits hd
      exact (digitChar_hex k hk).2
    exact List.forall_mem_append.2 ⟨List.forall_mem_append.2 ⟨List.all_eq_true.1 rfl, hdigits⟩,
      List.all_eq_true.1 rfl⟩

/-! ## Quoted text -/

/-- The closing quote is the first one that no escape has taken. -/
theorem flatMap_escapeChar_inj {xs ys r s : List Char}
    (h : xs.flatMap escapeChar ++ '"' :: r = ys.flatMap escapeChar ++ '"' :: s) :
    xs = ys ∧ r = s := by
  induction xs generalizing ys with
  | nil =>
    cases ys with
    | nil => simpa using h
    | cons d ys =>
      have hread := congrArg unescape? h
      rw [List.flatMap_cons, List.append_assoc, unescape?_escapeChar] at hread
      exact absurd hread.symm (Option.some_ne_none _)
  | cons c xs ih =>
    have hread := congrArg unescape? h
    rw [List.flatMap_cons, List.append_assoc, unescape?_escapeChar] at hread
    cases ys with
    | nil => exact absurd hread (Option.some_ne_none _)
    | cons d ys =>
      rw [List.flatMap_cons, List.append_assoc, unescape?_escapeChar, Option.some.injEq,
        Prod.mk.injEq] at hread
      obtain ⟨rfl, hrest⟩ := hread
      obtain ⟨rfl, rfl⟩ := ih hrest
      exact ⟨rfl, rfl⟩

theorem quote_injective : Function.Injective quote := by
  intro xs ys h
  exact (flatMap_escapeChar_inj (List.cons.inj h).2).1

theorem isPrintable_of_mem_quote (text : List Char) : ∀ c ∈ quote text, isPrintable c = true := by
  have hescaped : ∀ c ∈ text.flatMap escapeChar, isPrintable c = true :=
    List.forall_mem_flatMap.2 fun c _ => isPrintable_of_mem_escapeChar c
  exact List.forall_mem_cons.2 ⟨rfl, List.forall_mem_append.2 ⟨hescaped, List.all_eq_true.1 rfl⟩⟩

end RuleLang.Text
