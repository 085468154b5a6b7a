/-!
# Character ranges

Sets of characters given as ascending, disjoint ranges of code points.

## Main definitions

* `CharRange` — the first and the last code point of a range.
* `inRanges` — membership in a list of ranges.
-/

namespace RuleLang.Text

/-- First and last code point, both included. -/
abbrev CharRange := Nat × Nat

/-- Membership in ranges that ascend: the search stops at the first range that lies above. -/
def inRanges : List CharRange → Char → Bool
  | [], _ => false
  | (first, last) :: ranges, c =>
    if c.toNat < first then false
    else if c.toNat ≤ last then true
    else inRanges ranges c

end RuleLang.Text
