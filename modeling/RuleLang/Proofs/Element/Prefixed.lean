import RuleLang.Element

/-!
# Trees with marked operators

An operator may be an identifier. The mark `##` in front of it tells that it is a custom one: the tree
of a source is compared here with the tree in which all custom operators bear the mark.

## Main definitions

* `Element.unmarkedAt?` — where among the children of an operator a mark is missing.
* `Element.unmarked` — the operators of a tree at which a mark is missing.
* `Element.prefixed` — the tree with a mark directly before each of the identifiers that lack it.

## Main statements

* `Element.unmarked_prefixed` — in the tree with marks none is missing.
* `Element.prefixed_of_unmarked` — a tree in which none is missing stays as it is.
-/

namespace RuleLang

/-- The mark of a custom operator. -/
def Leaf.mark : Leaf :=
  ⟨.hashHash, ['#', '#']⟩

/-- A node in which identifiers belong to another language, or to declarations only. -/
def Kind.hidesOperators : Kind → Bool
  | .thenClause | .functionDecl => true
  | _ => false

namespace Element

/-! ## The children of an operator -/

/-- The mark of a custom operator, as a token of a tree. -/
def mark : Element :=
  .token .hashHash ['#', '#']

def isMark (e : Element) : Bool :=
  !e.isNode && e.kind == .hashHash

/-- A token that names an operator: no trivia, no `not`, and no mark. -/
def namesOperator (e : Element) : Bool :=
  !e.isNode && !e.kind.isTrivia && e.kind != .notKw && e.kind != .hashHash

variable (custom : List Char → Bool)

/-- An identifier of a custom operator. -/
def isCustom : Element → Bool
  | .token k t => k == .ident && custom t
  | .node _ _ => false

/-- Where among the children of an operator a mark is missing: the operator bears none, and is named
by a custom identifier. -/
def unmarkedAt? (cs : List Element) : Option Nat :=
  if cs.any isMark then none
  else (cs.findIdx? namesOperator).filter fun n => cs[n]?.any (isCustom custom)

/-- The children of an operator with the mark that is missing. -/
def prefixedOperator (cs : List Element) : List Element :=
  match unmarkedAt? custom cs with
  | some n => cs.insertIdx n mark
  | none => cs

section

variable {custom} {pre post : List Element} {e : Element}

theorem namesOperator_of_isCustom (h : isCustom custom e = true) : e.namesOperator = true := by
  cases e with
  | token k t =>
    obtain ⟨hk, -⟩ := Bool.and_eq_true_iff.1 h
    rw [beq_iff_eq.1 hk]
    rfl
  | node k cs => cases h

theorem isMark_of_namesOperator (h : e.namesOperator = true) : e.isMark = false := by
  simp only [namesOperator, Bool.and_eq_true, bne_iff_ne] at h
  simp [isMark, h.2]

theorem findIdx?_namesOperator (hpre : ∀ e ∈ pre, e.namesOperator = false)
    (he : e.namesOperator = true) :
    (pre ++ e :: post).findIdx? namesOperator = some pre.length := by
  rw [List.findIdx?_append, List.findIdx?_eq_none_iff.2 hpre, List.findIdx?_cons, he]
  simp

/-- The first token that names an operator decides. -/
theorem unmarkedAt?_append (hpre : ∀ e ∈ pre, e.namesOperator = false)
    (he : e.namesOperator = true) : unmarkedAt? custom (pre ++ e :: post) =
      if (pre ++ e :: post).any isMark || !e.isCustom custom then none else some pre.length := by
  rw [unmarkedAt?, findIdx?_namesOperator hpre he]
  cases (pre ++ e :: post).any isMark <;> cases hc : e.isCustom custom <;> simp [Option.filter, hc]

theorem unmarkedAt?_of_any {cs : List Element} (h : cs.any isMark = true) :
    unmarkedAt? custom cs = none := by
  rw [unmarkedAt?, if_pos h]

/-- A mark is missing before the identifier that names the operator. -/
theorem exists_of_unmarkedAt? {cs : List Element} {n : Nat} (h : unmarkedAt? custom cs = some n) :
    ∃ pre e post, cs = pre ++ e :: post ∧ n = pre.length ∧ cs.any isMark = false ∧
      (∀ e ∈ pre, e.namesOperator = false) ∧ e.isCustom custom = true := by
  rw [unmarkedAt?] at h
  cases hmark : cs.any isMark with
  | true =>
    rw [hmark] at h
    cases h
  | false =>
    rw [hmark, if_neg (by simp), Option.filter_eq_some_iff] at h
    obtain ⟨hfind, hcustom⟩ := h
    obtain ⟨hn, hlast, hpre⟩ := List.findIdx?_eq_some_iff_getElem.1 hfind
    rw [List.getElem?_eq_getElem hn] at hcustom
    refine ⟨cs.take n, cs[n], cs.drop (n + 1), ?_, ?_, rfl, fun e he => ?_, hcustom⟩
    · rw [List.getElem_cons_drop, List.take_append_drop]
    · rw [List.length_take, Nat.min_eq_left (Nat.le_of_lt hn)]
    · obtain ⟨i, hi, rfl⟩ := List.getElem_of_mem he
      rw [List.length_take] at hi
      rw [List.getElem_take]
      simpa using hpre i (by omega)

theorem insertIdx_length (pre es : List Element) :
    (pre ++ es).insertIdx pre.length e = pre ++ e :: es := by
  induction pre with
  | nil => rfl
  | cons p pre ih => simpa using ih

theorem prefixedOperator_of_none {cs : List Element} (h : unmarkedAt? custom cs = none) :
    prefixedOperator custom cs = cs := by
  rw [prefixedOperator, h]

theorem prefixedOperator_append (hpre : ∀ e ∈ pre, e.namesOperator = false)
    (he : e.isCustom custom = true) (hmark : (pre ++ e :: post).any isMark = false) :
    prefixedOperator custom (pre ++ e :: post) = pre ++ mark :: e :: post := by
  have hat : unmarkedAt? custom (pre ++ e :: post) = some pre.length := by
    rw [unmarkedAt?_append hpre (namesOperator_of_isCustom he), hmark, he]
    rfl
  rw [prefixedOperator, hat]
  exact insertIdx_length pre (e :: post)

/-- With the mark that is missing, no mark is. -/
theorem unmarkedAt?_prefixedOperator (cs : List Element) :
    unmarkedAt? custom (prefixedOperator custom cs) = none := by
  cases h : unmarkedAt? custom cs with
  | none => rw [prefixedOperator_of_none h, h]
  | some n =>
    obtain ⟨pre, e, post, rfl, rfl, hmark, hpre, he⟩ := exists_of_unmarkedAt? h
    rw [prefixedOperator_append hpre he hmark]
    exact unmarkedAt?_of_any (by simp [mark, isMark, isNode, kind])

end

/-! ## The tree with marks -/

mutual

/-- An element with a mark directly before each identifier that lacks it. -/
def prefixed : Element → Element
  | .token k t => .token k t
  | .node k cs =>
    if k = .operator then .node k (prefixedOperator custom cs)
    else if k.hidesOperators then .node k cs
    else .node k (prefixedAll cs)

def prefixedAll : List Element → List Element
  | [] => []
  | e :: es => e.prefixed :: prefixedAll es

end

mutual

/-- The operators at which a mark is missing. -/
def unmarked : Element → List Element
  | .token _ _ => []
  | .node k cs =>
    if k = .operator then if (unmarkedAt? custom cs).isSome then [.node k cs] else []
    else if k.hidesOperators then []
    else unmarkedOf cs

def unmarkedOf : List Element → List Element
  | [] => []
  | e :: es => e.unmarked ++ unmarkedOf es

end

variable {custom}

@[simp] theorem prefixedAll_eq_map (es : List Element) :
    prefixedAll custom es = es.map (prefixed custom) := by
  induction es with
  | nil => rfl
  | cons e es ih => simp [prefixedAll, ih]

@[simp] theorem prefixed_token (k : Kind) (t : List Char) :
    prefixed custom (.token k t) = .token k t := by
  rw [prefixed]

theorem prefixed_operator (cs : List Element) :
    prefixed custom (.node .operator cs) = .node .operator (prefixedOperator custom cs) := by
  rw [prefixed, if_pos rfl]

/-- A node whose operators are left alone. -/
theorem prefixed_of_hides {k : Kind} (h : k.hidesOperators = true) (cs : List Element) :
    prefixed custom (.node k cs) = .node k cs := by
  have hne : k ≠ .operator := by
    rintro rfl
    cases h
  rw [prefixed, if_neg hne, if_pos h]

theorem prefixed_node {k : Kind} (hk : k ≠ .operator) (h : k.hidesOperators = false)
    (cs : List Element) :
    prefixed custom (.node k cs) = .node k (cs.map (prefixed custom)) := by
  rw [prefixed, if_neg hk, if_neg (by simp [h]), prefixedAll_eq_map]

mutual

/-- In the tree with marks none is missing. -/
theorem unmarked_prefixed : (e : Element) → unmarked custom (prefixed custom e) = []
  | .token k t => by
    rw [prefixed, unmarked]
  | .node k cs => by
    by_cases hk : k = .operator
    · rw [prefixed, if_pos hk, unmarked, if_pos hk, unmarkedAt?_prefixedOperator]
      rfl
    · cases h : k.hidesOperators with
      | true => rw [prefixed_of_hides h, unmarked, if_neg hk, if_pos h]
      | false =>
        rw [prefixed_node hk h, unmarked, if_neg hk, if_neg (by simp [h])]
        exact unmarkedOf_prefixed cs

theorem unmarkedOf_prefixed : (es : List Element) →
    unmarkedOf custom (es.map (prefixed custom)) = []
  | [] => rfl
  | e :: es => by
    rw [List.map_cons, unmarkedOf, unmarked_prefixed e, unmarkedOf_prefixed es]
    rfl

end

mutual

/-- A tree in which no mark is missing is the tree with marks. -/
theorem prefixed_of_unmarked : (e : Element) → unmarked custom e = [] → prefixed custom e = e
  | .token k t, _ => prefixed_token k t
  | .node k cs, h => by
    rw [unmarked] at h
    by_cases hk : k = .operator
    · subst hk
      rw [if_pos rfl] at h
      cases hat : unmarkedAt? custom cs with
      | none => rw [prefixed_operator, prefixedOperator_of_none hat]
      | some n =>
        rw [hat] at h
        cases h
    · cases hhides : k.hidesOperators with
      | true => exact prefixed_of_hides hhides cs
      | false =>
        rw [if_neg hk, hhides, if_neg Bool.false_ne_true] at h
        rw [prefixed_node hk hhides, map_prefixed_of_unmarked cs h]

theorem map_prefixed_of_unmarked : (es : List Element) → unmarkedOf custom es = [] →
    es.map (prefixed custom) = es
  | [], _ => rfl
  | e :: es, h => by
    rw [unmarkedOf, List.append_eq_nil_iff] at h
    rw [List.map_cons, prefixed_of_unmarked e h.1, map_prefixed_of_unmarked es h.2]

end

end Element

end RuleLang
