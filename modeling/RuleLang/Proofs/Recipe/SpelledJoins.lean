import RuleLang.Proofs.Parser.Changed

/-!
# Joins spelled as words

The tree of a source with `and` and `or` in the place of the symbols that join its conditions, and
that its tokens are parsed as this tree.

## Main definitions

* `Element.spelled` — the tree with words for the symbols that join conditions.
* `Token.Respelled` — a token that is the same, or the word for a symbol.

## Main statements

* `parseTokens_spelled` — the tokens of the tree with words are parsed as that tree.
-/

namespace RuleLang

open Grammar Ahead

/-! ## The tree with words -/

/-- A symbol that joins the conditions right below a node. -/
def Kind.joinsIn (parent k : Kind) : Bool :=
  parent == .lhsAnd && k == .ampAmp || parent == .lhsOr && k == .pipePipe

/-- A node in which symbols belong to expressions or to another language. -/
def Kind.hidesJoins : Kind → Bool
  | .pattern | .lhsEval | .thenClause => true
  | _ => false

/-- The word for a symbol. -/
def Leaf.word (k : Kind) : Leaf :=
  ⟨k.joinWord, (k.joinWord.spelling?.getD "").toList⟩

/-- A leaf right below a node, with the word for a symbol that joins conditions. -/
def Leaf.spelled (parent : Kind) (l : Leaf) : Leaf :=
  if parent.joinsIn l.kind then .word l.kind else l

def Element.ofLeaf (l : Leaf) : Element :=
  .token l.kind l.text

mutual

/-- An element below a node, with words for the symbols that join conditions in it. -/
def Element.spelled (parent : Kind) : Element → Element
  | .token k t => .ofLeaf (Leaf.spelled parent ⟨k, t⟩)
  | .node k cs => .node k (if k.hidesJoins then cs else Element.spelledAll k cs)

def Element.spelledAll (parent : Kind) : List Element → List Element
  | [] => []
  | e :: es => e.spelled parent :: Element.spelledAll parent es

end

namespace Element

@[simp] theorem spelledAll_eq_map (parent : Kind) (es : List Element) :
    spelledAll parent es = es.map (spelled parent) := by
  induction es with
  | nil => rfl
  | cons e es ih => simp [spelledAll, ih]

theorem spelled_node (parent k : Kind) (cs : List Element) :
    spelled parent (.node k cs) =
      .node k (if k.hidesJoins then cs else cs.map (spelled k)) := by
  rw [spelled, spelledAll_eq_map]

end Element

theorem Leaf.spelled_of_not {parent : Kind} {l : Leaf} (h : parent.joinsIn l.kind = false) :
    l.spelled parent = l := by
  simp [Leaf.spelled, h]

/-! ## Tokens -/

/-- The same leaf, or the word for a symbol. -/
def Leaf.Respelled (l l' : Leaf) : Prop :=
  l' = l ∨ (l.kind = .ampAmp ∨ l.kind = .pipePipe) ∧ l' = .word l.kind

theorem Leaf.respelled_spelled (l : Leaf) (parent : Kind) : l.Respelled (l.spelled parent) := by
  cases hj : parent.joinsIn l.kind with
  | false => exact .inl (Leaf.spelled_of_not hj)
  | true =>
    have hk : l.kind = .ampAmp ∨ l.kind = .pipePipe := by
      simp only [Kind.joinsIn, Bool.or_eq_true, Bool.and_eq_true, beq_iff_eq] at hj
      exact hj.imp And.right And.right
    exact .inr ⟨hk, by simp [Leaf.spelled, hj]⟩

/-- The same token, or the word for a symbol. -/
def Token.Respelled (t t' : Token) : Prop :=
  t.leaf.Respelled t'.leaf

namespace Token.Respelled

theorem same {t t' : Token} (h : Respelled t t') :
    t'.leaf = t.leaf ∨ t.kind.isJoin = true ∧ Kind.Same t.kind t'.kind := by
  rcases h with h | ⟨hk, h⟩
  · exact .inl h
  · change t.kind = .ampAmp ∨ t.kind = .pipePipe at hk
    have hkind : t'.kind = t.kind.joinWord := congrArg Leaf.kind h
    rcases hk with hk | hk <;> rw [hkind, hk] <;> exact .inr ⟨rfl, .inr ⟨rfl, rfl⟩⟩

theorem isTrivia_eq {t t' : Token} (h : Respelled t t') : t'.isTrivia = t.isTrivia := by
  rcases h.same with h | ⟨hj, hs⟩
  · exact isTrivia_eq_of_leaf_eq h
  · rw [Token.isTrivia, Token.isTrivia, Kind.isTrivia_of_isJoin hj,
      Kind.isTrivia_of_isJoin (hs.isJoin.trans hj)]

theorem isEof_eq {t t' : Token} (h : Respelled t t') :
    (t'.kind == .eof) = (t.kind == .eof) := by
  rcases h.same with h | ⟨hj, hs⟩
  · rw [kind_eq_of_leaf_eq h]
  · rw [beq_eq_false_of_isJoin hj rfl, beq_eq_false_of_isJoin (hs.isJoin.trans hj) rfl]

theorem of_spelled {parent : Kind} {t t' : Token} (h : t'.leaf = t.leaf.spelled parent) :
    Respelled t t' := by
  rw [Respelled, h]
  exact t.leaf.respelled_spelled parent

end Token.Respelled

/-- Token lists that differ only in how joins are spelled. -/
abbrev Respelled (a b : Ahead) : Prop :=
  List.Forall₂ Token.Respelled a b

theorem respelled_of_leaves (parent : Kind) {ts us : List Token}
    (h : us.map Token.leaf = ts.map fun t => t.leaf.spelled parent) : Respelled ts us := by
  induction ts generalizing us with
  | nil =>
    obtain rfl : us = [] := by simpa using h
    exact .nil
  | cons t ts ih =>
    cases us with
    | nil => simp at h
    | cons u us =>
      obtain ⟨hu, h⟩ := List.cons.inj h
      exact .cons (.of_spelled hu) (ih h)

theorem respelled_of_leaf_eq {ts us : List Token} (h : ts.map Token.leaf = us.map Token.leaf) :
    Respelled ts us := by
  refine respelled_of_leaves .error (h.symm.trans (List.map_congr_left fun t _ => ?_))
  exact (Leaf.spelled_of_not rfl).symm

theorem Respelled.agree {a b : Ahead} (h : Respelled a b) : Agree a b := by
  induction h with
  | nil => exact .nil
  | cons ht _ ih =>
    rcases ht.same with ht | ⟨hj, hs⟩
    · exact .cons ht.symm ih
    · exact .join hj hs

theorem Respelled.bumpLength_eq {a b : Ahead} (h : Respelled a b) (n : Nat) :
    bumpLength n b = bumpLength n a := by
  induction h generalizing n with
  | nil => rfl
  | cons ht _ ih =>
    cases n with
    | zero => rfl
    | succ n => simp only [bumpLength, ht.isTrivia_eq, ht.isEof_eq, ih]

/-! ## The change -/

/-- Nodes are kept where symbols do not join conditions. -/
def joinsKept : Correspondence where
  image := id
  special _ := false
  Related := Respelled
  agree := Respelled.agree
  append h hab := List.rel_append (respelled_of_leaf_eq h) hab
  special_isSensitive := nofun
  image_token _ _ := rfl
  image_node k cs _ := by rw [List.map_id]; rfl

theorem Element.spelled_eq_of_not_join {parent : Kind} (hand : (parent == .lhsAnd) = false)
    (hor : (parent == .lhsOr) = false) : spelled parent = spelled .compilationUnit := by
  funext e
  cases e with
  | token k t =>
    have hj : parent.joinsIn k = false := by simp [Kind.joinsIn, hand, hor]
    rw [spelled, spelled, Leaf.spelled_of_not hj, Leaf.spelled_of_not rfl]
  | node k cs => rw [spelled, spelled]

/-- Symbols that join conditions become words. -/
def joinsSpelled : Correspondence where
  image := Element.spelled .compilationUnit
  special k := k == .lhsAnd || k == .lhsOr || k.hidesJoins
  Related := Respelled
  agree := Respelled.agree
  append h hab := List.rel_append (respelled_of_leaf_eq h) hab
  special_isSensitive k hk := by
    simp only [Bool.or_eq_true, beq_iff_eq] at hk
    rcases hk with (rfl | rfl) | hk
    · rfl
    · rfl
    · cases k <;> first | rfl | cases hk
  image_token k t := by
    rw [Element.spelled, Leaf.spelled_of_not rfl]
    rfl
  image_node k cs hk := by
    simp only [Bool.or_eq_false_iff] at hk
    rw [Element.spelled_node, hk.2, Element.spelled_eq_of_not_join hk.1.1 hk.1.2]
    rfl

theorem fits_spelled (parent : Kind) : joinsSpelled.Fits (Element.spelled parent) where
  trivia k t hk := by
    have hj : parent.joinsIn k = false := by
      cases k <;> first | (cases hk; done) | simp [Kind.joinsIn]
    rw [Element.spelled, Leaf.spelled_of_not hj]
    rfl
  node k cs := by
    change _ = Element.spelled .compilationUnit _
    rw [Element.spelled_node, Element.spelled_node]

/-- A joining token is taken as the word for it. -/
theorem carried_bump {enters : Production → Point → Point → Prop} (parent : Kind) :
    Carried joinsSpelled enters (Element.spelled parent) bump := by
  rintro x y ⟨ts, hlen, hahead, hgroup⟩
  refine ⟨ts.map fun t => t.leaf.spelled parent, fun us b hu hb => ?_⟩
  have hts := respelled_of_leaves parent hu
  have hab : Respelled x.ahead (us ++ b) := hahead ▸ List.rel_append hts hb
  refine ⟨hab, 0, us, ?_, rfl, ?_⟩
  · rw [hab.bumpLength_eq, ← hlen, hts.length_eq]
  · have hmap : us.map Element.ofToken =
        (ts.map Element.ofToken).map (Element.spelled parent) := by
      have hof : Element.ofToken = Element.ofLeaf ∘ Token.leaf := rfl
      rw [hof, ← List.map_map, hu, List.map_map, List.map_map]
      rfl
    simp only [hgroup, List.map_append, List.map_reverse, hmap]

/-- What is known of the productions nested at most `n` deep. -/
structure JoinsCarried (n : Nat) : Prop where
  all : AllCarried joinsSpelled (Enters Production.body n)
  andRest : Carried joinsSpelled (Enters Production.body n) (Element.spelled .lhsAnd)
    (.call .lhsAndRest)
  orRest : Carried joinsSpelled (Enters Production.body n) (Element.spelled .lhsOr)
    (.call .lhsOrRest)

theorem joinsCarried (n : Nat) : JoinsCarried n := by
  induction n with
  | zero => exact ⟨fun _ _ _ _ _ h => h.elim, fun _ _ h => h.elim, fun _ _ h => h.elim⟩
  | succ n ih =>
    have hkept : AllCarried joinsKept (Enters Production.body n) :=
      allCarried_of_plain (fun _ => rfl) n
    have halone {p : Production} (hp : p.standsAlone = true) (parent : Kind) :
        Carried joinsSpelled (Enters Production.body n) (Element.spelled parent) (.call p) :=
      ih.all p _ ⟨fits_spelled parent, fun h => by simp [hp] at h⟩
    have hand : Carried joinsSpelled (Enters Production.body n) (Element.spelled .lhsAnd)
        (.seq .bump (.seq (.call .lhsUnary) (.call .lhsAndRest)) : Rule) :=
      .seq (carried_bump _) (.seq (halone rfl _) ih.andRest)
    have hor : Carried joinsSpelled (Enters Production.body n) (Element.spelled .lhsOr)
        (.seq .bump (.seq (.call .lhsAnd) (.call .lhsOrRest)) : Rule) :=
      .seq (carried_bump _) (.seq (halone rfl _) ih.orRest)
    refine ⟨fun p φ hφ => Carries.call ?_, Carries.call (.when Carried.stable_isAnd hand .skip),
      Carries.call (.when Carried.stable_isOr hor .skip)⟩
    have hnode (k : Kind) (cs : List Element) :
        φ (.node k cs) = .node k (if k.hidesJoins then cs else cs.map (Element.spelled k)) :=
      (hφ.fits.node k cs).trans (Element.spelled_node .compilationUnit k cs)
    have hhidden {k : Kind} (hk : k.hidesJoins = true) (cs : List Element) :
        φ (.node k cs) = .node k (cs.map joinsKept.image) := by
      rw [hnode, if_pos hk]
      exact congrArg _ (List.map_id cs).symm
    cases hp : p.isSensitive with
    | false => exact Carried.body ih.all hp hφ
    | true =>
      cases p <;> try (cases hp; done)
      case lhsOr => exact Carried.lhsOr ih.all hφ.fits (fits_spelled .lhsOr) (hnode _) hor
      case lhsAnd => exact Carried.lhsAnd ih.all hφ.fits (fits_spelled .lhsAnd) (hnode _) hand
      case lhsUnary =>
        have heval := Carried.evaluation hkept (φ := φ) hφ.fits.trivia (hhidden rfl)
        exact Carried.lhsUnary ih.all hφ.fits heval
      case lhsParen =>
        refine Carried.lhsParen ih.all hφ.fits (fun _ _ => isStart_of_enters_lhsOr) ?_ ?_
        · exact .inner_of joinsSpelled.fits_image.trivia
            (Element.spelled_node .compilationUnit _)
            (.seq (carried_bump _) (halone rfl _))
        · exact .inner_of joinsSpelled.fits_image.trivia
            (Element.spelled_node .compilationUnit _)
            (.seq (carried_bump _) (halone rfl _))
      case pattern =>
        have hpattern := Carried.pattern hkept (φ := φ) hφ.fits.trivia (hhidden rfl)
        exact hpattern
      all_goals obtain rfl := hφ.eq rfl
      case thenClause => exact Carried.thenClause (C := joinsKept) hφ.fits.trivia (hhidden rfl)
      case functionDecl => exact Carried.functionDecl ih.all rfl
      case binary => exact Carried.binary ih.all _ _
      case binaryRest => exact Carried.binaryRest ih.all rfl _
      case relational => exact Carried.relational ih.all rfl _

/-- The tokens of the tree with words are parsed as that tree, without errors. -/
theorem parseTokens_spelled {tokens init init' : List Token} {e e' : Token}
    (h : Ended tokens init e) (hclean : IsClean (parseTokens tokens none).2)
    (he : e'.leaf = e.leaf)
    (hinit : init'.map Token.leaf = ((parseTokens tokens none).1.spelled .compilationUnit).leaves) :
    (parseTokens (init' ++ [e']) none).1 = (parseTokens tokens none).1.spelled .compilationUnit ∧
      IsClean (parseTokens (init' ++ [e']) none).2 :=
  joinsSpelled.parseTokens_eq (fun n => (joinsCarried n).all) h hclean
    (List.Forall₂.cons (.inl he) .nil) hinit

end RuleLang
