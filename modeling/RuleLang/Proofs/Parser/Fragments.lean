import RuleLang.Proofs.Grammar.ConfinedRules
import RuleLang.Proofs.Grammar.Gathers
import RuleLang.Proofs.Recipe.LhsLogical

/-!
# Fragments of a tree

A pattern, a constraint, an attribute or a rule is cut out of a source without errors. What came
after it is gone then, and so is what came before. It is read on its own as the same node.

## Main statements

* `whole_parse` — the last significant token of a source without errors needs nothing after it.
* `lexes_fragment` — the tokens of a fragment are those of its text.
* `Fragment.read_of_lexes` — what is read of some tokens is read of their text alone.
* `Fragment.read_text` — the text of a fragment is read as the fragment.
-/

namespace RuleLang

open Grammar Production

/-! ## The last token of a source -/

/-- The last significant token, seen in the leaves. -/
theorem lastKind_of_leaves {ts : List Token} {pre post : List Leaf} {l : Leaf}
    (h : ts.map Token.leaf = pre ++ l :: post) (hl : l.kind.isTrivia = false)
    (hpost : ∀ m ∈ post, m.kind.isTrivia = true) (before : Option Kind) :
    lastKind before ts = some l.kind := by
  obtain ⟨xs, ys, rfl, -, hys⟩ := List.map_eq_append_iff.1 h
  obtain ⟨t, us, rfl, rfl, rfl⟩ := List.map_eq_cons_iff.1 hys
  rw [lastKind_append, Ahead.lastKind_cons hl]
  exact lastKind_of_trivia _ fun u hu => hpost u.leaf (List.mem_map_of_mem hu)

theorem whole_of_closed {ts : List Token} (h : Closed (lastKind none ts)) :
    Whole (ts.map Token.leaf) := by
  rintro l post ⟨pre, hpre⟩ hpost
  cases hl : l.kind.isTrivia with
  | true => exact Kind.isOpen_of_isTrivia hl
  | false => exact h l.kind (lastKind_of_leaves hpre.symm hl hpost none)

/-- Nothing but trivia comes after the part. -/
theorem Whole.part {pre ls post : List Leaf} (h : Whole (pre ++ (ls ++ post)))
    (hpost : ∀ m ∈ post, m.kind.isTrivia = true) : Whole ls := by
  rintro l rest hsuffix hrest
  refine h l (rest ++ post) ?_ fun m hm => (List.mem_append.1 hm).elim (hrest m) (hpost m)
  rw [← List.cons_append]
  exact (List.suffix_append_self_iff.2 hsuffix).trans (List.suffix_append pre _)

theorem Ahead.isTrivia_of_current_eof {ts : List Token} {e : Token}
    (hts : ∀ t ∈ ts, t.kind ≠ .eof) (h : Ahead.current (ts ++ [e]) = .eof) :
    ∀ t ∈ ts, t.isTrivia = true := by
  induction ts with
  | nil => simp
  | cons t ts ih =>
    obtain ⟨ht, hts⟩ := List.forall_mem_cons.1 hts
    rw [List.cons_append] at h
    cases htrivia : t.isTrivia with
    | true =>
      rw [current_cons_trivia htrivia] at h
      exact List.forall_mem_cons.2 ⟨htrivia, ih hts h⟩
    | false =>
      rw [current_eq_head htrivia] at h
      exact absurd h ht

/-- The declarations of a token list without syntax errors leave no consequence open, and after them
comes trivia. -/
theorem Ended.exists_settled {tokens init : List Token} {e : Token} (h : Ended tokens init e)
    (hclean : IsClean (parseTokens tokens none).2) :
    ∃ taken trivia, init = taken ++ trivia ∧ (∀ t ∈ trivia, t.isTrivia = true) ∧
      Settled (lastKind none taken) := by
  obtain ⟨t, ht⟩ := exists_readsAll tokens
  rw [parseTokens_eq_of_reads ht] at hclean
  have hnone : NoErrors t := fun x hx => hclean x (by
    rwa [Reading.recorded, List.mem_reverse, Reading.takeTrivia, errors_takeTokens])
  have hreads := reads_declarations_iff.2 ht
  obtain ⟨taken, htaken, hne, -⟩ := (Reads.seq hreads (.trivia t)).keeps
  rw [Reading.ahead_takeTrivia] at htaken
  obtain ⟨rfl, -⟩ := h.ahead_eq htaken hne (current_of_reads_declarations hreads)
  obtain ⟨first, hfirst, -⟩ := hreads.keeps
  have hsplit : taken ++ t.ahead.afterTrivia =
      first ++ t.ahead.takeWhile Token.isTrivia ++ t.ahead.afterTrivia := by
    rw [List.append_assoc, Ahead.afterTrivia, List.takeWhile_append_dropWhile]
    exact htaken.symm.trans hfirst
  exact ⟨first, _, List.append_cancel_right hsplit, fun u hu => List.mem_takeWhile_imp hu,
    ht.settled ⟨rfl, rfl⟩ hnone hfirst ⟨by simp, by simp⟩⟩

/-- The last significant token of a source without errors needs nothing after it. -/
theorem whole_parse {source : List Char} (hlex : (parse source).lexErrors = [])
    (hclean : IsClean (parse source).syntaxErrors) : Whole (parse source).root.leaves := by
  rintro l post ⟨pre, hpre⟩ hpost
  by_contra hopen
  rcases Kind.isOpen_cases (by simpa using hopen) with hbang | haction
  · obtain ⟨mode, h⟩ := (hpre ▸ lexes_parse hlex).append
    obtain ⟨m, hm, hs⟩ := h.significant_after_bangDot hbang
    rw [hpost m hm] at hs
    cases hs
  · obtain ⟨e, hended, -⟩ := (covers_lex source).ended
    obtain ⟨taken, trivia, hinit, htrivia, hsettled⟩ := hended.exists_settled hclean
    rw [leaves_parse, hinit] at hpre
    have hlast := lastKind_of_leaves hpre.symm (by rw [haction]; rfl) hpost none
    rw [lastKind_append, lastKind_of_trivia _ htrivia, haction] at hlast
    exact hsettled.2 hlast

/-! ## The tokens of a fragment -/

/-- What is read without complaint are the tokens that are taken. -/
theorem Accepted.exists_taken {p : Production} {a z : Ahead} {n : Element}
    (h : Accepted body (.call p) ⟨a, []⟩ ⟨z, [n]⟩) :
    ∃ ts, a = ts ++ z ∧ (∀ t ∈ ts, t.kind ≠ .eof) ∧ n.leaves = ts.map Token.leaf := by
  obtain ⟨t, ht⟩ := Accepted.follows (s := .start a none) ⟨rfl, rfl⟩ h
  obtain ⟨ts, hts, hne, hleaves⟩ := ht.reads.keeps
  have hahead : t.ahead = z := congrArg Point.ahead ht.point
  have hgroup : t.group = [n] := congrArg Point.group ht.point
  rw [hahead] at hts
  exact ⟨ts, hts, hne, by simpa [hgroup, Reading.start] using hleaves⟩

/-- The first significant token, seen in the leaves. -/
theorem current_of_leaves {ts : List Token} {z : Ahead} {pre post : List Leaf} {l : Leaf}
    (h : ts.map Token.leaf = pre ++ l :: post) (hpre : ∀ m ∈ pre, m.kind.isTrivia = true)
    (hl : l.kind.isTrivia = false) : Ahead.current (ts ++ z) = l.kind := by
  obtain ⟨xs, ys, rfl, rfl, hys⟩ := List.map_eq_append_iff.1 h
  obtain ⟨t, us, rfl, rfl, -⟩ := List.map_eq_cons_iff.1 hys
  rw [List.append_assoc]
  clear h hys
  induction xs with
  | nil => exact Ahead.current_eq_head hl _
  | cons x xs ih =>
    rw [List.map_cons, List.forall_mem_cons] at hpre
    rw [List.cons_append, Ahead.current_cons_trivia hpre.1, ih hpre.2]

/-- A token that a fragment may start with needs nothing after it. -/
theorem Production.closed_of_key {p : Production} {k : Kind} (hp : p.isKeyed = true)
    (h : p.key k = true) : k ≠ .eof ∧ k.isOpen = false := by
  cases p with
  | pattern => cases k <;> first | exact ⟨by decide, rfl⟩ | cases h
  | «attribute» => cases k <;> first | exact ⟨by decide, rfl⟩ | cases h
  | ruleDecl => cases k <;> first | exact ⟨by decide, rfl⟩ | cases h
  | _ => cases hp

/-- A fragment takes a significant token, and the first of them needs nothing after it. -/
theorem current_of_fragment {p : Production} {depth : Nat} {x y : Point}
    (hp : p.isFragment = true) (hkey : p.key x.ahead.current = true)
    (h : Enters body depth p x y) :
    y.ahead.significant < x.ahead.significant ∧ x.ahead.current.isOpen = false := by
  have hE := obeys depth
  have hleast := hE.least h
  cases p with
  | pattern | ruleDecl => exact ⟨hleast, (closed_of_key rfl hkey).2⟩
  | «attribute» =>
    obtain ⟨hne, hopen⟩ := closed_of_key rfl hkey
    have hne : (x.ahead.current == .eof) = false := by simpa using hne
    simp only [least, hne] at hleast
    exact ⟨hleast, hopen⟩
  | constraint => exact ⟨hleast, hE.operand h rfl⟩
  | _ => cases hp

/-- The last token of a fragment needs nothing after it, or nothing significant is left. -/
theorem rests_of_fragment {p : Production} {depth : Nat} {x y : Point}
    (hp : p.isFragment = true) (hkey : p.key x.ahead.current = true)
    (h : Enters body depth p x y) : Rests x.ahead y.ahead := by
  refine (obeys depth).rests h ?_
  have hopen := (current_of_fragment hp hkey h).2
  cases p with
  | pattern | ruleDecl | constraint => rfl
  | «attribute» => simp [closes, hopen]
  | _ => cases hp

/-- The end of the input is left after some of the tokens before it. -/
theorem Ended.exists_rest {tokens init pre ts : List Token} {e : Token} {z : Ahead}
    (h : Ended tokens init e) (htokens : pre ++ (ts ++ z) = tokens)
    (hts : ∀ t ∈ ts, t.kind ≠ .eof) (hne : ts ≠ []) :
    ∃ post, z = post ++ [e] ∧ init = pre ++ (ts ++ post) := by
  rw [h.eq] at htokens
  rcases z.eq_nil_or_concat' with rfl | ⟨post, e', rfl⟩
  · obtain ⟨us, t, rfl⟩ := ts.eq_nil_or_concat'.resolve_left hne
    rw [List.append_nil, ← List.append_assoc] at htokens
    obtain ⟨-, he⟩ := List.append_inj' htokens rfl
    cases he
    exact absurd h.kind (hts e (by simp))
  · rw [← List.append_assoc, ← List.append_assoc] at htokens
    obtain ⟨hinit, he⟩ := List.append_inj' htokens rfl
    cases he
    exact ⟨post, rfl, by rw [← hinit, List.append_assoc]⟩

/-- The tokens of a fragment are those of its text. -/
theorem lexes_fragment {source : List Char} (hlex : (parse source).lexErrors = [])
    (hclean : IsClean (parse source).syntaxErrors) {p : Production} {a z : Ahead} {n : Element}
    (hp : p.isFragment = true) (ha : a <:+ (lex source).tokens) (hkey : p.key a.current = true)
    (h : Accepted body (.call p) ⟨a, []⟩ ⟨z, [n]⟩) : Lexes .normal n.leaves := by
  obtain ⟨e, hended, -⟩ := (covers_lex source).ended
  obtain ⟨ts, rfl, hts, hleaves⟩ := Accepted.exists_taken h
  obtain ⟨depth, h⟩ := h
  obtain ⟨hsig, hopen⟩ := current_of_fragment hp hkey h
  have hrests := rests_of_fragment hp hkey h
  obtain ⟨pre, hpre⟩ := ha
  have hne : ts ≠ [] := by
    rintro rfl
    exact absurd hsig (Nat.lt_irrefl _)
  obtain ⟨post, rfl, hinit⟩ := hended.exists_rest hpre hts hne
  have hroot : (parse source).root.leaves =
      pre.map Token.leaf ++ (n.leaves ++ post.map Token.leaf) := by
    rw [leaves_parse, hinit, List.map_append, List.map_append, hleaves]
  have hwhole : Whole n.leaves := by
    rcases hrests with heof | hclosed
    · have htrivia := Ahead.isTrivia_of_current_eof
        (fun t ht => hended.init t (by rw [hinit]; simp [ht])) heof
      refine (hroot ▸ whole_parse hlex hclean).part fun m hm => ?_
      obtain ⟨t, ht, rfl⟩ := List.mem_map.1 hm
      exact htrivia t ht
    · exact hleaves ▸ whole_of_closed (hclosed ts rfl)
  refine Lexes.part (hroot ▸ lexes_parse hlex) hwhole fun pre l hprefix htrivia haction => ?_
  obtain ⟨rest, hrest⟩ := hprefix
  rw [hleaves, List.append_assoc, List.singleton_append] at hrest
  have hcurrent := current_of_leaves (z := post ++ [e]) hrest.symm htrivia (by rw [haction]; rfl)
  rw [hcurrent, haction] at hopen
  cases hopen

/-! ## Reading a fragment on its own -/

theorem Production.starts_of_key {p : Production} {a : Ahead} (hp : p.isFragment = true)
    (hkey : p.key a.current = true) : p.opens = true → p.starts a = true := by
  cases p with
  | pattern => exact fun _ => hkey
  | «attribute» | ruleDecl =>
    have hne := (closed_of_key rfl hkey).1
    exact fun _ => by simpa [starts, opens] using hne
  | constraint => exact fun h => by cases h
  | _ => cases hp

/-- What is read of tokens that end there is read by the production. -/
theorem Accepted.read_eq {p : Production} {tokens : List Token} {e : Token} {n : Element}
    (hstarts : p.opens = true → p.starts tokens = true)
    (h : Accepted body (.call p) ⟨tokens, []⟩ ⟨[e], [n]⟩) :
    (p.read none tokens).ahead = [e] ∧ (p.read none tokens).elements = [n] ∧
      IsClean (p.read none tokens).recorded := by
  obtain ⟨t, ht⟩ := Accepted.follows (s := .start tokens none) ⟨rfl, rfl⟩ h
  obtain ⟨u, hu, -⟩ := p.exists_read? none tokens hstarts
  obtain rfl := ht.reads.unique (reads_of_enter hu)
  have hread : p.read none tokens = t := by
    simp [Production.read, hu]
  rw [hread]
  refine ⟨congrArg Point.ahead ht.point, ?_, fun e he => ?_⟩
  · rw [Reading.elements, show t.group = [n] from congrArg Point.group ht.point]
    rfl
  · exact ht.noErrors (noErrors_start tokens) e (List.mem_reverse.1 he)

theorem FragmentKind.isFragment_of_expected {f : FragmentKind} {k : Kind}
    (h : f.expected? = some k) : f.production.isFragment = true ∧ k.isFragment = true := by
  cases f <;> cases h <;> exact ⟨rfl, rfl⟩

theorem FragmentKind.eq_of_expected {f g : FragmentKind} {k : Kind} (hf : f.expected? = some k)
    (hg : g.expected? = some k) : f = g := by
  cases f <;> cases hf <;> cases g <;> first | rfl | cases hg

mutual

theorem Element.isNode_of_mem_nodes {n : Element} : (e : Element) → n ∈ e.nodes → n.isNode = true
  | .token _ _, h => absurd h List.not_mem_nil
  | .node k cs, h => by
    rw [nodes] at h
    rcases List.mem_cons.1 h with rfl | h
    · rfl
    · exact isNode_of_mem_nodesOf cs h

theorem Element.isNode_of_mem_nodesOf {n : Element} :
    (es : List Element) → n ∈ nodesOf es → n.isNode = true
  | [], h => absurd h List.not_mem_nil
  | e :: es, h => by
    rw [nodesOf] at h
    exact (List.mem_append.1 h).elim (isNode_of_mem_nodes e) (isNode_of_mem_nodesOf es)

end

namespace Fragment

/-- What a production reads of some tokens without complaint, if they are those of its text, is what
it reads of the text. -/
theorem read_of_lexes {f : FragmentKind} {a z : Ahead} {n : Element} (hnode : n.isNode = true)
    (hf : f.expected? = some n.kind) (hkey : f.production.key a.current = true)
    (h : Accepted body (.call f.production) ⟨a, []⟩ ⟨z, [n]⟩) (hlexes : Lexes .normal n.leaves) :
    Fragment.read f n.text = .ok n := by
  obtain ⟨htokens, herrors⟩ := lexes_iff_lex.1 hlexes
  rw [show textOf n.leaves = n.text from rfl] at htokens herrors
  have hproduction := (FragmentKind.isFragment_of_expected hf).1
  have hsig : z.significant < a.significant := by
    obtain ⟨depth, h⟩ := h
    exact (current_of_fragment hproduction hkey h).1
  obtain ⟨ts, rfl, hts, hleaves⟩ := Accepted.exists_taken h
  obtain ⟨us, es, htext, hus, hes⟩ := List.map_eq_append_iff.1 htokens
  obtain ⟨e, rfl, he⟩ := List.map_eq_singleton_iff.1 hes
  have hcut : Ahead.Cut z (ts ++ z) (lex n.text).tokens :=
    htext ▸ .append hts (hleaves.symm.trans hus.symm) (.stop (congrArg Leaf.kind he))
  obtain ⟨e', he', halone⟩ := h.cut hcut
  obtain ⟨hahead, helements, hclean⟩ :=
    Accepted.read_eq (starts_of_key hproduction (hcut.current_eq hsig ▸ hkey)) halone
  have hcurrent : Ahead.current [e'] = .eof := by
    rw [Ahead.current_eq_head (Ahead.isTrivia_of_kind_eof he'), he']
  have herror : (f.production.read none (lex n.text).tokens).recorded.find?
      (fun e => !e.isWarning) = none :=
    List.find?_eq_none.2 fun e he => by simp [hclean e he]
  simp [Fragment.read, herrors, hahead, hcurrent, herror, helements, hnode, hf]

/-- A source that lexes and parses without errors, but for warnings: the text of each pattern,
constraint, attribute and rule of its tree is read, on its own, as this very node. -/
theorem read_text {source : List Char} (hlex : (parse source).lexErrors = [])
    (hclean : IsClean (parse source).syntaxErrors) {f : FragmentKind} {n : Element}
    (hn : n ∈ (parse source).root.nodes) (hf : f.expected? = some n.kind) :
    Fragment.read f n.text = .ok n := by
  obtain ⟨e, hended, -⟩ := (covers_lex source).ended
  obtain ⟨depth, hunit⟩ := hended.accepted hclean
  have hall : (parse source).root.AllRead (lex source).tokens :=
    gathers_of_enters hunit rfl (List.suffix_refl _) (by simp) _ List.mem_cons_self
  obtain ⟨hproduction, hkind⟩ := FragmentKind.isFragment_of_expected hf
  obtain ⟨g, a, z, hg, ha, hkey, h⟩ := hall n hn hkind
  obtain rfl := FragmentKind.eq_of_expected hg hf
  exact read_of_lexes (Element.isNode_of_mem_nodes _ hn) hf hkey h
    (lexes_fragment hlex hclean hproduction ha hkey h)

/-- A rule with an unknown attribute, which is worth a warning, and with a source of facts. -/
theorem read_text_rule :
    let source := "rule R colour 1 when Item(price > 1, (int) size!.width) from all then end".toList
    let fragments := [(FragmentKind.attribute, "colour 1"), (.constraint, "(int) size!.width"),
      (.pattern, "Item(price > 1, (int) size!.width) from all"), (.rule, String.ofList source)]
    (parse source).lexErrors = [] ∧ IsClean (parse source).syntaxErrors ∧
      (parse source).syntaxErrors ≠ [] ∧
      ∀ p ∈ fragments, ∃ n ∈ (parse source).root.nodes,
        p.1.expected? = some n.kind ∧ n.text = p.2.toList ∧ Fragment.read p.1 n.text = .ok n := by
  intro source fragments
  have hlex : (parse source).lexErrors = [] := by decide +kernel
  have hclean : IsClean (parse source).syntaxErrors := List.all_eq_true.1 (by decide +kernel)
  refine ⟨hlex, hclean, by decide +kernel, fun p hp => ?_⟩
  have hall : fragments.all (fun p => (parse source).root.nodes.any fun n =>
      p.1.expected? == some n.kind && n.text == p.2.toList) = true := by decide +kernel
  obtain ⟨n, hn, hmatches⟩ := List.any_eq_true.1 (List.all_eq_true.1 hall p hp)
  obtain ⟨hexpected, htext⟩ := Bool.and_eq_true_iff.1 hmatches
  exact ⟨n, hn, beq_iff_eq.1 hexpected, beq_iff_eq.1 htext,
    read_text hlex hclean hn (beq_iff_eq.1 hexpected)⟩

end Fragment

end RuleLang
