import RuleLang.Proofs.Element.TypeDeclarations
import RuleLang.Proofs.Grammar.YieldsTests

/-!
# Type declarations are read as their nodes

Nothing separates one field from the next, so each has to end where the next begins: no name goes on
with a type, and of all names only those that are operators go on with an initial value.

## Main definitions

* `Follow.symbols` — the kinds that go on with what stands before them in a declaration.
* `Ahead.AtField` — a field comes next, or the end of the declaration.

## Main statements

* `TypeField.gives_field` — a field is read as its node, if what comes after it is as it should be.
* `TypeDeclaration.yields_lines` — fields one after the other are read as their nodes.
* `TypeDeclaration.yields_tree` — a declaration of a type is read as its tree.
-/

namespace RuleLang

open Grammar Element Ahead Follow

theorem Kind.isSolid_of_isName {k : Kind} (h : k.isName = true) : k.isSolid = true := by
  cases k <;> first | rfl | cases h

theorem Name.isSolid (n : Name) : n.leaf.kind.isSolid = true :=
  Kind.isSolid_of_isName n.isName

/-- With a line break before the elements. -/
theorem Grammar.Gives.broken {g : Rule} {next : Ahead → Prop} {es : List Element}
    (h : Gives g next es) : Yields g next (Leaf.newline.element :: es) :=
  h [Leaf.newline.element] (List.forall_mem_singleton.2 rfl)

theorem Element.kindsOf_newline (es : List Element) :
    kindsOf (Leaf.newline.element :: es) = kindsOf es :=
  @kindsOf_lead [Leaf.newline.element] (List.forall_mem_singleton.2 rfl) es

theorem Element.kindsOf_leaf {l : Leaf} (hl : l.kind.isSolid = true) (es : List Element) :
    kindsOf (l.element :: es) = l.kind :: kindsOf es :=
  kindsOf_token (Kind.isTrivia_of_isSolid hl) l.text es

/-! ## What comes next -/

namespace Follow

/-- What goes on with names, types, fields and initial values, apart from operators that may serve as
names. -/
def symbols : List Kind :=
  extensions ++ connectors ++ [Kind.lt, .comma, .at, .eq]

theorem not_mem_symbols {k : Kind} (h : k = .endKw ∨ k.isName = true) : k ∉ symbols := by
  have hnone : ∀ m ∈ symbols, m ≠ .endKw ∧ m.isName = false := by decide
  intro hm
  rcases h with rfl | h
  · exact (hnone _ hm).1 rfl
  · rw [(hnone k hm).2] at h
    cases h

end Follow

namespace Ahead

variable {a : Ahead}

/-- A field comes next, or the end of the declaration. -/
def AtField (a : Ahead) : Prop :=
  a.current = .endKw ∨ a.current.isName = true ∧ a.nth 1 = .colon

theorem AtField.not_mem_symbols (h : AtField a) : a.current ∉ symbols :=
  Follow.not_mem_symbols (h.imp_right And.left)

/-- Between fields no comparison goes on, unless a name stands for its operator. -/
theorem AtField.atRelationalOperator_eq_false (h : AtField a)
    (hword : a.current.isWordOperator = false) : Expressions.atRelationalOperator a = false := by
  rcases h with hend | ⟨hname, hcolon⟩
  · rw [Expressions.atRelationalOperator, hend]
    rfl
  · rw [Expressions.atRelationalOperator, hword, hcolon]
    generalize a.current = k at hname
    cases k <;> first | rfl | cases hname

end Ahead

/-! ## Names -/

namespace Path

variable {next : Ahead → Prop} (p : Path)

theorem starts_shape (es : List Element) : Starts p.first.kind (p.shape :: es) :=
  (Starts.leaf p.first.isSolid _).node .qualifiedName es

/-- Names with dots before them. -/
theorem yields_nameParts (ns : List Name) (hnext : ∀ a, Begins [] next a → a.current ≠ .dot) :
    Yields (.call .nameParts) next
      ((ns.flatMap fun n => [Kind.dot.leaf, n.leaf]).map Leaf.element) := by
  induction ns with
  | nil => exact .call (Yields.skip.not_when fun a ha => by simp [isAt, hnext a ha])
  | cons n ns ih =>
    have hdot : Gives bump (fun _ => True) [Kind.dot.leaf.element] := .bump Kind.dot.leaf rfl
    have hname : Gives bump (fun _ => True) [n.leaf.element] := .bump n.leaf n.isSolid
    have htwo := hdot.yields.take_two hname.yields fun _ _ => trivial
    refine .call ((htwo.seq ih fun _ _ => trivial).when fun a ha => ?_)
    rw [List.append_assoc, List.singleton_append, List.singleton_append,
      kindsOf_leaf (l := Kind.dot.leaf) rfl, kindsOf_leaf n.isSolid] at ha
    have hcurrent : a.current = .dot := ha.current
    have hsecond : (a.nth 1).isName = true := ha.nth_one ▸ n.isName
    simp [isAt, hcurrent, hsecond]

theorem gives_qualifiedName (hnext : ∀ a, Begins [] next a → a.current ≠ .dot) :
    Gives (.call .qualifiedName) next [p.shape] := by
  have hfirst : Gives bump (fun _ => True) [p.first.leaf.element] :=
    .bump p.first.leaf p.first.isSolid
  have hparts := hfirst.yields.seq (yields_nameParts p.more hnext) fun _ _ => trivial
  refine .call (Gives.when (.inner hparts (.leaf p.first.isSolid _)) fun a ha => ?_)
  rw [atName, ha.current_of_first (p.starts_shape []).first]
  exact p.first.isName

theorem gives_typeRef (hnext : ∀ a, Begins [] next a → a.current ∉ [.dot, .lt, .lBracket]) :
    Gives (.call .typeRef) next [.node .typeRef [p.shape]] := by
  have hne {k : Kind} (hk : k ∈ [Kind.dot, .lt, .lBracket]) (a : Ahead) (ha : Begins [] next a) :
      a.current ≠ k := fun h => hnext a ha (h ▸ hk)
  have harguments : Yields (whenAt .lt (.look fun a => .take (a.typeArguments 0))) next [] :=
    .not_at .skip (hne (by decide))
  have hdimensions : Yields (.call .dimensions) next [] :=
    .call (Yields.skip.not_when fun a ha => by simp [isAt, hne (k := .lBracket) (by decide) a ha])
  have hname := (p.gives_qualifiedName (hne (by decide))).seq_nil (harguments.seq_nil hdimensions)
  refine .call (Gives.when (.inner hname.yields (p.starts_shape [])) fun a ha => ?_)
  rw [atName, ha.current_of_first ((p.starts_shape []).node .typeRef []).first]
  exact p.first.isName

end Path

/-! ## Fields -/

/-- No annotation comes. -/
theorem yields_no_annotations {next : Ahead → Prop}
    (hnext : ∀ a, Begins [] next a → a.current ≠ .at) : Yields (.call .annotations) next [] :=
  .call (.not_at .skip hnext)

namespace TypeField

variable (f : TypeField)

theorem starts_shape (es : List Element) : Starts f.name.kind (f.shape :: es) :=
  (Starts.leaf f.name.isSolid _).node .fieldDecl es

/-- A field starts with its name and a colon. -/
theorem kindsOf_shape (es : List Element) :
    ∃ ks, kindsOf (f.shape :: es) = f.name.kind :: .colon :: ks := by
  have hcolon (ds : List Element) : kindsOf (Kind.colon.leaf.element :: ds) = .colon :: kindsOf ds :=
    kindsOf_leaf (l := Kind.colon.leaf) rfl ds
  simp only [shape, kindsOf_node, parts, List.cons_append, kindsOf_leaf f.name.isSolid,
    kindsOf_blank, hcolon]
  exact ⟨_, rfl⟩

/-- What may come after a field. -/
def Precedes (a : Ahead) : Prop :=
  AtField a ∧ (f.initial.isSome = true → a.current.isWordOperator = false)

variable {next : Ahead → Prop} (hnext : ∀ a, Begins [] next a → f.Precedes a)

include hnext

theorem yields_initial :
    Yields (.seq (eat .eq (.call .expr)) (.call .annotations)) next f.initialParts := by
  have hne {k : Kind} (hk : k ∈ symbols) (a : Ahead) (ha : Begins [] next a) : a.current ≠ k :=
    fun h => (hnext a ha).1.not_mem_symbols (h ▸ hk)
  have hannotations : Yields (.call .annotations) next [] := yields_no_annotations (hne (by decide))
  cases hinitial : f.initial with
  | none =>
    have habsent : Yields (eat .eq (.call .expr)) next [] := .not_at .skip (hne (by decide))
    have hall := habsent.seq_nil hannotations
    rwa [initialParts, hinitial]
  | some l =>
    have hsubset : extensions ++ connectors ⊆ symbols := by decide
    have hexpr := (Term.literal l).gives_expr fun a ha =>
      ⟨fun h => (hnext a ha).1.not_mem_symbols (hsubset h),
        (hnext a ha).1.atRelationalOperator_eq_false ((hnext a ha).2 (by simp [hinitial]))⟩
    have heq : Gives (eat .eq (.call .expr)) next _ := .eat Kind.eq.leaf rfl hexpr.led
    have hall := heq.led.seq_nil hannotations
    rwa [initialParts, hinitial]

/-- A field is read as its node. -/
theorem gives_field : Gives (.call .field) next [f.shape] := by
  have hcolon : Gives bump (fun _ => True) [Kind.colon.leaf.element] := .bump Kind.colon.leaf rfl
  have hname : Gives bump (fun _ => True) [f.name.leaf.element] := .bump f.name.leaf f.name.isSolid
  have htype : Gives (.call .typeRef) (Begins (kindsOf f.initialParts) next)
      [.node .typeRef [f.type.shape]] := by
    refine f.type.gives_typeRef fun a ha => ?_
    have ha := ha.trans
    rw [List.nil_append, initialParts] at ha
    cases hinitial : f.initial with
    | none =>
      have hsubset : [Kind.dot, .lt, .lBracket] ⊆ symbols := by decide
      rw [hinitial] at ha
      exact fun h => (hnext a ha).1.not_mem_symbols (hsubset h)
    | some l =>
      rw [hinitial] at ha
      rw [ha.current_of_first (Starts.leaf (l := Kind.eq.leaf) rfl _).first.blank]
      decide
  have hrest := htype.led.seq (f.yields_initial hnext) fun _ ha => ha
  have hall := (hname.yields.take_two hcolon.led fun _ _ => trivial).seq hrest fun _ _ => trivial
  exact .call (.inner hall (.leaf f.name.isSolid _))

end TypeField

/-! ## Declarations -/

namespace TypeDeclaration

/-- Fields on lines of their own are read up to the end of the declaration. -/
theorem yields_lines (fs : List TypeField)
    (hfs : fs.IsChain fun f g => f.initial.isSome = true → g.name.kind.isWordOperator = false) :
    Yields (.call .fields) (At [.endKw]) (lines fs) := by
  induction fs with
  | nil =>
    refine .call (Yields.skip.look fun a ha => ?_)
    rw [List.mem_singleton.1 ha.at]
    rfl
  | cons f fs ih =>
    have hnext (a : Ahead) (ha : Begins [] (Begins (kindsOf (lines fs)) (At [.endKw])) a) :
        f.Precedes a := by
      have ha := ha.trans
      rw [List.nil_append] at ha
      cases fs with
      | nil =>
        have hcurrent : a.current = .endKw := List.mem_singleton.1 ha.at
        exact ⟨.inl hcurrent, fun _ => by rw [hcurrent]; rfl⟩
      | cons g fs =>
        obtain ⟨ks, hks⟩ := g.kindsOf_shape (lines fs)
        rw [lines, List.flatMap_cons, List.cons_append, kindsOf_newline, List.singleton_append,
          ← lines, hks] at ha
        rw [TypeField.Precedes, AtField, ha.current, ha.nth_one]
        exact ⟨.inr ⟨g.name.isName, rfl⟩, (List.isChain_cons_cons.1 hfs).1⟩
    have hall := (f.gives_field hnext).broken.seq (ih hfs.tail) fun _ ha => ha
    refine .call (hall.look fun a ha => ?_)
    obtain ⟨ks, hks⟩ := f.kindsOf_shape (lines fs)
    rw [List.cons_append, kindsOf_newline, List.singleton_append, hks] at ha
    have hcurrent : a.current = f.name.kind := ha.current
    have hname : f.name.kind.isName = true := f.name.isName
    have hbounds : ∀ k : Kind, k.isName = true → (k == .eof || k.isBoundaryKeyword) = false := by
      intro k hk
      cases k <;> first | rfl | cases hk
    have hsecond : a.nth 1 = .colon := ha.nth_one
    simp only [atName, hcurrent, hname, hsecond, hbounds _ hname]
    rfl

/-- Paths with commas between them. -/
theorem gives_paths {next : Ahead → Prop} (p : Path) (ps : List Path)
    (hnext : ∀ a, Begins [] next a → a.current ∉ symbols) :
    Gives (.seq (.call .qualifiedName) (.call .supertypes)) next (p.shape :: listed ps) := by
  have hne {k : Kind} (hk : k ∈ symbols) (a : Ahead) (ha : Begins [] next a) : a.current ≠ k :=
    fun h => hnext a ha (h ▸ hk)
  induction ps generalizing p with
  | nil =>
    have hnone : Yields (.call .supertypes) next [] := .call (.not_at .skip (hne (by decide)))
    exact (p.gives_qualifiedName (hne (by decide))).seq_nil hnone
  | cons q ps ih =>
    have hmore : Gives (.call .supertypes) next (listed (q :: ps)) :=
      .call (.eat Kind.comma.leaf rfl (ih q).led)
    have hpath : Gives (.call .qualifiedName) (At [.comma]) [p.shape] :=
      p.gives_qualifiedName fun a ha => ha.ne (by decide)
    exact hpath.seq hmore.yields fun a ha =>
      ha.at_of_first (Starts.leaf (l := Kind.comma.leaf) rfl _).first (by decide)

/-- The first token of the fields and the end of a declaration. -/
theorem exists_first (fs : List TypeField) : ∃ k,
    First k (lines fs ++ [Leaf.newline.element, Kind.endKw.leaf.element]) ∧ k ∉ symbols ∧
      ((∀ f ∈ fs.head?, f.name.kind ≠ .extendsKw) → k ≠ .extendsKw) := by
  cases fs with
  | nil =>
    refine ⟨.endKw, ?_, by decide, fun _ => by decide⟩
    rw [First, lines, List.flatMap_nil, List.nil_append, kindsOf_newline]
    exact (Starts.leaf (l := Kind.endKw.leaf) rfl []).first
  | cons f fs =>
    refine ⟨f.name.kind, ?_, not_mem_symbols (.inr f.name.isName), fun h => h f rfl⟩
    rw [First, lines, List.flatMap_cons, List.append_assoc, List.cons_append, kindsOf_newline]
    exact (f.starts_shape _).first

/-- The fields and the end of a declaration. -/
theorem yields_body (d : TypeDeclaration) (h : d.Separable) :
    Yields (.seq (.call .annotations) <| .seq (.call .fields) <|
        .seq (.call (.blockEnd .declare)) .lineTrivia) Done
      (lines d.fields ++ [Leaf.newline.element, Kind.endKw.leaf.element]) := by
  obtain ⟨k, hfirst, hsymbols, -⟩ := exists_first d.fields
  have hat : .at ∉ [k] := fun hm => hsymbols (List.mem_singleton.1 hm ▸ by decide)
  have hend := (yields_lines d.fields h.next).seq (Gives.blockEnd .declare).broken fun a ha => by
    rw [kindsOf_newline] at ha
    exact ha.at_of_first (Starts.leaf (l := Kind.endKw.leaf) rfl []).first (by decide)
  exact Yields.nil_seq (.call (.absent hat)) hend hfirst

/-- What comes after the name of a declaration. -/
theorem yields_rest (d : TypeDeclaration) (h : d.Separable) :
    Yields (.seq (eat .extendsKw (.seq (.call .qualifiedName) (.call .supertypes))) <|
        .seq (.call .annotations) <| .seq (.call .fields) <|
        .seq (.call (.blockEnd .declare)) .lineTrivia) Done
      (supertypeParts d.supertypes ++
        (lines d.fields ++ [Leaf.newline.element, Kind.endKw.leaf.element])) := by
  obtain ⟨k, hfirst, hsymbols, hextends⟩ := exists_first d.fields
  have hbody := d.yields_body h
  cases hsupertypes : d.supertypes with
  | nil =>
    have hne : k ≠ .extendsKw := hextends (h.first hsupertypes)
    exact Yields.nil_seq (.absent (by simpa using hne.symm)) hbody hfirst
  | cons p ps =>
    have hpaths : Gives _ (At [k]) (p.shape :: listed ps) :=
      gives_paths p ps fun a ha => by rwa [List.mem_singleton.1 ha.at]
    have hextends : Gives (eat .extendsKw _) (At [k]) _ := .eat Kind.extendsKw.leaf rfl hpaths.led
    exact hextends.led.seq hbody fun a ha => ha.at_of_first hfirst (List.mem_singleton_self k)

theorem yields_declareDecl (d : TypeDeclaration) (h : d.Separable) :
    Yields (.call .declareDecl) Done [d.shape] := by
  obtain ⟨k, hfirst, hdot⟩ : ∃ k, First k (supertypeParts d.supertypes ++
      (lines d.fields ++ [Leaf.newline.element, Kind.endKw.leaf.element])) ∧ .dot ∉ [k] := by
    cases d.supertypes with
    | nil =>
      obtain ⟨k, hfirst, hsymbols, -⟩ := exists_first d.fields
      exact ⟨k, hfirst, fun hm => hsymbols (List.mem_singleton.1 hm ▸ by decide)⟩
    | cons p ps =>
      exact ⟨.extendsKw, (Starts.leaf (l := Kind.extendsKw.leaf) rfl _).first.blank, by decide⟩
  have hname : Gives (.call .qualifiedName) (At [k]) [d.name.shape] :=
    d.name.gives_qualifiedName fun a ha => ha.ne hdot
  have hrest := hname.seq (d.yields_rest h) fun a ha =>
    ha.at_of_first hfirst (List.mem_singleton_self k)
  have htrait : Gives (.seq (eat .traitKw) <| .seq (.call .qualifiedName) <|
      .seq (eat .extendsKw (.seq (.call .qualifiedName) (.call .supertypes))) <|
      .seq (.call .annotations) <| .seq (.call .fields) <|
      .seq (.call (.blockEnd .declare)) .lineTrivia) Done _ :=
    hrest.absent_seq (d.name.starts_shape _).first h.name
  have hparts : d.parts = Kind.declareKw.leaf.element :: Leaf.blank.element ::
      ([d.name.shape] ++ (supertypeParts d.supertypes ++
        (lines d.fields ++ [Leaf.newline.element, Kind.endKw.leaf.element]))) := by
    simp [parts]
  rw [shape, hparts]
  exact .call (Gives.bump_seq Kind.declareKw.leaf rfl htrait.led).yields.node

/-- A text with a declaration of a type is read as its tree. -/
theorem yields_tree (d : TypeDeclaration) (h : d.Separable) :
    Yields (.call .compilationUnit) Done [d.tree] :=
  .file rfl (fun a ha => by rw [ha]; rfl) (d.yields_declareDecl h)
    ((Starts.leaf (l := Kind.declareKw.leaf) rfl _).node .declareDecl []).first

end TypeDeclaration

end RuleLang
