import RuleLang.Ast.Declarations
import RuleLang.Proofs.Element.Clauses

/-!
# Type declarations as text and as elements

A declaration of a type, apart from the tokens that spell it: a name, supertypes, and fields with
types and perhaps with literals as initial values. It is written with one field on a line, and it is
read as a node whose typed view has all that it was made of.

## Main definitions

* `Name`, `Path` — tokens that may serve as names, and names with dots between them.
* `TypeDeclaration` — a declaration of a type.
* `TypeDeclaration.source` — how it is written.
* `TypeDeclaration.shape`, `TypeDeclaration.tree` — the nodes that it is read as.
* `TypeDeclaration.Separable` — no name stands where the grammar takes it for something else.

## Main statements

* `TypeDeclaration.text_tree` — the text of the tree is that of the declaration.
* `TypeDeclaration.name?_view`, `TypeDeclaration.supertypes_view`, `TypeDeclaration.fields_view` —
  what the typed view of the node tells.
-/

namespace RuleLang

open Element

/-! ## Names and paths -/

/-- The break between two lines. -/
def Leaf.newline : Leaf :=
  ⟨.newline, ['\n']⟩

/-- A text that is one token, which may serve as a name. -/
structure Name where
  leaf : Leaf
  isName : leaf.kind.isName = true
  tokens : (lex leaf.text).tokens.map Token.leaf = [leaf, ⟨.eof, []⟩]
  errors : (lex leaf.text).errors = []

namespace Name

def text (n : Name) : List Char :=
  n.leaf.text

def kind (n : Name) : Kind :=
  n.leaf.kind

end Name

/-- Names with dots between them. -/
structure Path where
  first : Name
  more : List Name

namespace Path

def text (p : Path) : List Char :=
  p.first.text ++ p.more.flatMap fun n => '.' :: n.text

def leaves (p : Path) : List Leaf :=
  p.first.leaf :: p.more.flatMap fun n => [Kind.dot.leaf, n.leaf]

def shape (p : Path) : Element :=
  .node .qualifiedName (p.leaves.map Leaf.element)

end Path

/-! ## Declarations -/

/-- A field of a type, with a literal as its initial value or without one. -/
structure TypeField where
  name : Name
  type : Path
  initial : Option Literal

structure TypeDeclaration where
  name : Path
  supertypes : List Path
  fields : List TypeField

namespace TypeField

/-- `name : type [= literal]` -/
def line (f : TypeField) : List Char :=
  f.name.text ++ [' ', ':', ' '] ++ f.type.text ++
    (f.initial.map fun l => [' ', '=', ' '] ++ l.leaf.text).getD []

/-- The parts of a field after its type. -/
def initialParts (f : TypeField) : List Element :=
  (f.initial.map fun l => [Leaf.blank.element, Kind.eq.leaf.element, Leaf.blank.element,
    (Term.literal l).shape]).getD []

def parts (f : TypeField) : List Element :=
  [f.name.leaf.element, Leaf.blank.element, Kind.colon.leaf.element, Leaf.blank.element,
    .node .typeRef [f.type.shape]] ++ f.initialParts

def shape (f : TypeField) : Element :=
  .node .fieldDecl f.parts

end TypeField

namespace TypeDeclaration

/-- `extends supertype, ...`, if there are any. -/
def extension : List Path → List Char
  | [] => []
  | p :: ps =>
    ' ' :: Kind.extendsKw.leaf.text ++ ' ' :: p.text ++ ps.flatMap fun q => [',', ' '] ++ q.text

/-- The text of a declaration, with a line for each field. -/
def source (d : TypeDeclaration) : List Char :=
  Kind.declareKw.leaf.text ++ ' ' :: d.name.text ++ extension d.supertypes ++
    (d.fields.flatMap fun f => '\n' :: f.line) ++ '\n' :: Kind.endKw.leaf.text

/-- Paths with commas before them. -/
def listed (ps : List Path) : List Element :=
  ps.flatMap fun p => [Kind.comma.leaf.element, Leaf.blank.element, p.shape]

/-- What a declaration has after its name. -/
def supertypeParts : List Path → List Element
  | [] => []
  | p :: ps =>
    [Leaf.blank.element, Kind.extendsKw.leaf.element, Leaf.blank.element, p.shape] ++ listed ps

/-- Fields on lines of their own. -/
def lines (fs : List TypeField) : List Element :=
  fs.flatMap fun f => [Leaf.newline.element, f.shape]

def parts (d : TypeDeclaration) : List Element :=
  [Kind.declareKw.leaf.element, Leaf.blank.element, d.name.shape] ++ supertypeParts d.supertypes ++
    lines d.fields ++ [Leaf.newline.element, Kind.endKw.leaf.element]

def shape (d : TypeDeclaration) : Element :=
  .node .declareDecl d.parts

/-- The tree of a text with such a declaration and nothing else. -/
def tree (d : TypeDeclaration) : Element :=
  .node .compilationUnit [d.shape]

/-- No name stands where the grammar takes it for something else. -/
structure Separable (d : TypeDeclaration) : Prop where
  /-- The declared name does not start with the modifier that may come before it. -/
  name : d.name.first.kind ≠ .traitKw
  /-- The first field is not named like the keyword that may come after the name. -/
  first : d.supertypes = [] → ∀ f ∈ d.fields.head?, f.name.kind ≠ .extendsKw
  /-- No field is named like an operator that may come after an initial value. -/
  next : d.fields.IsChain fun f g => f.initial.isSome = true → g.name.kind.isWordOperator = false

end TypeDeclaration

/-! ## The texts of the nodes -/

@[simp] theorem text_element (l : Leaf) : l.element.text = l.text := by
  simp [Element.text]

@[simp] theorem text_node (k : Kind) (cs : List Element) :
    (node k cs).text = cs.flatMap Element.text := by
  rw [Element.text, leaves_node, leavesOf_eq_flatMap, List.flatMap_assoc]
  rfl

@[simp] theorem text_blank : Leaf.blank.text = [' '] := rfl

@[simp] theorem text_newline : Leaf.newline.text = ['\n'] := rfl

@[simp] theorem text_dot : Kind.dot.leaf.text = ['.'] := rfl

@[simp] theorem text_comma : Kind.comma.leaf.text = [','] := rfl

@[simp] theorem text_colon : Kind.colon.leaf.text = [':'] := rfl

@[simp] theorem text_eq : Kind.eq.leaf.text = ['='] := rfl

@[simp] theorem Path.text_shape (p : Path) : p.shape.text = p.text := by
  simp [Path.text, Path.shape, Path.leaves, Name.text, List.flatMap_map, List.flatMap_assoc]

@[simp] theorem Term.text_shape (t : Term) : t.shape.text = t.leaf.text := by
  cases t <;> simp [Term.shape, Term.leaf]

@[simp] theorem TypeField.text_shape (f : TypeField) : f.shape.text = f.line := by
  cases hinitial : f.initial <;>
    simp [shape, parts, initialParts, line, hinitial, Name.text, Term.leaf]

namespace TypeDeclaration

theorem text_supertypeParts (ps : List Path) :
    (supertypeParts ps).flatMap Element.text = extension ps := by
  cases ps <;> simp [supertypeParts, extension, listed, List.flatMap_assoc]

theorem text_lines (fs : List TypeField) :
    (lines fs).flatMap Element.text = fs.flatMap fun f => '\n' :: f.line := by
  simp [lines, List.flatMap_assoc]

/-- The text of the tree of a declaration is that of the declaration. -/
theorem text_tree (d : TypeDeclaration) : d.tree.text = d.source := by
  simp [tree, shape, parts, source, text_supertypeParts, text_lines]

end TypeDeclaration

/-! ## Views -/

theorem Ast.childrenOf_append (k : Kind) (xs ys : List Element) :
    childrenOf k (xs ++ ys) = childrenOf k xs ++ childrenOf k ys :=
  List.filterMap_append

theorem Kind.isTrivia_of_isName {k : Kind} (h : k.isName = true) : k.isTrivia = false := by
  cases k <;> first | rfl | cases h

namespace TypeField

/-- The name of a field is its first token. -/
theorem head?_significantTokens (f : TypeField) :
    (Ast.significantTokens f.parts).head? = some f.name.leaf := by
  have hname : f.name.leaf.isTrivia = false := Kind.isTrivia_of_isName f.name.isName
  simp [Ast.significantTokens, Ast.tokens, parts, Leaf.element, hname]

theorem typeName?_parts (f : TypeField) : Ast.typeName? f.parts = some f.type.text := by
  have htype : Ast.childOf? .typeRef f.parts = some ⟨[f.type.shape]⟩ := rfl
  simp [Ast.typeName?, htype, View.text, View.element]

end TypeField

namespace TypeDeclaration

/-- The node of a declaration. -/
def view (d : TypeDeclaration) : DeclareDecl :=
  ⟨d.parts⟩

theorem declares_tree (d : TypeDeclaration) :
    CompilationUnit.declares ⟨d.tree.children⟩ = [d.view] :=
  rfl

theorem name?_view (d : TypeDeclaration) : d.view.name? = some d.name.text := by
  have hname : Ast.childOf? .qualifiedName d.view.children =
      some ⟨d.name.leaves.map Leaf.element⟩ := rfl
  rw [DeclareDecl.name?, Ast.qualifiedName?, hname, ← Path.text_shape]
  rfl

theorem paths_listed (ps : List Path) :
    (Ast.childrenOf .qualifiedName (listed ps)).map View.text = ps.map Path.text := by
  induction ps with
  | nil => rfl
  | cons p ps ih =>
    rw [listed, List.flatMap_cons, Ast.childrenOf_append, List.map_append, ← listed, ih, List.map_cons,
      ← p.text_shape]
    rfl

theorem paths_supertypeParts (ps : List Path) :
    (Ast.childrenOf .qualifiedName (supertypeParts ps)).map View.text = ps.map Path.text := by
  cases ps with
  | nil => rfl
  | cons p ps => exact congrArg₂ List.cons p.text_shape (paths_listed ps)

theorem fields_supertypeParts (ps : List Path) :
    Ast.childrenOf .fieldDecl (supertypeParts ps) = [] := by
  have hlisted : Ast.childrenOf .fieldDecl (listed ps.tail) = [] := by
    induction ps.tail with
    | nil => rfl
    | cons p ps ih => exact ih
  cases ps with
  | nil => rfl
  | cons => exact hlisted

theorem paths_lines (fs : List TypeField) : Ast.childrenOf .qualifiedName (lines fs) = [] := by
  induction fs with
  | nil => rfl
  | cons f fs ih => exact ih

theorem fields_lines (fs : List TypeField) :
    Ast.childrenOf .fieldDecl (lines fs) = fs.map fun f => ⟨f.parts⟩ := by
  induction fs with
  | nil => rfl
  | cons f fs ih => exact congrArg (_ :: ·) ih

/-- The children of a declaration of a kind, apart from its ends. -/
theorem childrenOf_parts (k : Kind) (d : TypeDeclaration) :
    Ast.childrenOf k d.parts = Ast.childrenOf k [d.name.shape] ++
      Ast.childrenOf k (supertypeParts d.supertypes) ++ Ast.childrenOf k (lines d.fields) := by
  rw [parts, Ast.childrenOf_append, Ast.childrenOf_append, Ast.childrenOf_append]
  exact List.append_nil _

theorem supertypes_view (d : TypeDeclaration) :
    d.view.supertypes = d.supertypes.map Path.text := by
  rw [DeclareDecl.supertypes, view, childrenOf_parts, paths_lines, List.append_nil,
    ← paths_supertypeParts]
  rfl

theorem fields_view (d : TypeDeclaration) :
    d.view.fields = d.fields.map fun f => (f.name.text, f.type.text) := by
  have hnone : Ast.childrenOf .fieldDecl [d.name.shape] = [] := rfl
  rw [DeclareDecl.fields, view, childrenOf_parts, hnone, fields_supertypeParts, fields_lines,
    List.nil_append, List.nil_append, List.filterMap_map, ← List.filterMap_eq_map]
  congr 1
  funext f
  simp [TypeField.head?_significantTokens, TypeField.typeName?_parts, Name.text]

end TypeDeclaration

end RuleLang
