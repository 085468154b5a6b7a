import RuleLang.Diagnostic

/-!
# Failures

What stops an operation. Errors in a source are no failures: they are reported as diagnostics, and
the source still has a tree.

## Main definitions

* `TreeId`, `Handle` — the identity of a tree, and the address of an element in it.
* `Failure`, `Failure.message` — the causes and their texts.
* `FailureClass`, `Failure.isRecoverable` — what kind of failure it is, and whether other files can
  still be processed.
-/

namespace RuleLang

/-- Trees are numbered as they are made. -/
abbrev TreeId := Nat

/-- The address of an element: its tree, and its place in the preorder of that tree. -/
structure Handle where
  tree : TreeId
  index : Nat
  deriving DecidableEq, Repr, Inhabited

/-- How messages name trees. -/
abbrev TreeNames := TreeId → String

namespace TreeNames

/-- Trees by their numbers. -/
def numbered : TreeNames :=
  fun id => "#" ++ toString id

end TreeNames

def Handle.describe (names : TreeNames) (h : Handle) : String :=
  names h.tree ++ "/" ++ toString h.index

/-- Why a handle does not lead to an element. -/
inductive StaleReason where
  /-- The handle was made for a tree other than `tree`. -/
  | otherTree (tree : TreeId)
  /-- The tree has only `size` elements. -/
  | outOfRange (size : Nat)
  deriving DecidableEq, Repr

/-- What source fragments stand for. -/
inductive FragmentKind where
  | pattern | constraint | expression | attribute | rule
  deriving DecidableEq, Repr, Inhabited

def FragmentKind.name : FragmentKind → String
  | .pattern => "Pattern"
  | .constraint => "Constraint"
  | .expression => "Expression"
  | .attribute => "Attribute"
  | .rule => "Rule"

/-- The name in lower case. -/
def FragmentKind.word : FragmentKind → String
  | .pattern => "pattern"
  | .constraint => "constraint"
  | .expression => "expression"
  | .attribute => "attribute"
  | .rule => "rule"

/-- Why a text is no fragment. -/
inductive FragmentFault where
  | malformed (fault : Fault)
  /-- Tokens are left after the fragment. -/
  | leftover (found : Kind)
  | ungrammatical (complaint : Complaint)
  /-- What was read is no node of the kind. -/
  | notProduced (fragment : FragmentKind)
  deriving DecidableEq, Repr

def FragmentFault.message : FragmentFault → String
  | .malformed fault => fault.message
  | .leftover found => "unexpected " ++ found.describe ++ " after fragment"
  | .ungrammatical complaint => complaint.message
  | .notProduced fragment => "fragment did not produce a " ++ fragment.name

inductive Failure where
  | emptyInput (sourceId : String)
  /-- `offset` bytes are well-formed. -/
  | invalidUtf8 (sourceId : String) (offset : Nat)
  | staleHandle (handle : Handle) (reason : StaleReason)
  /-- A tree is being rewritten already. -/
  | concurrentRewrite (tree : TreeId)
  | invalidReplacement (fragment reason : String)
  | config (reason : String)
  | internal (reason : String)
  deriving DecidableEq, Repr

inductive FailureClass where
  | input | handle | concurrency | replacement | config | internal
  deriving DecidableEq, Repr

namespace Failure

def ofFragment (fragment : FragmentKind) (fault : FragmentFault) : Failure :=
  .invalidReplacement fragment.word fault.message

def failureClass : Failure → FailureClass
  | .emptyInput _ | .invalidUtf8 _ _ => .input
  | .staleHandle _ _ => .handle
  | .concurrentRewrite _ => .concurrency
  | .invalidReplacement _ _ => .replacement
  | .config _ => .config
  | .internal _ => .internal

/-- Other files can still be processed. -/
def isRecoverable (f : Failure) : Bool :=
  match f.failureClass with
  | .input | .concurrency | .replacement => true
  | .handle | .config | .internal => false

def message (names : TreeNames) : Failure → String
  | .emptyInput sourceId => "Empty input: '" ++ sourceId ++ "' contains no DRL"
  | .invalidUtf8 sourceId offset =>
    "Invalid UTF-8 in '" ++ sourceId ++ "' at byte " ++ toString offset
  | .staleHandle handle (.otherTree tree) =>
    "Stale node handle " ++ handle.describe names ++ ": handle belongs to tree " ++
      names handle.tree ++ ", not " ++ names tree
  | .staleHandle handle (.outOfRange size) =>
    "Stale node handle " ++ handle.describe names ++ ": index out of range, tree has " ++
      toString size ++ " elements"
  | .concurrentRewrite tree => "Concurrent rewrite of tree " ++ names tree
  | .invalidReplacement fragment reason => "Invalid " ++ fragment ++ " replacement: " ++ reason
  | .config reason => "Configuration error: " ++ reason
  | .internal reason => "Internal error: " ++ reason

def diagnosticKind : Failure → DiagnosticKind
  | .staleHandle _ _ => .staleHandle
  | .emptyInput _ | .invalidUtf8 _ _ => .lexError
  | .concurrentRewrite _ => .rewriteConflict
  | .invalidReplacement _ _ | .config _ | .internal _ => .internal

/-- The failure as a report about a source. -/
def toDiagnostic (names : TreeNames) (sourceId : String) (f : Failure) : Diagnostic :=
  let span : Span :=
    match f with
    | .invalidUtf8 _ offset => ⟨offset, offset⟩
    | _ => ⟨0, 0⟩
  .ofKind .error f.diagnosticKind (f.message names) ⟨sourceId, span, 1, 1⟩

end Failure

end RuleLang
