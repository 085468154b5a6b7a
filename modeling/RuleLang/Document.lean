import RuleLang.Config
import RuleLang.Text.Utf8
import RuleLang.Tree.SyntaxTree

/-!
# Documents

A source with a name, read under a configuration: its tree and its diagnostics.

## Main definitions

* `Document` — a tree and the diagnostics of reading it, by offset.
* `Document.read`, `Document.readBytes` — from a text and from bytes.
-/

namespace RuleLang

structure Document where
  tree : SyntaxTree
  diagnostics : List Diagnostic
  deriving Repr

namespace Document

def hasErrors (d : Document) : Bool :=
  d.diagnostics.any Diagnostic.isError

/-- The diagnostics of a parse by offset; lexical errors come first at one offset. -/
def diagnosticsOf (sourceId : String) (source : List Char) (parsed : Parsed) : List Diagnostic :=
  let map := LineMap.ofSource source
  Diagnostic.sort
    (parsed.lexErrors.map (Diagnostic.ofLexError sourceId map) ++
      parsed.syntaxErrors.map (Diagnostic.ofSyntaxError sourceId map))

/-- Reads a text as a tree with the given identity. Only a blank text can fail, if the configuration
refuses it. -/
def read (config : ParserConfig) (id : TreeId) (sourceId : String) (source : List Char) :
    Except Failure Document :=
  if config.rejectEmpty && Text.isAllBlank source then .error (.emptyInput sourceId)
  else
    let parsed := parse source (some config.maxErrors)
    .ok ⟨.ofElement id sourceId parsed.root, diagnosticsOf sourceId source parsed⟩

def readBytes (config : ParserConfig) (id : TreeId) (sourceId : String) (bytes : List UInt8) :
    Except Failure Document :=
  match Utf8.decode bytes with
  | .ok source => read config id sourceId source
  | .error offset => .error (.invalidUtf8 sourceId offset)

end Document

end RuleLang
