import RuleLang.Toml.Entry
import RuleLang.Toml.Scalar
import RuleLang.Toml.Text

/-!
# TOML documents

## Main definitions

* `readValue` — a value of any kind.
* `Statement`, `readStatements` — the lines of a document.
* `parse` — the fields of a document, or `none` if it is malformed.
-/

namespace RuleLang.Toml

/-! ## Between the pieces -/

/-- Skips blanks, line breaks and comments; `comment` is set inside a comment. -/
def skipFiller (comment : Bool) : List Char → Option (List Char)
  | [] => some []
  | '\r' :: '\n' :: cs => skipFiller false cs
  | '\n' :: cs => skipFiller false cs
  | c :: cs =>
    if comment then (if isPlain c then skipFiller true cs else none)
    else if c = '#' then skipFiller true cs
    else if isSpace c then skipFiller false cs
    else some (c :: cs)

/-- Skips the rest of a line that holds nothing more than a comment. -/
def skipLineEnd (comment : Bool) : List Char → Option (List Char)
  | [] => some []
  | '\r' :: '\n' :: cs => some cs
  | '\n' :: cs => some cs
  | c :: cs =>
    if comment then (if isPlain c then skipLineEnd true cs else none)
    else if c = '#' then skipLineEnd true cs
    else if isSpace c then skipLineEnd false cs
    else none

def skipSpace (cs : List Char) : List Char :=
  cs.dropWhile isSpace

/-! ## Keys -/

def isBare (c : Char) : Bool :=
  c.isAlphanum || c == '_' || c == '-'

def readSimpleKey : List Char → Option (Key × List Char)
  | '"' :: cs => readBasic cs
  | '\x27' :: cs => readLiteral cs
  | cs =>
    let key := cs.takeWhile isBare
    if key.isEmpty then none else some (key, cs.dropWhile isBare)

/-- A key with dots: the path before the last dot, and the key after it. -/
def readKey : Nat → List Char → Option ((List Key × Key) × List Char)
  | 0, _ => none
  | fuel + 1, cs => do
    let (key, cs) ← readSimpleKey (skipSpace cs)
    match skipSpace cs with
    | '.' :: cs =>
      let ((path, last), cs) ← readKey fuel cs
      return ((key :: path, last), cs)
    | cs => return (([], key), cs)

/-! ## Values -/

mutual

/-- A value. The fuel exceeds twice the length of the text. -/
def readValue : Nat → List Char → Option (Value × List Char)
  | 0, _ => none
  | fuel + 1, cs =>
    match cs with
    | '[' :: cs => (readItems fuel cs).map fun (items, cs) => (.array items, cs)
    | '\x7b' :: cs =>
      (readFields fuel [] cs).map fun (entries, cs) => (.table (Entries.toFields entries), cs)
    | '"' :: _ => (readText cs).map fun (text, cs) => (.string text, cs)
    | '\x27' :: _ => (readText cs).map fun (text, cs) => (.string text, cs)
    | _ => readScalar cs

/-- The items of an array, up to its closing bracket. -/
def readItems : Nat → List Char → Option (List Value × List Char)
  | 0, _ => none
  | fuel + 1, cs => do
    match ← skipFiller false cs with
    | ']' :: cs => return ([], cs)
    | cs =>
      let (item, cs) ← readValue fuel cs
      match ← skipFiller false cs with
      | ']' :: cs => return ([item], cs)
      | ',' :: cs =>
        let (items, cs) ← readItems fuel cs
        return (item :: items, cs)
      | _ => none

/-- The fields of an inline table, up to its closing brace. Lines may end anywhere but in a key. -/
def readFields : Nat → Entries → List Char → Option (Entries × List Char)
  | 0, _, _ => none
  | fuel + 1, entries, cs => do
    match ← skipFiller false cs with
    | '\x7d' :: cs => return (entries, cs)
    | cs =>
      let ((path, key), cs) ← readKey fuel cs
      let cs ← after? '=' (← skipFiller false cs)
      let (value, cs) ← readValue fuel (← skipFiller false cs)
      let entries ← entries.assign path key value
      match ← skipFiller false cs with
      | '\x7d' :: cs => return (entries, cs)
      | ',' :: cs => readFields fuel entries cs
      | _ => none

end

/-! ## Statements -/

inductive Statement where
  | assign (path : List Key) (key : Key) (value : Value)
  | openTable (path : List Key) (key : Key)
  | openItem (path : List Key) (key : Key)

/-- One statement, with the rest of its line. -/
def readStatement (fuel : Nat) : List Char → Option (Statement × List Char)
  | '[' :: '[' :: cs => do
    let ((path, key), cs) ← readKey fuel cs
    return (.openItem path key, ← skipLineEnd false (← after? ']' (← after? ']' cs)))
  | '[' :: cs => do
    let ((path, key), cs) ← readKey fuel cs
    return (.openTable path key, ← skipLineEnd false (← after? ']' cs))
  | cs => do
    let ((path, key), cs) ← readKey fuel cs
    let (value, cs) ← readValue fuel (skipSpace (← after? '=' cs))
    return (.assign path key value, ← skipLineEnd false cs)

/-- All statements of a text. The fuel exceeds twice the length of the text. -/
def readStatements : Nat → List Char → Option (List Statement)
  | 0, _ => none
  | fuel + 1, cs => do
    match ← skipFiller false cs with
    | [] => return []
    | cs =>
      let (statement, cs) ← readStatement fuel cs
      return statement :: (← readStatements fuel cs)

/-- The tables built so far, and the header whose table is being filled. -/
structure Outline where
  entries : Entries := []
  current : List Key := []

/-- Adds a statement. -/
def Outline.add (o : Outline) : Statement → Option Outline
  | .assign path key value =>
    (Entries.within .implied (fun _ inner => inner.assign path key value) o.current .header
      o.entries).map fun entries => { o with entries }
  | .openTable path key =>
    (o.entries.openTable path key).map fun entries => ⟨entries, path ++ [key]⟩
  | .openItem path key =>
    (o.entries.openItem path key).map fun entries => ⟨entries, path ++ [key]⟩

/-- The fields of a document; a byte order mark at its start is no part of it. -/
def parse (source : List Char) : Option Value := do
  let cs := match source with
    | '\ufeff' :: cs => cs
    | cs => cs
  let statements ← readStatements (2 * cs.length + 2) cs
  let outline ← statements.foldlM Outline.add {}
  return .table (Entries.toFields outline.entries)

end RuleLang.Toml
