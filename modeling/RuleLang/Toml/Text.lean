import RuleLang.Toml.Value

/-!
# TOML strings

Four kinds of string: basic ones with escapes and literal ones without, each on one line or over
several.

## Main definitions

* `readBasic`, `readLiteral`, `readMultiBasic`, `readMultiLiteral` — strings from after their opening
  quotes on.
* `readText` — a string of any kind.
* `writeText` — a string in the plainest kind that can hold it.
-/

namespace RuleLang.Toml

/-! ## Reading -/

/-- Escapes of one letter. -/
def ofEscape? : Char → Option Char
  | 'b' => some '\x08'
  | 't' => some '\t'
  | 'n' => some '\n'
  | 'f' => some '\x0c'
  | 'r' => some '\r'
  | 'e' => some '\x1b'
  | '"' => some '"'
  | '\\' => some '\\'
  | _ => none

def hexDigit? (c : Char) : Option Nat :=
  if '0' ≤ c && c ≤ '9' then some (c.toNat - '0'.toNat)
  else if 'a' ≤ c && c ≤ 'f' then some (c.toNat - 'a'.toNat + 10)
  else if 'A' ≤ c && c ≤ 'F' then some (c.toNat - 'A'.toNat + 10)
  else none

/-- The character with a code in hexadecimal digits. -/
def charOfHex? (digits : List Char) : Option Char :=
  (digits.foldlM (fun n c => (hexDigit? c).map fun d => 16 * n + d) 0).bind fun code =>
    if code.isValidChar then some (Char.ofNat code) else none

/-- An escape from after its backslash on. -/
def readEscape : List Char → Option (Char × List Char)
  | 'x' :: a :: b :: cs => (charOfHex? [a, b]).map fun c => (c, cs)
  | 'u' :: a :: b :: c :: d :: cs => (charOfHex? [a, b, c, d]).map fun c => (c, cs)
  | 'U' :: a :: b :: c :: d :: e :: f :: g :: h :: cs =>
    (charOfHex? [a, b, c, d, e, f, g, h]).map fun c => (c, cs)
  | c :: cs => (ofEscape? c).map fun c => (c, cs)
  | [] => none

theorem length_of_readEscape {cs rest : List Char} {c : Char} (h : readEscape cs = some (c, rest)) :
    rest.length < cs.length := by
  unfold readEscape at h
  split at h <;> simp only [Option.map_eq_some_iff, Prod.mk.injEq, reduceCtorEq] at h <;>
    obtain ⟨_, _, _, rfl⟩ := h <;> simp only [List.length_cons] <;> omega

/-- Puts a character before a text that is read. -/
def before (c : Char) (read : Option (List Char × List Char)) : Option (List Char × List Char) :=
  read.map fun (text, rest) => (c :: text, rest)

def readBasic (cs : List Char) : Option (List Char × List Char) :=
  match cs with
  | [] => none
  | '"' :: rest => some ([], rest)
  | '\\' :: rest =>
    match h : readEscape rest with
    | some (c, rest) =>
      have := length_of_readEscape h
      before c (readBasic rest)
    | none => none
  | c :: rest => if isPlain c then before c (readBasic rest) else none
termination_by cs.length

def readLiteral : List Char → Option (List Char × List Char)
  | [] => none
  | '\x27' :: rest => some ([], rest)
  | c :: rest => if isPlain c then before c (readLiteral rest) else none

/-- Skips the blanks and line breaks that an escaped line end takes away with it. -/
def skipFolded : List Char → List Char
  | '\r' :: '\n' :: cs => skipFolded cs
  | '\n' :: cs => skipFolded cs
  | c :: cs => if isSpace c then skipFolded cs else c :: cs
  | [] => []

theorem length_skipFolded_le (cs : List Char) : (skipFolded cs).length ≤ cs.length := by
  fun_induction skipFolded cs <;> simp_all only [List.length_cons, Nat.le_refl] <;> omega

/-- Up to two quotes can stand before the closing ones. A line break is a line feed, however it is
written, and a backslash before it takes it away with all blanks that follow. -/
def readMultiBasic (cs : List Char) : Option (List Char × List Char) :=
  match cs with
  | [] => none
  | '"' :: '"' :: '"' :: '"' :: '"' :: rest => some (['"', '"'], rest)
  | '"' :: '"' :: '"' :: '"' :: rest => some (['"'], rest)
  | '"' :: '"' :: '"' :: rest => some ([], rest)
  | '\r' :: '\n' :: rest => before '\n' (readMultiBasic rest)
  | '\n' :: rest => before '\n' (readMultiBasic rest)
  | '\\' :: rest =>
    let line := rest.dropWhile isSpace
    if line.head? = some '\n' || line.take 2 = ['\r', '\n'] then
      have := length_skipFolded_le rest
      readMultiBasic (skipFolded rest)
    else
      match h : readEscape rest with
      | some (c, rest) =>
        have := length_of_readEscape h
        before c (readMultiBasic rest)
      | none => none
  | c :: rest => if isPlain c then before c (readMultiBasic rest) else none
termination_by cs.length

def readMultiLiteral : List Char → Option (List Char × List Char)
  | [] => none
  | '\x27' :: '\x27' :: '\x27' :: '\x27' :: '\x27' :: rest => some (['\x27', '\x27'], rest)
  | '\x27' :: '\x27' :: '\x27' :: '\x27' :: rest => some (['\x27'], rest)
  | '\x27' :: '\x27' :: '\x27' :: rest => some ([], rest)
  | '\r' :: '\n' :: rest => before '\n' (readMultiLiteral rest)
  | c :: rest => if c = '\n' || isPlain c then before c (readMultiLiteral rest) else none

/-- A line break right after the opening quotes is not part of the string. -/
def dropFirstBreak : List Char → List Char
  | '\r' :: '\n' :: cs => cs
  | '\n' :: cs => cs
  | cs => cs

/-- A string of any kind. -/
def readText : List Char → Option (List Char × List Char)
  | '"' :: '"' :: '"' :: cs => readMultiBasic (dropFirstBreak cs)
  | '\x27' :: '\x27' :: '\x27' :: cs => readMultiLiteral (dropFirstBreak cs)
  | '"' :: cs => readBasic cs
  | '\x27' :: cs => readLiteral cs
  | _ => none

/-! ## Writing -/

/-- A control character that only an escape can stand for. -/
def isControl (c : Char) : Bool :=
  !isPlain c && c != '\n'

/-- The length of the longest run of a character, after a run of `run`. -/
def longestRun (quote : Char) (run : Nat) : List Char → Nat
  | [] => run
  | c :: cs => if c = quote then longestRun quote (run + 1) cs else max run (longestRun quote 0 cs)

/-- The escape of a character other than a quote in a basic string. -/
def escapeChar (multi : Bool) (c : Char) : List Char :=
  if c = '\\' then ['\\', '\\']
  else if c = '\t' then ['\\', 't']
  else if c = '\n' then (if multi then ['\n'] else ['\\', 'n'])
  else if c = '\r' then ['\\', 'r']
  else if c = '\x08' then ['\\', 'b']
  else if c = '\x0c' then ['\\', 'f']
  else if isControl c then
    ['\\', 'u', '0', '0', (Nat.digitChar (c.toNat / 16)).toUpper,
      (Nat.digitChar (c.toNat % 16)).toUpper]
  else [c]

/-- The inside of a basic string. Over several lines a run of two quotes can stand. -/
def escapeBasic (multi : Bool) (run : Nat) : List Char → List Char
  | [] => []
  | c :: cs =>
    if c = '"' then
      if multi && run < 2 then c :: escapeBasic multi (run + 1) cs
      else '\\' :: c :: escapeBasic multi 0 cs
    else escapeChar multi c ++ escapeBasic multi 0 cs

def writeBasic (text : List Char) : List Char :=
  '"' :: escapeBasic false 0 text ++ ['"']

/-- Text in triple quotes; one with line breaks starts on a line of its own. -/
def tripled (quote : Char) (breaks : Bool) (inside : List Char) : List Char :=
  List.replicate 3 quote ++ (if breaks then ['\n'] else []) ++ inside ++ List.replicate 3 quote

/-- A string in the first kind that shows it without escapes other than of tabs, or else with
escapes. -/
def writeText (text : List Char) : List Char :=
  let breaks := text.contains '\n'
  let control := text.any isControl
  let escape := text.contains '\\'
  let quotes := longestRun '"' 0 text
  let apostrophes := longestRun '\x27' 0 text
  if !control && !escape && quotes == 0 && !breaks then writeBasic text
  else if !control && apostrophes == 0 && !breaks then '\x27' :: text ++ ['\x27']
  else if !control && !escape && quotes ≤ 2 then tripled '"' breaks (escapeBasic true 0 text)
  else if !control && apostrophes ≤ 2 then tripled '\x27' breaks text
  else if breaks then tripled '"' breaks (escapeBasic true 0 text)
  else writeBasic text

end RuleLang.Toml
