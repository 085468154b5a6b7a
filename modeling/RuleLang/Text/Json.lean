/-!
# JSON text

Writing JSON, on one line or with one entry a line.

## Main definitions

* `Json` — the values that reports are made of.
* `Json.compact`, `Json.pretty` — their texts. Fields keep their order.
-/

namespace RuleLang

inductive Json where
  | bool (value : Bool)
  | number (value : Nat)
  | string (value : String)
  | array (items : List Json)
  | object (fields : List (String × Json))

namespace Json

/-- A character inside a string: only the two characters of the syntax and control characters are
escaped. -/
def escapeChar (c : Char) : List Char :=
  if c = '"' then ['\\', '"']
  else if c = '\\' then ['\\', '\\']
  else if c = '\x08' then ['\\', 'b']
  else if c = '\x0c' then ['\\', 'f']
  else if c = '\n' then ['\\', 'n']
  else if c = '\r' then ['\\', 'r']
  else if c = '\t' then ['\\', 't']
  else if c.toNat < 0x20 then
    ['\\', 'u', '0', '0', Nat.digitChar (c.toNat / 16), Nat.digitChar (c.toNat % 16)]
  else [c]

def quote (s : String) : String :=
  String.ofList ('"' :: s.toList.flatMap escapeChar ++ ['"'])

/-- How entries are set apart. -/
inductive Layout where
  | compact
  /-- Every entry on a line of its own, two spaces deeper than its brackets. -/
  | pretty
  deriving DecidableEq, Repr

/-- The start of a line at a depth. -/
def indent (depth : Nat) : String :=
  String.ofList ('\n' :: List.replicate (2 * depth) ' ')

/-- Entries in brackets that stand at a depth. -/
def enclose (layout : Layout) (depth : Nat) (left right : String) : List String → String
  | [] => left ++ right
  | entries =>
    match layout with
    | .compact => left ++ ",".intercalate entries ++ right
    | .pretty =>
      left ++ indent (depth + 1) ++ ("," ++ indent (depth + 1)).intercalate entries ++
        indent depth ++ right

/-- The key of a field, with what sets it apart from the value. -/
def fieldStart (layout : Layout) (key : String) : String :=
  match layout with
  | .compact => quote key ++ ":"
  | .pretty => quote key ++ ": "

mutual

/-- The text of a value that stands at a depth. -/
def render (layout : Layout) (depth : Nat) : Json → String
  | .bool true => "true"
  | .bool false => "false"
  | .number n => toString n
  | .string s => quote s
  | .array items => enclose layout depth "[" "]" (renderItems layout (depth + 1) items)
  | .object fields => enclose layout depth "\x7b" "\x7d" (renderFields layout (depth + 1) fields)

def renderItems (layout : Layout) (depth : Nat) : List Json → List String
  | [] => []
  | item :: items => item.render layout depth :: renderItems layout depth items

def renderFields (layout : Layout) (depth : Nat) : List (String × Json) → List String
  | [] => []
  | (key, value) :: fields =>
    (fieldStart layout key ++ value.render layout depth) :: renderFields layout depth fields

end

def compact (value : Json) : String :=
  value.render .compact 0

def pretty (value : Json) : String :=
  value.render .pretty 0

end Json

end RuleLang
