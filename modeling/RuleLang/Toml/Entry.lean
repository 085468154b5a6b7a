import RuleLang.Toml.Value

/-!
# TOML tables in the making

Tables are put together from headers and from keys with dots. What may still be added to a table
depends on how it came to be.

## Main definitions

* `Entry`, `Origin` — what a key stands for while a document is read.
* `Entries.within` — changes the table at the end of a path.
* `Entries.assign`, `Entries.openTable`, `Entries.openItem` — a key with a value, and the two kinds
  of header.
-/

namespace RuleLang.Toml

/-- How a table came to be. -/
inductive Origin where
  /-- By its own header. -/
  | header
  /-- By the header of a table in it. -/
  | implied
  /-- By a key with dots. -/
  | dotted
  deriving DecidableEq, Repr

inductive Entry where
  /-- A value; an inline table is one too. Nothing can be added to it. -/
  | value (value : Value)
  | table (origin : Origin) (entries : List (Key × Entry))
  /-- The tables of an array, which have a header each. Additions go to the last. -/
  | tables (earlier : List (List (Key × Entry))) (last : List (Key × Entry))

abbrev Entries := List (Key × Entry)

mutual

def Entry.toValue : Entry → Value
  | .value v => v
  | .table _ entries => .table (Entries.toFields entries)
  | .tables earlier last => .array (Entries.toItems earlier ++ [.table (Entries.toFields last)])

def Entries.toFields : List (Key × Entry) → List (Key × Value)
  | [] => []
  | (key, entry) :: entries => (key, entry.toValue) :: Entries.toFields entries

def Entries.toItems : List (List (Key × Entry)) → List Value
  | [] => []
  | entries :: items => .table (Entries.toFields entries) :: Entries.toItems items

end

namespace Entries

def get? (entries : Entries) (key : Key) : Option Entry :=
  (entries.find? fun e => e.1 == key).map Prod.snd

/-- Puts an entry in the place of the one that has the key, or at the end. -/
def put (key : Key) (entry : Entry) : Entries → Entries
  | [] => [(key, entry)]
  | e :: entries => if e.1 == key then (key, entry) :: entries else e :: put key entry entries

/-- Changes the table at the end of a path, by a function that is told how the table came to be.
Tables that are missing on the way come to be as `missing`. A path of a key with dots does not enter
a table that has a header. -/
def within (missing : Origin) (change : Origin → Entries → Option Entries) :
    List Key → Origin → Entries → Option Entries
  | [], origin, entries => change origin entries
  | key :: path, _, entries =>
    match entries.get? key with
    | none =>
      (within missing change path missing []).map fun inner =>
        entries.put key (.table missing inner)
    | some (.table origin inner) =>
      if missing = .dotted && origin = .header then none
      else
        (within missing change path origin inner).map fun inner =>
          entries.put key (.table origin inner)
    | some (.tables earlier last) =>
      if missing = .dotted then none
      else
        (within missing change path .header last).map fun last =>
          entries.put key (.tables earlier last)
    | some (.value _) => none

/-- Gives a key a value. The tables that dots lead through come from dots alone, and no key is given
twice. -/
def assign (path : List Key) (key : Key) (value : Value) (entries : Entries) : Option Entries :=
  within .dotted (fun origin inner =>
    if (!path.isEmpty && origin != .dotted) || (inner.get? key).isSome then none
    else some (inner.put key (.value value))) path .header entries

/-- The header of a table, which can come after those of tables in it, but only once. -/
def openTable (path : List Key) (key : Key) (entries : Entries) : Option Entries :=
  within .implied (fun _ inner =>
    match inner.get? key with
    | none => some (inner.put key (.table .header []))
    | some (.table .implied old) => some (inner.put key (.table .header old))
    | some _ => none) path .header entries

/-- The header of one more table of an array. -/
def openItem (path : List Key) (key : Key) (entries : Entries) : Option Entries :=
  within .implied (fun _ inner =>
    match inner.get? key with
    | none => some (inner.put key (.tables [] []))
    | some (.tables earlier last) => some (inner.put key (.tables (earlier ++ [last]) []))
    | some _ => none) path .header entries

end Entries

end RuleLang.Toml
