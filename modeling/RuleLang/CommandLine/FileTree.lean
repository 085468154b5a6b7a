/-!
# File trees

What a command sees of the file system: files with their bytes, and directories.

## Main definitions

* `FileTree` — a file or a directory.
* `FileTree.find?` — what a path leads to.
* `FileTree.ruleFiles` — the rule files below a directory, in the order of their names.
* `Path.normal` — what two paths have in common if they are the same but for spelling.
-/

namespace RuleLang

namespace Path

/-- The names between the slashes of a path. -/
def names (path : String) : List String :=
  path.splitOn "/"

/-- The names that count: after the first, empty ones and single dots do not. -/
def normal (path : String) : List String :=
  match names path with
  | [] => []
  | first :: rest => first :: rest.filter fun n => n != "" && n != "."

/-- The path of an entry of a directory. -/
def child (path name : String) : String :=
  if path.endsWith "/" then path ++ name else path ++ "/" ++ name

/-- The extension of a file name: what follows its last dot, unless the name starts with that dot. -/
def extension? (name : String) : Option String :=
  match (name.splitOn ".").reverse with
  | last :: first :: [] => if first == "" then none else some last
  | last :: _ :: _ :: _ => some last
  | _ => none

end Path

inductive FileTree where
  | file (content : List UInt8)
  | directory (entries : List (String × FileTree))
  deriving Inhabited

namespace FileTree

def empty : FileTree :=
  .directory []

def isFile : FileTree → Bool
  | .file _ => true
  | .directory _ => false

def content? : FileTree → Option (List UInt8)
  | .file content => some content
  | .directory _ => none

/-- The entry of a directory with a name. -/
def entry? (name : String) : FileTree → Option FileTree
  | .file _ => none
  | .directory entries => entries.lookup name

/-- Follows names down from the first directory of a list, of which each is in the next. -/
def follow : List String → List FileTree → Option FileTree
  | _, [] => none
  | [], here :: _ => some here
  | name :: names, here :: outer =>
    if here.isFile then none
    else if name == "" || name == "." then follow names (here :: outer)
    else if name == ".." then follow names outer
    else
      match here.entry? name with
      | some entry => follow names (entry :: here :: outer)
      | none => none

/-- What a relative path leads to. -/
def find? (tree : FileTree) (path : String) : Option FileTree :=
  if path == "" || path.startsWith "/" then none else follow (Path.names path) [tree]

/-- Puts an entry in the place of the one that has the name, or at the end. -/
def putEntry (name : String) (tree : FileTree) : List (String × FileTree) → List (String × FileTree)
  | [] => [(name, tree)]
  | e :: entries => if e.1 == name then (name, tree) :: entries else e :: putEntry name tree entries

/-- Puts a file at a path of names; directories that are missing on the way are made. -/
def put (content : List UInt8) : List String → FileTree → FileTree
  | [], _ => .file content
  | name :: names, tree =>
    let entries := match tree with
      | .file _ => []
      | .directory entries => entries
    .directory (putEntry name (put content names ((entries.lookup name).getD empty)) entries)

/-- Names in the order of their characters. -/
def nameLe : List Char → List Char → Bool
  | [], _ => true
  | _ :: _, [] => false
  | c :: cs, d :: ds => c.toNat < d.toNat || (c == d && nameLe cs ds)

def isRuleFile (name : String) : Bool :=
  Path.extension? name == some "drl"

mutual

/-- The rule files in a tree at a path, with their paths. Entries of a directory come in the order of
their names, and what is in a directory comes in its place. -/
def ruleFiles (path name : String) : FileTree → List (String × List UInt8)
  | .file content => if isRuleFile name then [(path, content)] else []
  | .directory entries =>
    ((ruleFilesOf path entries).mergeSort fun a b => nameLe a.1.toList b.1.toList).flatMap Prod.snd

/-- The rule files of each entry, with the name of the entry. -/
def ruleFilesOf (path : String) :
    List (String × FileTree) → List (String × List (String × List UInt8))
  | [] => []
  | (name, tree) :: entries =>
    (name, ruleFiles (Path.child path name) name tree) :: ruleFilesOf path entries

end

end FileTree

end RuleLang
