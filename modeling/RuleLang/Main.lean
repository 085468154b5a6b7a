import RuleLang.CommandLine.Run

/-!
# The program

Reads the files that a command looks at, runs the command, and carries out what it answers.
-/

namespace RuleLang.CommandLine

/-- The file or directory at a path; of a directory, the rule files below it. -/
partial def load (path : String) : IO (Option FileTree) := do
  let place := (← IO.currentDir) / path
  if path == "" || !(← place.pathExists) then return none
  if ← place.isDir then
    let mut entries := []
    for entry in ← place.readDir do
      let name := entry.fileName
      let inside := Path.child path name
      if (← entry.path.isDir) || FileTree.isRuleFile name then
        if let some tree ← load inside then entries := (name, tree) :: entries
    return some (.directory entries)
  else return some (.file (← IO.FS.readBinFile place).toList)

/-- Everything at the places that a command looks at. -/
def loadAll (places : List String) : IO Lookup := do
  let trees ← places.mapM fun path => return (path, ← load path)
  return fun path => (trees.lookup path).join

end RuleLang.CommandLine

def main (arguments : List String) : IO UInt32 := do
  let places := match RuleLang.Invocation.ofArguments arguments with
    | .ok invocation => invocation.places
    | .error _ => []
  let outcome := RuleLang.runArguments (← RuleLang.CommandLine.loadAll places) arguments
  for (path, text) in outcome.written do
    IO.FS.writeFile path (String.ofList text)
  IO.print outcome.stdout
  IO.eprint outcome.stderr
  return outcome.exitCode.toUInt32
