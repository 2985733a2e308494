import LineShell.Files.Tree
import LineShell.Text.Order

/-!
# Finding commands

The search path lists directories, separated by colons; empty ones are skipped. A name without a
slash is looked for in them in order, and the first executable file under that name is taken; a name
with a slash is a path of its own. `Search.named` goes the other way and lists what could be found.

| here | function of the shell |
| --- | --- |
| `directories` | `search_dirs` |
| `resolveIn`, `resolve` | `resolve_in`, `resolve`; `FileTree.pathIsExecutable` is `is_executable` |
| `executables` | `add_entry`, over the entries of a directory |
| `namedIn`, `named` | `executables_with_prefix_in`, `executables_with_prefix` |
-/

namespace LineShell.Search

/-- The directories of a search path (`search_dirs`). -/
def directories (searchPath : String) : List String :=
  ((Text.splitOn ':' searchPath.toList).filter (!·.isEmpty)).map String.ofList

/-- The path under which a command is executed, for a given search path (`resolve_in`). -/
def resolveIn (t : FileTree) (cwd : NodeId) (searchPath name : String) : Option String :=
  if name.toList.isEmpty then none
  else if name.toList.contains '/' then
    if t.pathIsExecutable cwd name then some name else none
  else ((directories searchPath).map fun d => Path.join d name).find? (t.pathIsExecutable cwd)

/-- The same with a search path that may be unset: nothing is found then. -/
def resolve (t : FileTree) (cwd : NodeId) (searchPath : Option String) (name : String) : Option String :=
  searchPath.bind fun p => resolveIn t cwd p name

/-- The executable files of a directory whose names begin with `stem`. -/
def executables (t : FileTree) (cwd : NodeId) (stem : List Char) (directory : String) : List String :=
  if Path.hasNul directory then []
  else match t.locateDirectory cwd directory with
    | .error _ => []
    | .ok i =>
      ((t.entries i).map (·.1)).filter fun name =>
        Text.beginsWith stem name && t.pathIsExecutable cwd (Path.join directory name)

/-- Names of all commands that begin with `stem`, in order, for a given search path. -/
def namedIn (t : FileTree) (cwd : NodeId) (searchPath stem : String) : List String :=
  Text.sortedUnique ((directories searchPath).flatMap (executables t cwd stem.toList))

/-- The same with a search path that may be unset. -/
def named (t : FileTree) (cwd : NodeId) (searchPath : Option String) (stem : String) : List String :=
  match searchPath with
  | some p => namedIn t cwd p stem
  | none => []

end LineShell.Search
