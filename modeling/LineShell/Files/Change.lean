import LineShell.Files.Tree

/-!
# Changing the file tree

Every operation names its target by a path and either gives the changed tree or fails and leaves
the tree as it was. Opening a file for writing creates it if there is none under that path.

| here | system call |
| --- | --- |
| `openWrite`, `makeDirectory`, `makeLink` | `open` for writing, `mkdir`, `symlink` |
| `removeDirectory`, `removeFile`, `rename` | `rmdir`, `unlink`, `rename` |
-/

namespace LineShell.FileTree

/-- Puts another node in the place of one. -/
def set (t : FileTree) (i : NodeId) (n : Node) : FileTree :=
  { t with nodes := t.nodes.setIfInBounds i n }

/-- Replaces the entries of a directory. -/
def setEntries (t : FileTree) (i : NodeId) (es : List (String × NodeId)) : FileTree :=
  t.set i (.directory (t.parent i) es)

/-- Adds a node that has no name. -/
def addNameless (t : FileTree) (n : Node) : NodeId × FileTree :=
  (t.nodes.size, { t with nodes := t.nodes.push n })

/-- Adds a node under a name that is vacant. -/
def add (t : FileTree) (directory : NodeId) (name : String) (n : Node) : NodeId × FileTree :=
  let (i, t) := t.addNameless n
  (i, t.setEntries directory (t.entries directory ++ [(name, i)]))

/-- Takes a name out of a directory. -/
def detach (t : FileTree) (directory : NodeId) (name : String) : FileTree :=
  t.setEntries directory ((t.entries directory).filter (·.1 ≠ name))

/-- The mode of a file that is created. -/
def newFileMode : Nat := 0o644

/-- Replaces the content of a file; other nodes stay as they are. -/
def setContent (t : FileTree) (i : NodeId) (content : Bytes) : FileTree :=
  match t.node? i with
  | some (.file _ mode) => t.set i (.file content mode)
  | _ => t

/-- Opens a file for writing: the node, and the tree with the file created or truncated. -/
def openWrite (t : FileTree) (cwd : NodeId) (path : String) (truncate : Bool) :
    Except Errno (NodeId × FileTree) := do
  let spot ← t.resolve cwd path
  match spot.name with
  | none => .error .isDirectory
  | some name =>
    if spot.slash then .error .isDirectory
    else match spot.node with
      | none =>
        if t.isLinked spot.directory then .ok (t.add spot.directory name (.file [] newFileMode))
        else .error .noEntry
      | some i =>
        match t.node? i with
        | some (.directory ..) => .error .isDirectory
        | some (.program _) => .error .denied
        | _ => .ok (i, if truncate then t.setContent i [] else t)

/-- Creates a node under a path that is vacant. -/
def create (t : FileTree) (cwd : NodeId) (path : String) (n : NodeId → Node) : Except Errno FileTree := do
  let spot ← t.resolve cwd path true
  match spot.name, spot.node with
  | some name, none =>
    if t.isLinked spot.directory then .ok (t.add spot.directory name (n spot.directory)).2
    else .error .noEntry
  | _, _ => .error .fileExists

def makeDirectory (t : FileTree) (cwd : NodeId) (path : String) : Except Errno FileTree :=
  t.create cwd path fun above => .directory above []

def makeLink (t : FileTree) (cwd : NodeId) (target path : String) : Except Errno FileTree :=
  t.create cwd path fun _ => .link target

/-- Removes an empty directory. -/
def removeDirectory (t : FileTree) (cwd : NodeId) (path : String) : Except Errno FileTree := do
  let spot ← t.resolve cwd path true
  match spot.name, spot.node with
  | none, _ => .error .invalid
  | some _, none => .error .noEntry
  | some name, some i =>
    if !t.isDirectory i then .error .notDirectory
    else if (t.entries i).isEmpty then .ok (t.detach spot.directory name)
    else .error .notEmpty

/-- Removes the name of a file or a link. -/
def removeFile (t : FileTree) (cwd : NodeId) (path : String) : Except Errno FileTree := do
  let spot ← t.resolve cwd path true
  match spot.name, spot.node with
  | none, _ => .error .isDirectory
  | some _, none => .error .noEntry
  | some name, some i =>
    if t.isDirectory i then .error .isDirectory
    else if spot.slash then .error .notDirectory
    else .ok (t.detach spot.directory name)

/-- Is a directory the given node, or below it? Looks at so many directories. -/
def isWithin (t : FileTree) (i : NodeId) : Nat → NodeId → Bool
  | 0, _ => false
  | n + 1, j => j = i || (j ≠ root && isWithin t i n (t.parent j))

/-- Gives a node another name, in one step; what had that name before has none afterwards. -/
def rename (t : FileTree) (cwd : NodeId) (source target : String) : Except Errno FileTree := do
  let old ← t.resolve cwd source true
  let new ← t.resolve cwd target true
  match old.name, old.node, new.name with
  | some oldName, some i, some newName =>
    if !t.isLinked new.directory then .error .noEntry
    else if new.node = some i then .ok t
    else if t.isDirectory i && t.isWithin i t.nodes.size new.directory then .error .invalid
    else
      let clash : Option Errno := match new.node with
        | none => if new.slash && !t.isDirectory i then some .notDirectory else none
        | some j =>
          if t.isDirectory j && !t.isDirectory i then some .isDirectory
          else if !t.isDirectory j && t.isDirectory i then some .notDirectory
          else if !(t.entries j).isEmpty then some .notEmpty
          else none
      match clash with
      | some e => .error e
      | none =>
        let t := (t.detach old.directory oldName).detach new.directory newName
        let t := t.setEntries new.directory (t.entries new.directory ++ [(newName, i)])
        .ok (match t.node? i with
          | some (.directory _ es) => t.set i (.directory new.directory es)
          | _ => t)
  | some _, none, _ => .error .noEntry
  | _, _, _ => .error .invalid

/-- Creates the directories that are missing on the way along `names`. -/
def makeDirectories (t : FileTree) (here : NodeId) : List String → NodeId × FileTree
  | [] => (here, t)
  | name :: rest =>
    match t.locate here name with
    | .ok i => makeDirectories t i rest
    | .error _ =>
      let (i, t) := t.add here name (.directory here [])
      makeDirectories t i rest

/-! ## Whole files -/

/-- Reads a file. -/
def readFile (t : FileTree) (cwd : NodeId) (path : String) : Except Errno Bytes := do
  t.contentOf (← t.locate cwd path)

/-- Writes a file, new or from its beginning. -/
def writeFile (t : FileTree) (cwd : NodeId) (path : String) (content : Bytes) : Except Errno FileTree := do
  let (i, t) ← t.openWrite cwd path true
  .ok (t.setContent i content)

/-- Adds to the end of a file, new or not. -/
def appendFile (t : FileTree) (cwd : NodeId) (path : String) (more : Bytes) : Except Errno FileTree := do
  let (i, t) ← t.openWrite cwd path false
  .ok (t.setContent i ((t.contentOf i).toOption.getD [] ++ more))

/-! ## Looking at a subtree -/

/-- What is found under a path. -/
inductive Shape where
  | file (content : Bytes)
  | directory
  | link (target : String)
  deriving Repr, DecidableEq

def shape (t : FileTree) (i : NodeId) : Shape :=
  match t.node? i with
  | some (.directory ..) => .directory
  | some (.link target) => .link target
  | _ => .file ((t.contentOf i).toOption.getD [])

/-- Everything below a directory, by its path from there. -/
def below (t : FileTree) : Nat → NodeId → List (String × Shape)
  | 0, _ => []
  | depth + 1, i =>
    (t.entries i).flatMap fun (name, j) =>
      (name, t.shape j) :: (below t depth j).map fun (path, s) => (name ++ "/" ++ path, s)

/-- Everything below the directory that a path leads to. -/
def snapshot (t : FileTree) (path : String) : List (String × Shape) :=
  match t.locate root path with
  | .ok i => t.below (t.nodes.size + 1) i
  | .error _ => []

/-- The entries of `after` that are new or different, and the paths of `before` that are gone. -/
def difference (before after : List (String × Shape)) : List (String × Option Shape) :=
  (after.filter fun (path, s) => before.lookup path ≠ some s).map (fun (path, s) => (path, some s)) ++
    (before.filter fun (path, _) => (after.lookup path).isNone).map fun (path, _) => (path, none)

end LineShell.FileTree
