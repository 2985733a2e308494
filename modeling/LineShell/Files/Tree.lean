import LineShell.Files.Path
import LineShell.System.Errno

/-!
# The file tree

Files, directories and symbolic links are nodes, numbered in the order of their creation; a
directory maps names to nodes. A node keeps its number when it is renamed, and is still there when
its last name is gone, so that a working directory can outlive its removal.

`FileTree.resolve` follows a path to the directory and the name that it ends in. Links on the way
are followed, at most forty of them; a link at the end is followed unless the caller keeps it.

| here | system call |
| --- | --- |
| `resolve` | the way that every call with a path goes |
| `isExecutable`, `pathIsExecutable` | `stat` and `access`, as `is_executable` of the shell asks for them |
| `pathOf` | `getcwd` |
-/

namespace LineShell

/-- The number of a node. -/
abbrev NodeId := Nat

inductive Node where
  | file (content : Bytes) (mode : Nat)
  | directory (parent : NodeId) (entries : List (String × NodeId))
  | link (target : String)
  /-- A program of the system, known by its name. -/
  | program (name : String)
  /-- The device that is always empty and takes everything. -/
  | null
  deriving Repr, DecidableEq

/-- All nodes; the first is the root directory. -/
structure FileTree where
  nodes : Array Node := #[.directory 0 []]
  deriving Repr, DecidableEq

namespace FileTree

def root : NodeId := 0

def node? (t : FileTree) (i : NodeId) : Option Node := t.nodes[i]?

def isDirectory (t : FileTree) (i : NodeId) : Bool :=
  match t.node? i with
  | some (.directory ..) => true
  | _ => false

/-- The entries of a directory, in the order of their creation. -/
def entries (t : FileTree) (i : NodeId) : List (String × NodeId) :=
  match t.node? i with
  | some (.directory _ es) => es
  | _ => []

def parent (t : FileTree) (i : NodeId) : NodeId :=
  match t.node? i with
  | some (.directory p _) => p
  | _ => root

/-- The node that a directory has under a name. -/
def find (t : FileTree) (directory : NodeId) (name : String) : Option NodeId :=
  (t.entries directory).lookup name

/-! ## Following a path -/

/-- Where a path ends: in a directory under a name, which may be vacant, or in a directory itself. -/
structure Spot where
  directory : NodeId
  name : Option String
  node : Option NodeId
  /-- The path asked for a directory. -/
  slash : Bool
  deriving Repr, DecidableEq

/-- Follows names from a directory. A link on the way is handed to `onLink` with the directory to go
on from, the names still to follow and whether a directory is asked for. -/
def walk (t : FileTree) (keep : Bool) (onLink : NodeId → List String → Bool → Except Errno Spot) :
    NodeId → Bool → List String → Except Errno Spot
  | here, slash, [] => .ok ⟨here, none, some here, slash⟩
  | here, slash, name :: rest =>
    if !t.isDirectory here then .error .notDirectory
    else if name = "." then walk t keep onLink here slash rest
    else if name = ".." then walk t keep onLink (t.parent here) slash rest
    else if Path.maxNameBytes < Path.size name then .error .nameTooLong
    else match t.find here name with
      | none => if rest.isEmpty then .ok ⟨here, some name, none, slash⟩ else .error .noEntry
      | some i =>
        match t.node? i with
        | some (.link target) =>
          if rest.isEmpty && keep && !slash then .ok ⟨here, some name, some i, slash⟩
          else
            let path := Path.ofString target
            onLink (if path.absolute then root else here) (path.names ++ rest)
              (if rest.isEmpty then slash || path.slash else slash)
        | _ => if rest.isEmpty then .ok ⟨here, some name, some i, slash⟩ else walk t keep onLink i slash rest

/-- How many links are followed on the way of one path. -/
def maxLinks : Nat := 40

/-- Follows names from a directory across at most `links` links. -/
def walkLinks (t : FileTree) (keep : Bool) : Nat → NodeId → List String → Bool → Except Errno Spot
  | 0 => fun here names slash => walk t keep (fun _ _ _ => .error .tooManyLinks) here slash names
  | links + 1 => fun here names slash => walk t keep (walkLinks t keep links) here slash names

/-- Follows a path from the working directory. With `keep`, a link at its end is not followed. -/
def resolve (t : FileTree) (cwd : NodeId) (path : String) (keep : Bool := false) : Except Errno Spot :=
  if path.toList.isEmpty then .error .noEntry
  else if Path.maxBytes < Path.size path then .error .nameTooLong
  else
    let p := Path.ofString path
    walkLinks t keep maxLinks (if p.absolute then root else cwd) p.names p.slash

/-- The node that a path leads to. -/
def locate (t : FileTree) (cwd : NodeId) (path : String) (keep : Bool := false) : Except Errno NodeId := do
  let spot ← t.resolve cwd path keep
  match spot.node with
  | none => .error .noEntry
  | some i => if spot.slash && !t.isDirectory i then .error .notDirectory else .ok i

/-- The directory that a path leads to. -/
def locateDirectory (t : FileTree) (cwd : NodeId) (path : String) : Except Errno NodeId := do
  let i ← t.locate cwd path
  if t.isDirectory i then .ok i else .error .notDirectory

/-! ## What is there -/

/-- Does the path lead to a directory? -/
def pathIsDirectory (t : FileTree) (cwd : NodeId) (path : String) : Bool :=
  match t.locate cwd path with
  | .ok i => t.isDirectory i
  | .error _ => false

/-- Is the node a file that may be executed? -/
def isExecutable (t : FileTree) (i : NodeId) : Bool :=
  match t.node? i with
  | some (.file _ mode) => mode % 2 = 1 || mode / 8 % 2 = 1 || mode / 64 % 2 = 1
  | some (.program _) => true
  | _ => false

/-- Does the path lead to a file that may be executed? -/
def pathIsExecutable (t : FileTree) (cwd : NodeId) (path : String) : Bool :=
  !Path.hasNul path && match t.locate cwd path with
    | .ok i => t.isExecutable i
    | .error _ => false

/-- What reading a node gives. -/
def contentOf (t : FileTree) (i : NodeId) : Except Errno Bytes :=
  match t.node? i with
  | some (.file content _) => .ok content
  | some (.directory ..) => .error .isDirectory
  | some (.program name) => .ok (0x7f :: Utf8.ofString ("ELF" ++ name))
  | _ => .ok []

/-- The name that a directory has in its parent. -/
def nameOf (t : FileTree) (i : NodeId) : Option String :=
  ((t.entries (t.parent i)).find? (·.2 = i)).map (·.1)

/-- Is the directory still part of the tree? -/
def isLinked (t : FileTree) (i : NodeId) : Bool :=
  i = root || (t.nameOf i).isSome

/-- The names from the root down to a directory. -/
def namesTo (t : FileTree) : Nat → NodeId → Option (List String)
  | 0, _ => none
  | depth + 1, i =>
    if i = root then some []
    else do
      let name ← t.nameOf i
      let above ← namesTo t depth (t.parent i)
      some (above ++ [name])

/-- The path of a directory; a removed one has none. -/
def pathOf (t : FileTree) (i : NodeId) : Except Errno String :=
  match t.namesTo (t.nodes.size + 1) i with
  | none => .error .noEntry
  | some [] => .ok "/"
  | some names => .ok (String.join (names.map ("/" ++ ·)))

end FileTree

end LineShell
