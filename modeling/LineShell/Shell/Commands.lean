import LineShell.Builtin
import LineShell.Pipeline.Parse
import LineShell.Shell.State
import LineShell.Store.Bookmarks
import LineShell.Store.Shortcuts
import LineShell.Sweep

/-!
# What the builtin commands do

The arguments of a builtin are read as a request first; then the request is carried out. Some
requests execute another pipeline: a stored bookmark, the `cd` of a shortcut, the pings of a sweep.
How that is done is given as a parameter, `again`, which may come to nothing.

| here | function of the shell |
| --- | --- |
| `Outcome` | `Eval` |
| `Bookmarks.indexOf?` | `parse_index` |
| `bookmark` and its requests | `builtin_bookmark` |
| `changeDirectory` | `builtin_cd` |
| `pingSweep`, `pingEach` | `builtin_pingsweep`, and its loop |
| `short` and its requests | `builtin_short` |
| `runBuiltin` | the call of what `match_builtin` has found, in `execute` |
-/

namespace LineShell

/-- What executing a line comes to. -/
inductive Outcome where
  /-- It ran to its end, with this status. -/
  | done (status : UInt8)
  /-- It was left running. -/
  | detached
  /-- The shell is to end. -/
  | exit
  deriving Repr, DecidableEq

/-- The status of a command that was used wrongly. -/
def statusUsage : UInt8 := 2

namespace Bookmarks

/-- What `bookmark` is asked to do. An index that cannot be read is missing. -/
inductive Request where
  | usage
  | list
  | remove (index : Option Nat)
  | replay (index : Option Nat)
  | save (command : String)
  deriving Repr, DecidableEq

/-- Reads an index among the arguments (`parse_index`). -/
def indexOf? (arguments : List String) : Option Nat :=
  arguments.head?.bind fun index => Bookmark.readIndex? index.toList

def Request.ofArguments : List String → Request
  | [] => .usage
  | "-l" :: _ => .list
  | "-d" :: rest => .remove (indexOf? rest)
  | "-i" :: rest => .replay (indexOf? rest)
  | arguments => .save (" ".intercalate arguments)

end Bookmarks

namespace Shortcuts

/-- What `short` is asked to do. -/
inductive Request where
  | usage
  | set (name : String)
  | jump (name : String)
  | unknown
  deriving Repr, DecidableEq

def Request.ofArguments : List String → Request
  | "set" :: name :: _ => .set name
  | "jump" :: name :: _ => .jump name
  | _ :: _ :: _ => .unknown
  | _ => .usage

/-- May the alias be stored? It could not be read back otherwise. -/
def isAlias (name : String) : Bool :=
  !name.toList.isEmpty && !name.toList.contains ':'

end Shortcuts

namespace Shell

variable {κ : Type u}

/-- How another pipeline is executed, if that comes to an end. -/
abbrev Again (κ : Type u) := Pipeline → Shell κ → Option (Outcome × Shell κ)

/-- `cd` (`builtin_cd`): without an argument nothing happens; more than one is too many, and they do not count. -/
def changeDirectory (s : Shell κ) : List String → Outcome × Shell κ
  | [] => (.done 0, s)
  | path :: _ =>
    match s.host.changeDirectory path with
    | .ok host => (.done 0, { s with host })
    | .error e => (.done 1, s.reportFor "cd" e.text)

/-- Prints a line and fails. -/
def refuse (s : Shell κ) (line : String) (status : UInt8) : Outcome × Shell κ :=
  (.done status, s.print line)

/-- Fails because a store could not be used. -/
def failOn (s : Shell κ) (command : String) (e : IoError) : Outcome × Shell κ :=
  (.done 1, s.reportFor command e.message)

/-! ## Bookmarks -/

/-- Prints all bookmarks. -/
def listBookmarks (s : Shell κ) : Outcome × Shell κ :=
  match Bookmarks.load s.host.world.files s.host.cwd s.config.dataDir with
  | .error e => s.failOn "bookmark" e
  | .ok bs => (.done 0, bs.foldl (fun s b => s.print (String.ofList b.record)) s)

def noBookmark (index : Nat) : String := "No bookmark " ++ String.ofList (Number.digits index)

/-- Removes a bookmark. -/
def removeBookmark (s : Shell κ) (index : Nat) : Outcome × Shell κ :=
  match Bookmarks.remove s.host.world.files s.host.cwd s.config.dataDir index with
  | (result, files) =>
    let s := { s with host := s.host.withFiles files }
    match result with
    | .error e => s.failOn "bookmark" e
    | .ok true => (.done 0, s)
    | .ok false => s.refuse (noBookmark index) 1

/-- Executes a bookmark. -/
def replayBookmark (again : Again κ) (s : Shell κ) (index : Nat) (background : Bool) :
    Option (Outcome × Shell κ) :=
  match Bookmarks.load s.host.world.files s.host.cwd s.config.dataDir with
  | .error e => some (s.failOn "bookmark" e)
  | .ok [] => some (s.refuse "No bookmarks exist" 1)
  | .ok bs =>
    match bs.find? (·.index = index) with
    | none => some (s.refuse (noBookmark index) 1)
    | some b =>
      let p := Pipeline.parse b.command
      again (if background then p.setBackground true else p) s

/-- Stores a bookmark, unless it would run `bookmark` itself. -/
def saveBookmark (s : Shell κ) (command : String) : Outcome × Shell κ :=
  if (Pipeline.parse command).head.name = Builtin.bookmark.name then
    s.refuse "Illegal use of bookmark in bookmark" 1
  else match Bookmarks.save s.host.world.files s.host.cwd s.config.dataDir command with
    | .error e => s.failOn "bookmark" e
    | .ok (_, files) => (.done 0, { s with host := s.host.withFiles files })

/-- `bookmark` (`builtin_bookmark`) -/
def bookmark (again : Again κ) (s : Shell κ) (background : Bool) :
    Bookmarks.Request → Option (Outcome × Shell κ)
  | .usage => some (s.refuse "Usage: bookmark <command> | -l | -d <index> | -i <index>" statusUsage)
  | .list => some s.listBookmarks
  | .remove none => some (s.refuse "Usage: bookmark -d <index>" statusUsage)
  | .remove (some index) => some (s.removeBookmark index)
  | .replay none => some (s.refuse "Usage: bookmark -i <index>" statusUsage)
  | .replay (some index) => s.replayBookmark again index background
  | .save command => some (s.saveBookmark command)

/-! ## Shortcuts -/

/-- Stores the working directory under an alias. -/
def setShortcut (s : Shell κ) (name : String) : Outcome × Shell κ :=
  if !Shortcuts.isAlias name then s.refuse "Invalid alias" 1
  else match s.host.workingDirectory with
    | .error e => s.failOn "short" (.system e)
    | .ok directory =>
      match Shortcuts.set s.host.world.files s.host.cwd s.config.dataDir name directory with
      | .error e => s.failOn "short" e
      | .ok (record, files) =>
        (.done 0, { s with host := s.host.withFiles files }.print (record ++ " set"))

/-- Changes to the directory of an alias. -/
def jump (again : Again κ) (s : Shell κ) (name : String) (background : Bool) :
    Option (Outcome × Shell κ) :=
  match Shortcuts.lookup s.host.world.files s.host.cwd s.config.dataDir name with
  | .error e => some (s.failOn "short" e)
  | .ok none => some (s.refuse "Invalid alias" 1)
  | .ok (some directory) =>
    again (.single { name := Builtin.cd.name, arguments := [directory], background }) s

/-- `short` (`builtin_short`) -/
def short (again : Again κ) (s : Shell κ) (background : Bool) :
    Shortcuts.Request → Option (Outcome × Shell κ)
  | .usage => some (s.refuse "Usage: short set|jump <alias>" statusUsage)
  | .set name => some (s.setShortcut name)
  | .jump name => s.jump again name background
  | .unknown => some (s.refuse "Invalid Command" statusUsage)

/-! ## Sweeps -/

/-- Pings hosts one after the other, whatever comes of it; the last status counts. -/
def pingEach (again : Again κ) (subnet : String) (background : Bool) :
    List Nat → UInt8 → Shell κ → Option (Outcome × Shell κ)
  | [], status, s => some (if background then .detached else .done status, s)
  | host :: hosts, status, s =>
    match again (.single { pingStage subnet host with background }) s with
    | none => none
    | some (.done status, s) => pingEach again subnet background hosts status s
    | some (.detached, s) => pingEach again subnet background hosts status s
    | some (.exit, s) => some (.exit, s)

/-- `pingsweep` (`builtin_pingsweep`) -/
def pingSweep (again : Again κ) (s : Shell κ) (background : Bool) :
    List String → Option (Outcome × Shell κ)
  | [subnet, first, last] =>
    match SweepRange.read? first last with
    | none => some (s.refuse "Invalid range operators" statusUsage)
    | some range =>
      if (Search.resolve s.host.world.files s.host.cwd s.host.searchPath "ping").isNone then
        let e : LaunchError := ⟨"ping", .notFound⟩
        some (.done e.status, s.report e.message)
      else
        pingEach again subnet background range.hosts 0
          (s.print ("Scanning on subnet " ++ subnet ++ " from " ++ first ++ " to " ++ last))
  | _ => some (s.refuse "Usage: pingsweep $subnet $start $end\nIn range (0,254)" statusUsage)

/-- Runs a builtin. -/
def runBuiltin (again : Again κ) (s : Shell κ) (arguments : List String) (background : Bool) :
    Builtin → Option (Outcome × Shell κ)
  | .bookmark => s.bookmark again background (.ofArguments arguments)
  | .cd => some (s.changeDirectory arguments)
  | .exit => some (.exit, s)
  | .pingsweep => s.pingSweep again background arguments
  | .short => s.short again background (.ofArguments arguments)

end Shell

end LineShell
