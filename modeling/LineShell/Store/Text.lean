import LineShell.Failure
import LineShell.Files.Change

/-!
# Text files as stores

A store is a text file of one record per line. A store that does not exist is empty; one that is no
text cannot be read. Adding a record creates the file and does not look at what it holds.

| here | function of the shell |
| --- | --- |
| `read?` | the reading of `Bookmarks::load` and of `Shortcuts::lookup` |
| `addLine` | the appending of `Bookmarks::save` and of `Shortcuts::set` |
-/

namespace LineShell.Store

/-- The text of a store; none if there is no such file. -/
def read? (t : FileTree) (cwd : NodeId) (path : String) : Except IoError (Option (List Char)) :=
  if Path.hasNul path then .error .nulInPath
  else match t.readFile cwd path with
    | .error e => if IoError.isMissing (.system e) then .ok none else .error (.system e)
    | .ok bytes => match Utf8.decode? bytes with
      | some text => .ok (some text)
      | none => .error .invalidText

/-- Adds a record as a line. -/
def addLine (t : FileTree) (cwd : NodeId) (path : String) (record : List Char) :
    Except IoError FileTree :=
  if Path.hasNul path then .error .nulInPath
  else (t.appendFile cwd path (Utf8.encode (record ++ ['\n']))).mapError .system

end LineShell.Store
