import LineShell.Store.Text

/-!
# Shortcuts

A shortcut is a directory kept under an alias. The store has one line for each, the alias and the
directory with a colon between them, in the order of creation; the first line of an alias counts.

| here | function of the shell |
| --- | --- |
| `set`, `lookup` | `Shortcuts::set`, `Shortcuts::lookup` |
| `find?` | the search of `Shortcuts::lookup` through the lines |
-/

namespace LineShell.Shortcuts

/-- The line of the store for a shortcut. -/
def record (name directory : String) : List Char :=
  name.toList ++ ':' :: directory.toList

/-- The directory of an alias in a store's text. -/
def find? (text : List Char) (name : String) : Option String :=
  (((Text.lines text).filterMap (Text.splitAt? ':')).find? (·.1 = name.toList)).map
    fun (_, directory) => String.ofList directory

/-- The file of a data directory. -/
def path (dataDir : String) : String := Path.join dataDir "shorttxt"

variable (t : FileTree) (cwd : NodeId) (dataDir : String)

/-- Adds a shortcut: its record, and the changed tree (`Shortcuts::set`). -/
def set (name directory : String) : Except IoError (String × FileTree) := do
  let t ← Store.addLine t cwd (path dataDir) (record name directory)
  .ok (String.ofList (record name directory), t)

/-- The directory of an alias; a store that does not exist has none. -/
def lookup (name : String) : Except IoError (Option String) := do
  let text ← Store.read? t cwd (path dataDir)
  .ok (find? (text.getD []) name)

end LineShell.Shortcuts
