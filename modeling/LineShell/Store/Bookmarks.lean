import LineShell.Store.Text
import LineShell.Text.Number

/-!
# Bookmarks

A bookmark is a command kept under an index. The store has one line for each, the index and the
command in double quotes; lines that are no such record are passed over. A new bookmark takes the
index after the highest one, and a command is kept only once. Removing an index writes the other
bookmarks to a file beside the store, which then takes its place in one step.

| here | function of the shell |
| --- | --- |
| `Bookmark.ofLine?`, `Bookmark.record` | `Bookmark::parse`, `Bookmark::record` |
| `load`, `save`, `get`, `remove` | `Bookmarks::load`, `save`, `get`, `remove` |
| `nextIndex` | how `Bookmarks::save` finds the new index |
-/

namespace LineShell

structure Bookmark where
  index : Nat
  command : String
  deriving Repr, DecidableEq

namespace Bookmark

/-- The highest index that is read. -/
def maxIndex : Nat := 18446744073709551615

/-- An index as the user or the store writes it. -/
def readIndex? (text : List Char) : Option Nat := Number.read? maxIndex text

/-- Takes off a pair of double quotes around the text, if there is one. -/
def withoutQuotes : List Char → List Char
  | '\x22' :: cs => (Text.dropLast? '\x22' cs).getD ('\x22' :: cs)
  | cs => cs

/-- Reads a line of the store. -/
def ofLine? (line : List Char) : Option Bookmark := do
  let (index, command) ← Text.splitAt? ' ' line
  let index ← readIndex? index
  some ⟨index, String.ofList (withoutQuotes command)⟩

/-- The line of the store for a bookmark. -/
def record (b : Bookmark) : List Char :=
  Number.digits b.index ++ [' ', '\x22'] ++ b.command.toList ++ ['\x22']

end Bookmark

namespace Bookmarks

/-- The bookmarks of a store's text, in its order. -/
def ofText (text : List Char) : List Bookmark :=
  (Text.lines text).filterMap Bookmark.ofLine?

/-- The text of a store with these bookmarks. -/
def toText (bs : List Bookmark) : List Char :=
  bs.flatMap fun b => b.record ++ ['\n']

/-- The index of the next bookmark. -/
def nextIndex (bs : List Bookmark) : Nat :=
  bs.foldl (fun n b => max n (b.index + 1)) 0

/-- The file of a data directory. -/
def path (dataDir : String) : String := Path.join dataDir "bookmarktxt"

/-- Where the store is written before it takes the place of the old one. -/
def draftPath (dataDir : String) : String := path dataDir ++ ".tmp"

variable (t : FileTree) (cwd : NodeId) (dataDir : String)

/-- The stored bookmarks. -/
def load : Except IoError (List Bookmark) := do
  let text ← Store.read? t cwd (path dataDir)
  .ok (ofText (text.getD []))

/-- Stores a command unless it is there already; the new index, if any (`Bookmarks::save`). -/
def save (command : String) : Except IoError (Option Nat × FileTree) := do
  let bs ← load t cwd dataDir
  if bs.any (·.command = command) then .ok (none, t)
  else
    let index := nextIndex bs
    let t ← Store.addLine t cwd (path dataDir) (Bookmark.record ⟨index, command⟩)
    .ok (some index, t)

/-- The bookmark of an index. -/
def get (index : Nat) : Except IoError (Option Bookmark) := do
  .ok ((← load t cwd dataDir).find? (·.index = index))

/-- Writes the store without an index (`Bookmarks::remove`): whether it was there, and the tree afterwards, which may hold
a draft even if the removal failed. -/
def remove (index : Nat) : Except IoError Bool × FileTree :=
  match load t cwd dataDir with
  | .error e => (.error e, t)
  | .ok bs =>
    let kept := bs.filter (·.index ≠ index)
    if kept.length = bs.length then (.ok false, t)
    else match t.writeFile cwd (draftPath dataDir) (Utf8.encode (toText kept)) with
      | .error e => (.error (.system e), t)
      | .ok t =>
        match t.rename cwd (draftPath dataDir) (path dataDir) with
        | .error e => (.error (.system e), t)
        | .ok t => (.ok true, t)

end Bookmarks

end LineShell
