import LineShell.Builtin
import LineShell.Pipeline.Words
import LineShell.Search

/-!
# Completing the last word of a line

The last word is completed as a command if it is the first word or follows `|`, and holds no slash;
otherwise as a file. One candidate is put in whole, with a blank behind it unless it is a directory;
several are put in as far as they agree; without any the word stays as it is.

| here | function of the shell |
| --- | --- |
| `agreement`, `commonStart` | `common_prefix` |
| `files` | `complete_file` |
| `cutLastWord`, `wordBefore`, `isCommandPosition`, `extend`, `candidatesOf` | the parts of `complete_with` |
| `complete` | `complete_with`, and `complete` with the directories and the search path of the shell |
-/

namespace LineShell

/-- The completed line and what the last word could become. -/
structure Completion where
  line : String
  candidates : List String
  deriving Repr, DecidableEq

namespace Completion

/-- What a directory holds, by its path: names, and whether each is a directory or leads to one. A
directory that cannot be read holds nothing. -/
abbrev Listing := String → List (String × Bool)

/-- The characters in which two texts agree from their beginning. -/
def agreement : List Char → List Char → List Char
  | a :: as, b :: bs => if a = b then a :: agreement as bs else []
  | _, _ => []

/-- The characters in which all texts agree from their beginning (`common_prefix`). -/
def commonStart : List String → List Char
  | [] => []
  | s :: ss => ss.foldl (fun stem t => agreement stem t.toList) s.toList

/-- Is the name kept out of listings? -/
def isHidden (name : List Char) : Bool := name.head? = some '.'

/-- The files whose names begin with the word. Hidden ones are offered only to a word that asks for
them. -/
def files (listing : Listing) (word : List Char) : List String :=
  let (directory, stem) := Path.splitLast word
  (listing (if directory.isEmpty then "." else String.ofList directory)).filterMap fun (name, isDirectory) =>
    if Text.beginsWith stem name && (!isHidden name.toList || isHidden stem) then
      some (String.ofList directory ++ name ++ (if isDirectory then "/" else ""))
    else none

/-- The line without its completion mark, cut in front of the last word. -/
def cutLastWord (line : List Char) : List Char × List Char :=
  let text := if line.getLast? = some '?' then line.dropLast else line
  let word := (text.reverse.takeWhile (!isBlank ·)).reverse
  (text.take (text.length - word.length), word)

/-- The last word of the text in front of the word to complete; quotes mean nothing here. -/
def wordBefore (before : List Char) : List Char :=
  ((before.reverse.dropWhile isBlank).takeWhile (!isBlank ·)).reverse

/-- Is a command expected after `before`? -/
def isCommandPosition (before word : List Char) : Bool :=
  (wordBefore before = [] || wordBefore before = ['|']) && !word.contains '/'

/-- What becomes of the word. -/
def extend (word : List Char) : List String → List Char
  | [] => word
  | [c] => if c.toList.getLast? = some '/' then c.toList else c.toList ++ [' ']
  | cs => commonStart cs

/-- What the word behind `before` could become, in order. -/
def candidatesOf (listing : Listing) (commands : String → List String) (before word : List Char) :
    List String :=
  Text.sortedUnique
    (if isCommandPosition before word then
      Builtin.names.filter (Text.beginsWith word) ++ commands (String.ofList word)
    else files listing word)

/-- Completes a line, given what directories hold and how commands are listed (`complete_with`). -/
def complete (listing : Listing) (commands : String → List String) (line : String) : Completion :=
  let (before, word) := cutLastWord line.toList
  let candidates := candidatesOf listing commands before word
  { line := String.ofList (before ++ extend word candidates), candidates }

end Completion

/-- What a directory of the tree holds. -/
def FileTree.listing (t : FileTree) (cwd : NodeId) : Completion.Listing := fun directory =>
  if Path.hasNul directory then []
  else match t.locateDirectory cwd directory with
    | .error _ => []
    | .ok i => (t.entries i).map fun (name, _) => (name, t.pathIsDirectory cwd (Path.join directory name))

end LineShell
