import LineShell.Text.Lines
import LineShell.Text.Utf8

/-!
# Paths

A path names a file by the names on the way to it, from the root if it begins with a slash and from
the working directory otherwise. Repeated slashes count as one; a slash at the end says that the
path has to lead to a directory.
-/

namespace LineShell

/-- A path taken apart. -/
structure Path where
  absolute : Bool
  names : List String
  /-- The path ends in a slash. -/
  slash : Bool
  deriving Repr, DecidableEq

namespace Path

/-- Takes a path apart. -/
def ofString (path : String) : Path :=
  let text := path.toList
  { absolute := text.head? = some '/'
    names := ((Text.splitOn '/' text).filter (!·.isEmpty)).map String.ofList
    slash := text.getLast? = some '/' }

/-- The longest path that is looked at, in bytes, and the longest name in it. -/
def maxBytes : Nat := 4095

def maxNameBytes : Nat := 255

def size (s : String) : Nat := (Utf8.ofString s).length

/-- Can the path be passed to the system? A NUL character would cut it short. -/
def hasNul (path : String) : Bool := path.toList.contains '\x00'

/-- The path of `name` in a directory. -/
def join (directory name : String) : String :=
  if directory.toList.isEmpty then name
  else if directory.toList.getLast? = some '/' then directory ++ name
  else directory ++ "/" ++ name

/-- The part of a path up to its last slash, and the part behind it. -/
def splitLast (path : List Char) : List Char × List Char :=
  let behind := (path.reverse.takeWhile (· ≠ '/')).reverse
  (path.take (path.length - behind.length), behind)

end Path

end LineShell
