/-!
# Lines and fields of a text

A text file is read as lines: a line ends in a newline or in a carriage return and a newline, the
last one may have no end, and there is no empty line after the last end. A line is read as two
fields at the first occurrence of a separator. So `Bookmarks::load` and `Shortcuts::lookup` read a store.
-/

namespace LineShell.Text

/-- The text without its last character, if that is `c`. -/
def dropLast? (c : Char) (text : List Char) : Option (List Char) :=
  if text.getLast? = some c then some text.dropLast else none

/-- Cuts a text behind every newline. -/
def pieces : List Char → List (List Char)
  | [] => []
  | c :: cs =>
    if c = '\n' then [c] :: pieces cs
    else match pieces cs with
      | [] => [[c]]
      | p :: ps => (c :: p) :: ps

/-- A piece without its line end. -/
def withoutEnd (piece : List Char) : List Char :=
  match dropLast? '\n' piece with
  | none => piece
  | some line => (dropLast? '\r' line).getD line

/-- The lines of a text, without their ends. -/
def lines (text : List Char) : List (List Char) :=
  (pieces text).map withoutEnd

/-- The text before and after the first `sep`. -/
def splitAt? (sep : Char) : List Char → Option (List Char × List Char)
  | [] => none
  | c :: cs =>
    if c = sep then some ([], cs)
    else (splitAt? sep cs).map fun (before, after) => (c :: before, after)

/-- The pieces between the occurrences of `sep`; there is always one more than there are of them. -/
def fields (sep : Char) : List Char → List Char × List (List Char)
  | [] => ([], [])
  | c :: cs =>
    let (field, rest) := fields sep cs
    if c = sep then ([], field :: rest) else (c :: field, rest)

/-- All of `fields` in one list. -/
def splitOn (sep : Char) (text : List Char) : List (List Char) :=
  let (field, rest) := fields sep text
  field :: rest

end LineShell.Text
