import LineShell.Files.Tree
import LineShell.Text.Order

/-!
# Patterns

In a pattern, `*` stands for any text, `?` for any character, and brackets for one of several. A
character that was quoted stands for itself. Patterns are matched against texts, used to cut off the
beginning or the end of a text, and expanded to the names of files.
-/

namespace LineShell.Script

/-- A character of a word, and whether it was quoted. -/
structure Glyph where
  char : Char
  quoted : Bool
  deriving DecidableEq

/-- The characters of glyphs. -/
def plain (glyphs : List Glyph) : List Char := glyphs.map (·.char)

/-- An element of a pattern. -/
inductive Pattern.Item where
  | char (c : Char)
  | one
  | any
  | oneOf (negated : Bool) (ranges : List (Char × Char))

abbrev Pattern := List Pattern.Item

namespace Pattern

/-- The ranges that the inside of brackets lists. -/
def ranges : List Glyph → List (Char × Char)
  | a :: dash :: b :: rest =>
    if dash.char = '-' && !dash.quoted then (a.char, b.char) :: ranges rest
    else (a.char, a.char) :: ranges (dash :: b :: rest)
  | a :: rest => (a.char, a.char) :: ranges rest
  | [] => []

/-- Reads brackets behind the opening one. A closing bracket that comes first does not close. -/
def readBrackets (glyphs : List Glyph) : Option (Item × List Glyph) :=
  let sign := glyphs.takeWhile fun g => (g.char = '!' || g.char = '^') && !g.quoted
  let glyphs := glyphs.drop (min 1 sign.length)
  let inside := glyphs.take 1 ++ (glyphs.drop 1).takeWhile fun g => g.char ≠ ']' || g.quoted
  match glyphs.drop inside.length with
  | [] => none
  | _ :: rest => some (.oneOf (0 < sign.length) (ranges inside), rest)

/-- Reads a pattern of at most so many elements. -/
def read : Nat → List Glyph → Pattern
  | 0, _ => []
  | _, [] => []
  | n + 1, g :: rest =>
    if g.quoted then .char g.char :: read n rest
    else if g.char = '*' then .any :: read n rest
    else if g.char = '?' then .one :: read n rest
    else if g.char = '[' then
      match readBrackets rest with
      | some (item, rest) => item :: read n rest
      | none => .char '[' :: read n rest
    else .char g.char :: read n rest

/-- The pattern of a word. -/
def ofGlyphs (glyphs : List Glyph) : Pattern := read glyphs.length glyphs

/-- Does the word hold anything that stands for more than itself? -/
def isOpen (glyphs : List Glyph) : Bool :=
  glyphs.any fun g => !g.quoted && (g.char = '*' || g.char = '?' || g.char = '[')

/-- Does an element stand for the character? -/
def Item.accepts : Item → Char → Bool
  | .char c, d => c = d
  | .one, _ => true
  | .any, _ => true
  | .oneOf negated ranges, d => (ranges.any fun (a, b) => a ≤ d && d ≤ b) != negated

/-- Does the pattern match the whole text? -/
def accepts : Pattern → List Char → Bool
  | [], text => text.isEmpty
  | .any :: rest, text => (List.range (text.length + 1)).any fun n => accepts rest (text.drop n)
  | item :: rest, c :: cs => item.accepts c && accepts rest cs
  | _ :: _, [] => false

/-- Cuts a matching beginning off a text, the longest or the shortest. -/
def cutStart (p : Pattern) (longest : Bool) (text : List Char) : List Char :=
  let lengths := List.range (text.length + 1)
  match (if longest then lengths.reverse else lengths).find? fun n => accepts p (text.take n) with
  | some n => text.drop n
  | none => text

/-- Cuts a matching end off a text, the longest or the shortest. -/
def cutEnd (p : Pattern) (longest : Bool) (text : List Char) : List Char :=
  let lengths := List.range (text.length + 1)
  match (if longest then lengths else lengths.reverse).find? fun n => accepts p (text.drop n) with
  | some n => text.take n
  | none => text

/-! ## File names -/

/-- Splits a word at its slashes. -/
def splitSlashes (glyphs : List Glyph) : List (List Glyph) :=
  let (parts, part) := glyphs.foldl (fun (parts, part) g =>
    if g.char = '/' then (List.reverse part :: parts, []) else (parts, g :: part)) ([], [])
  (part.reverse :: parts).reverse

/-- The paths that match, name by name, from those that match so far. -/
def expandNames (t : FileTree) (cwd : NodeId) (found : List String) : List (List Glyph) → List String
  | [] => found
  | name :: rest =>
    let last := rest.isEmpty
    let next := found.flatMap fun path =>
      if !isOpen name then
        let path' := path ++ String.ofList (plain name) ++ (if last then "" else "/")
        if last && (t.locate cwd path' true).toOption.isNone && !path'.isEmpty then [] else [path']
      else
        let directory := if path.isEmpty then "." else path
        match t.locateDirectory cwd directory with
        | .error _ => []
        | .ok i =>
          let names := (t.entries i).map (·.1)
          let pattern := ofGlyphs name
          let hidden := (plain name).head? = some '.'
          let matching := names.filter fun n =>
            (n.toList.head? ≠ some '.' || hidden) && accepts pattern n.toList
          let matching := matching.mergeSort Text.le
          let paths := matching.map (path ++ ·)
          if last then paths
          else (paths.filter (t.pathIsDirectory cwd)).map (· ++ "/")
    expandNames t cwd next rest

/-- The paths that a word stands for; none if it stands for itself. -/
def expand (t : FileTree) (cwd : NodeId) (glyphs : List Glyph) : List String :=
  if isOpen glyphs then expandNames t cwd [""] (splitSlashes glyphs) else []

end Pattern

end LineShell.Script
