import LineShell.Pipeline.Basic
import LineShell.Pipeline.Words

/-!
# Reading a line as a pipeline

`Pipeline.parse` is total. One mark at the end of the trimmed line is taken off first: `?` asks for
completion, `&` for background execution. The words of the rest are grouped into stages at the
words `|`, and each group is read on its own: its first word is the name as written, a word that
begins with `<`, `>` or `>>` is a redirect, `&` is skipped, and every other word is an argument.

| here | function of the shell |
| --- | --- |
| `LineEnd.split` | the first half of `parse`: the trimmed text and the mark |
| `Word.redirect?` | `redirect_marker` |
| `Word.groupsAfter` | where `parse_stage` returns at a `|`, and the loop of `parse` over what it returns |
| `Stage.redirect`, `Stage.argument` | how `parse_stage` fills a slot, and its arguments |
| `Stage.addWords`, `Stage.ofWords` | `parse_stage` |
| `Pipeline.ofText`, `Pipeline.parse` | `parse` |
-/

namespace LineShell

/-- What the end of a line asks for. -/
inductive LineEnd where
  | plain
  | background
  | completion
  deriving Repr, DecidableEq

/-- The trimmed line without its end mark, and what the mark asks for. -/
def LineEnd.split (line : List Char) : List Char × LineEnd :=
  let text := trim line
  if text.getLast? = some '?' then (trim text.dropLast, .completion)
  else if text.getLast? = some '&' then (trim text.dropLast, .background)
  else (text, .plain)

/-- The direction of a redirect. -/
inductive Direction where
  | input
  | output (mode : OutputMode)
  deriving Repr, DecidableEq

namespace Word

def pipe : Word := ['|']

def ampersand : Word := ['&']

/-- A word that begins with a redirect sign: the direction and the rest of the word (`redirect_marker`). -/
def redirect? : Word → Option (Direction × Word)
  | '>' :: '>' :: target => some (.output .append, target)
  | '>' :: target => some (.output .truncate, target)
  | '<' :: target => some (.input, target)
  | _ => none

/-- The words up to the next `|`, and the groups behind it. A group has a first word, which is not
looked at; a `|` with nothing behind it opens no group. -/
def groupsAfter : List Word → List Word × List (Word × List Word)
  | [] => ([], [])
  | w :: ws =>
    if w = pipe then
      match ws with
      | [] => ([], [])
      | name :: rest =>
        let (group, more) := groupsAfter rest
        ([], (name, group) :: more)
    else
      let (group, more) := groupsAfter ws
      (w :: group, more)

end Word

namespace Stage

/-- Records a redirect unless there is one in that direction already. -/
def redirect (s : Stage) (d : Direction) (target : Word) : Stage :=
  let path := String.ofList (Word.unquote target)
  match d with
  | .input => { s with input := s.input.or (some path) }
  | .output mode => { s with output := s.output.or (some ⟨mode, path⟩) }

/-- Records an argument. -/
def argument (s : Stage) (w : Word) : Stage :=
  { s with arguments := s.arguments ++ [String.ofList (Word.unquote w)] }

/-- Reads the words behind the name, as `parse_stage` does up to the next `|`. A redirect sign standing alone takes
the next word as its target; before `&` and at the end the target is empty. -/
def addWords (s : Stage) : List Word → Stage
  | [] => s
  | w :: ws =>
    if w = Word.ampersand then addWords s ws
    else match Word.redirect? w with
      | none => addWords (s.argument w) ws
      | some (d, []) =>
        match ws with
        | [] => s.redirect d []
        | next :: rest =>
          if next = Word.ampersand then addWords (s.redirect d []) (next :: rest)
          else addWords (s.redirect d next) rest
      | some (d, target) => addWords (s.redirect d target) ws

/-- The stage of a group of words. -/
def ofWords (name : Word) (words : List Word) : Stage :=
  addWords { name := String.ofList name } words

end Stage

namespace Pipeline

/-- The stages of the words of a line; a line without words has one empty stage. -/
def ofWords : List Word → Pipeline
  | [] => single {}
  | name :: words =>
    let (group, more) := Word.groupsAfter words
    ⟨Stage.ofWords name group, more.map fun (name, group) => Stage.ofWords name group⟩

/-- Reads the text of a line. -/
def ofText (line : List Char) : Pipeline :=
  let (text, mark) := LineEnd.split line
  let p := ofWords (Word.ofLine text)
  let p := { p with head := { p.head with needsCompletion := mark = LineEnd.completion } }
  p.setBackground (mark = LineEnd.background)

/-- Reads a line (`parse`). -/
def parse (line : String) : Pipeline :=
  ofText line.toList

end Pipeline

end LineShell
