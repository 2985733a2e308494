import LineShell.Text.Utf8

/-!
# The line editor

The editor turns key bytes into lines. It keeps one accepted line, which the cursor-up key brings
back, and may be seeded with text that the next read begins with. What it shows is written to a
screen that may refuse to take more.

`Editor.press` says what one byte does; `Editor.edit` reads bytes until a line is finished, the
input ends, or the screen or the reader fails. A line that reaches the capacity is finished by it.

| here | function of the shell |
| --- | --- |
| `Editor`, `Escape` | `LineEditor`, `Escape` |
| `Editor.seed` | `LineEditor::seed` |
| `eraser`, `dropChar`, `width` | `erase_visual`, `pop_char`, `char_count` |
| `recalled`, and cursor-up in `press` | `LineEditor::recall` |
| `accept` | `LineEditor::accept` |
| `press`, `typeOn`, `edit` | `LineEditor::edit`: one byte of its loop, the loop, all of it |
-/

namespace LineShell

/-- What a read gives: a line, or the end of input, which carries no text. -/
inductive Input where
  | line (text : String)
  | eof
  deriving Repr, DecidableEq

/-- Why a read gave nothing. -/
inductive EditError where
  | read
  | write
  deriving Repr, DecidableEq

/-- How the bytes of a read end: the input is used up, or reading fails. -/
inductive Ending where
  | used
  | broken
  deriving Repr, DecidableEq

/-- Where the editor writes. A screen with `room` takes that many bytes more and fails then; `none`
takes everything. -/
structure Screen where
  shown : Bytes := []
  room : Option Nat := none
  deriving Repr, DecidableEq

namespace Screen

/-- Writes all bytes, or as many as there is room for and fails. -/
def write (s : Screen) (bytes : Bytes) : Bool × Screen :=
  match s.room with
  | none => (true, { s with shown := s.shown ++ bytes })
  | some n => (bytes.length ≤ n, { shown := s.shown ++ bytes.take n, room := some (n - bytes.length) })

end Screen

/-- How much of an escape sequence has been read. -/
inductive Escape where
  | idle
  | start
  | bracket
  deriving Repr, DecidableEq

/-- The state of one read. -/
structure Typing where
  buffer : Bytes := []
  escape : Escape := .idle
  deriving Repr, DecidableEq

/-- What survives from one read to the next. -/
structure Editor where
  capacity : Nat
  /-- The line that cursor-up brings back. -/
  lastLine : Option String := none
  /-- The text that the next read begins with. -/
  pending : Option String := none
  deriving Repr, DecidableEq

namespace Key

def endOfTransmission : UInt8 := 0x04
def backspace : UInt8 := 0x08
def tab : UInt8 := 0x09
def newline : UInt8 := 0x0a
def carriageReturn : UInt8 := 0x0d
def escape : UInt8 := 0x1b
def space : UInt8 := 0x20
def bracket : UInt8 := 0x5b
def up : UInt8 := 0x41
def delete : UInt8 := 0x7f

/-- What Tab adds to the line to ask for its completion. -/
def question : UInt8 := 0x3f

end Key

namespace Editor

/-- What a byte does after its echo: the read goes on, ends without text, or finishes a line, which
is remembered or not. -/
inductive Next where
  | more (t : Typing)
  | quit
  | finish (buffer : Bytes) (remember : Bool)
  deriving Repr, DecidableEq

/-- The bytes that wipe `count` cells left of the cursor. -/
def eraser (count : Nat) : Bytes :=
  (List.replicate count [Key.backspace, Key.space, Key.backspace]).flatten

/-- Drops the last character (`pop_char`): bytes from the end up to the first that is no continuation byte. -/
def dropChar (buffer : Bytes) : Bytes :=
  (buffer.reverse.dropWhile Utf8.isContinuation).tail.reverse

/-- The number of cells that the buffer takes. -/
def width (buffer : Bytes) : Nat :=
  (Utf8.decodeLossy buffer).length

/-- The remembered line as bytes; empty if there is none. -/
def recalled (e : Editor) : Bytes :=
  (e.lastLine.map Utf8.ofString).getD []

/-- What a byte outside escape sequences does: the echo, and how the read goes on. -/
def pressPlain (e : Editor) (buffer : Bytes) (b : UInt8) : Bytes × Next :=
  if b = Key.escape then ([], .more ⟨buffer, .start⟩)
  else if b = Key.endOfTransmission then ([], .quit)
  else if b = Key.tab then ([Key.newline], .finish (buffer ++ [Key.question]) false)
  else if b = Key.newline ∨ b = Key.carriageReturn then ([Key.newline], .finish buffer true)
  else if b = Key.backspace ∨ b = Key.delete then
    if buffer = [] then ([], .more ⟨buffer, .idle⟩)
    else (eraser 1, .more ⟨dropChar buffer, .idle⟩)
  else if b < Key.space then ([], .more ⟨buffer, .idle⟩)
  else
    let buffer := buffer ++ [b]
    if e.capacity ≤ buffer.length then ([b, Key.newline], .finish buffer true)
    else ([b], .more ⟨buffer, .idle⟩)

/-- What a byte does. The three bytes of cursor-up replace the buffer by the remembered line; other
sequences with a bracket are swallowed, and an escape before anything else is dropped. -/
def press (e : Editor) (t : Typing) (b : UInt8) : Bytes × Next :=
  match t.escape with
  | .start => if b = Key.bracket then ([], .more { t with escape := .bracket }) else pressPlain e t.buffer b
  | .bracket =>
    if b = Key.up then (eraser (width t.buffer) ++ e.recalled, .more ⟨e.recalled, .idle⟩)
    else ([], .more { t with escape := .idle })
  | .idle => pressPlain e t.buffer b

/-- Hands out a finished line (`LineEditor::accept`). -/
def accept (e : Editor) (buffer : Bytes) (remember : Bool) : Input × Editor :=
  let text := String.ofList (Utf8.decodeLossy buffer)
  (.line text, if remember then { e with lastLine := some text } else e)

/-- What a read leaves behind. -/
structure Read where
  result : Except EditError Input
  editor : Editor
  screen : Screen
  /-- The bytes that were not looked at. -/
  rest : Bytes

/-- Reads on with the given bytes. -/
def typeOn (e : Editor) (s : Screen) (t : Typing) (ending : Ending) : Bytes → Read
  | [] => match ending with
    | .broken => ⟨.error .read, e, s, []⟩
    | .used =>
      if t.buffer = [] then ⟨.ok .eof, e, s, []⟩
      else
        let (line, e) := e.accept t.buffer true
        ⟨.ok line, e, s, []⟩
  | b :: bs =>
    let (echo, next) := e.press t b
    match s.write echo with
    | (false, s) => ⟨.error .write, e, s, bs⟩
    | (true, s) => match next with
      | .more t => typeOn e s t ending bs
      | .quit => ⟨.ok .eof, e, s, bs⟩
      | .finish buffer remember =>
        let (line, e) := e.accept buffer remember
        ⟨.ok line, e, s, bs⟩

/-- What the next read begins with. -/
def seedBytes (e : Editor) : Bytes :=
  ((e.pending.map Utf8.ofString).getD []).take e.capacity

/-- Reads one line from `input`, which ends as `ending` says (`LineEditor::edit`). A seed is used up and shown first. -/
def edit (e : Editor) (s : Screen) (input : Bytes) (ending : Ending) : Read :=
  let buffer := e.seedBytes
  let e := { e with pending := none }
  match s.write buffer with
  | (false, s) => ⟨.error .write, e, s, input⟩
  | (true, s) => typeOn e s { buffer } ending input

/-- Reads again and again, at most `n` times, until a read gives no line: the results, and what the
last read left behind. -/
def editUpTo (ending : Ending) : Nat → Editor → Screen → Bytes → List (Except EditError Input) × Read
  | n, e, s, input =>
    let r := e.edit s input ending
    match n, r.result with
    | n + 1, .ok (.line _) =>
      let (results, final) := editUpTo ending n r.editor r.screen r.rest
      (r.result :: results, final)
    | _, _ => ([r.result], r)

/-- Reads until a read gives no line. Every line but the last takes a byte, the last may come from
the seed alone, and one more read finds the end. -/
def editAll (e : Editor) (s : Screen) (input : Bytes) (ending : Ending) :
    List (Except EditError Input) × Read :=
  editUpTo ending (input.length + 1) e s input

/-- The next read begins with `text`. -/
def seed (e : Editor) (text : String) : Editor :=
  { e with pending := some text }

end Editor

end LineShell
