import LineShell.Files.Change
import LineShell.Pipeline.Basic
import LineShell.System.Descriptor

/-!
# What processes share

A `World` holds the file tree, the files that are open anywhere, the bytes that are on their way in
pipes, and what has been written to the two streams that the shell was given for its output.

An open file has one position, which all descriptors for it share. Reading from a pipe takes what is
there; whether to wait for more is for the caller to decide.

| here | system call |
| --- | --- |
| `World.openPath`, `World.makePipe` | `open`, `pipe` |
| `World.read`, `World.write` | `read`, `write` |
-/

namespace LineShell

/-- The number of a pipe. -/
abbrev PipeId := Nat

/-- What a file is opened for. -/
inductive OpenMode where
  | read
  | write (mode : OutputMode)
  deriving Repr, DecidableEq

/-- Something that can be read or written. -/
inductive OpenFile where
  | node (node : NodeId) (mode : OpenMode) (offset : Nat)
  | reader (pipe : PipeId)
  | writer (pipe : PipeId)
  /-- The stream that the shell was given as standard output. -/
  | output
  /-- The stream that the shell was given as standard error. -/
  | error
  deriving Repr, DecidableEq

structure World where
  files : FileTree := {}
  opened : Array OpenFile := #[]
  /-- The bytes in every pipe. -/
  pipes : Array Bytes := #[]
  /-- What has been written to standard output. -/
  out : Bytes := []
  /-- What has been written to standard error. -/
  err : Bytes := []
  deriving Repr, DecidableEq

namespace World

def file? (w : World) (f : FileId) : Option OpenFile := w.opened[f]?

/-- Adds an open file. -/
def add (w : World) (f : OpenFile) : FileId × World :=
  (w.opened.size, { w with opened := w.opened.push f })

/-- Opens the file that a path leads to from a working directory. -/
def openPath (w : World) (cwd : NodeId) (path : String) : OpenMode → Except Errno (FileId × World)
  | .read => do
    let i ← w.files.locate cwd path
    .ok (w.add (.node i .read 0))
  | .write mode => do
    let (i, files) ← w.files.openWrite cwd path (mode = .truncate)
    .ok ({ w with files }.add (.node i (.write mode) 0))

/-- Makes a pipe: its reading and its writing end. -/
def makePipe (w : World) : FileId × FileId × World :=
  let p := w.pipes.size
  let (r, w) := { w with pipes := w.pipes.push [] }.add (.reader p)
  let (e, w) := w.add (.writer p)
  (r, e, w)

def inPipe (w : World) (p : PipeId) : Bytes := w.pipes.getD p []

/-- Is the open file an end of the pipe that bytes come out of? -/
def isReader (w : World) (p : PipeId) (f : FileId) : Bool := w.file? f = some (.reader p)

/-- Is the open file an end of the pipe that bytes go into? -/
def isWriter (w : World) (p : PipeId) (f : FileId) : Bool := w.file? f = some (.writer p)

/-- The size of an open file, if it is a regular one. -/
def sizeOf? (w : World) : OpenFile → Option Nat
  | .node i .. => match w.files.node? i with
    | some (.file content _) => some content.length
    | _ => none
  | _ => none

/-- What can be read from a file now, at most `count` bytes of it, and the world afterwards. -/
def read (w : World) (f : FileId) (count : Nat) : Except Errno (Bytes × World) :=
  match w.file? f with
  | some (.node i .read offset) => do
    let content ← w.files.contentOf i
    let bytes := (content.drop offset).take count
    .ok (bytes, { w with opened := w.opened.setIfInBounds f (.node i .read (offset + bytes.length)) })
  | some (.reader p) =>
    .ok ((w.inPipe p).take count, { w with pipes := w.pipes.setIfInBounds p ((w.inPipe p).drop count) })
  | _ => .error .badDescriptor

/-- The content after `bytes` have been written at a position; a gap is filled with zeros. -/
def splice (content : Bytes) (offset : Nat) (bytes : Bytes) : Bytes :=
  content.take offset ++ List.replicate (offset - content.length) 0 ++ bytes ++
    content.drop (offset + bytes.length)

/-- Writes all bytes to a file. -/
def write (w : World) (f : FileId) (bytes : Bytes) : Except Errno (World) :=
  match w.file? f with
  | some (.node i (.write mode) offset) =>
    let content := (w.files.contentOf i).toOption.getD []
    let start := if mode = .append then content.length else offset
    .ok { w with
      files := w.files.setContent i (splice content start bytes)
      opened := w.opened.setIfInBounds f (.node i (.write mode) (start + bytes.length)) }
  | some (.writer p) => .ok { w with pipes := w.pipes.setIfInBounds p (w.inPipe p ++ bytes) }
  | some .output => .ok { w with out := w.out ++ bytes }
  | some .error => .ok { w with err := w.err ++ bytes }
  | _ => .error .badDescriptor

end World

end LineShell
