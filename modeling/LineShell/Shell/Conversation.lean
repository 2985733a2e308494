import LineShell.Completion
import LineShell.Shell.Execute

/-!
# Talking to a shell

One turn of the conversation drops the jobs that have ended, reads a line and executes it, or
completes it and lets the next read begin with the result. The conversation is over at the end of
the input or when the shell is to end. As the input is no terminal, neither prompt nor echo is shown.

Input is read in blocks. The position of the input is shared with the children, which find what
comes after the last block.

| here | function of the shell |
| --- | --- |
| `readLine` | `LineEditor::read_line` |
| `offerCompletion` | the branch of `main` for a line that needs completion |
| `turn`, `converse` | a round of the loop of `main`, and the loop |
| `runShell` | `main` |
-/

namespace LineShell

/-- The number of bytes that are read at once. -/
def blockSize : Nat := 8192

namespace Host

/-- What standard input still holds beyond what has been read, and how it ends. -/
def comingInput (h : Host) : Bytes × Ending :=
  match (h.table.file? Descriptor.input).bind h.world.file? with
  | some (.node i .read offset) =>
    match h.world.files.contentOf i with
    | .ok content => (content.drop offset, .used)
    | .error _ => ([], .broken)
  | some (.reader p) => (h.world.inPipe p, .used)
  | _ => ([], .broken)

/-- Uses up `count` bytes of input, reading as many blocks as that takes. -/
def useInput (h : Host) (count : Nat) : Host :=
  let missing := count - h.unread.length
  let taken := (missing + blockSize - 1) / blockSize * blockSize
  match h.table.file? Descriptor.input with
  | none => { h with unread := h.unread.drop count }
  | some f =>
    match h.world.read f taken with
    | .error _ => { h with unread := h.unread.drop count }
    | .ok (bytes, world) => { h with world, unread := (h.unread ++ bytes).drop count }

end Host

namespace Shell

variable {κ : Type u}

/-- Reads a line (`LineEditor::read_line`). A read that fails is the end of the input. -/
def readLine (s : Shell κ) : Input × Shell κ :=
  let (coming, ending) := s.host.comingInput
  let input := s.host.unread ++ coming
  let r := s.editor.edit {} input ending
  (r.result.toOption.getD .eof,
    { s with editor := r.editor, host := s.host.useInput (input.length - r.rest.length) })

/-- The completion of a line. -/
def completion (s : Shell κ) (line : String) : Completion :=
  Completion.complete (s.host.world.files.listing s.host.cwd)
    (Search.named s.host.world.files s.host.cwd s.host.searchPath) line

/-- Shows what the last word of a line could become, if there is a choice, and lets the next read
begin with the completed line. -/
def offerCompletion (s : Shell κ) (line : String) : Shell κ :=
  let c := s.completion line
  let s := if 1 < c.candidates.length then s.print ("  ".intercalate c.candidates) else s
  { s with editor := s.editor.seed c.line }

/-- Is the conversation over? -/
inductive Turn where
  | more
  | over
  deriving Repr, DecidableEq

/-- One turn of the conversation, if it ends: a round of the loop of `main`. -/
def turn (k : Kernel κ) (s : Shell κ) : Option (Turn × Shell κ) :=
  match (s.reap k).readLine with
  | (.eof, s) => some (.over, s)
  | (.line text, s) =>
    let p := Pipeline.parse text
    if p.needsCompletion then some (.more, s.offerCompletion text)
    else match s.execute k p with
      | none => none
      | some (.exit, s) => some (.over, s)
      | some (_, s) => some (.more, s)

/-- Talks until the conversation is over, at most `turns` turns; the last line is then ended. -/
def converse (k : Kernel κ) : Nat → Shell κ → Option (Shell κ)
  | 0, _ => none
  | turns + 1, s =>
    match s.turn k with
    | none => none
    | some (.over, s) => some (s.print "")
    | some (.more, s) => converse k turns s

end Shell

/-- A whole run of the shell: its exit status and what it leaves behind, if it ends within so many
turns. Without a configuration there is no conversation. -/
def runShell {κ : Type u} (k : Kernel κ) (turns : Nat) (host : Host) (kernel : κ) :
    Option (UInt8 × Host × κ) :=
  match Config.ofEnvironment (host.environment.lookup Config.dataDirVariable)
      (host.environment.lookup Config.userVariable) host.workingDirectory with
  | .error e =>
    let line := "-" ++ Config.shellName ++ ": " ++ e.message ++ "\n"
    some (1, host.write Descriptor.error (Utf8.ofString line), kernel)
  | .ok config =>
    (Shell.converse k turns (.start config .shown host kernel)).map fun s => (0, s.host, s.kernel)

end LineShell
