/-!
# Pipelines

A pipeline is what one input line asks for: one stage or more, read from left to right. A stage is
a command name with its arguments and at most one redirect in each direction.

| here | function of the shell |
| --- | --- |
| `Stage`, `Pipeline` | the records `Stage` and `Pipeline`; `input` and `output` hold a `Redirect` each |
| `Stage.input`, `Stage.truncated`, `Stage.appended` | `Stage::redirect_in`, `redirect_out`, `redirect_append` |
| `Pipeline.single`, `head`, `last` | `Pipeline::single`, `head`, `last` |
| `Pipeline.isBackground`, `needsCompletion` | `Pipeline::is_background`, `needs_completion` |
| `Pipeline.setBackground` | `Pipeline::set_background` |
-/

namespace LineShell

/-- How an output redirect treats what the file already holds. -/
inductive OutputMode where
  | truncate
  | append
  deriving Repr, DecidableEq

/-- A file that takes a stage's output. -/
structure Output where
  mode : OutputMode
  target : String
  deriving Repr, DecidableEq

/-- One command of a pipeline. -/
structure Stage where
  name : String := ""
  arguments : List String := []
  /-- The file read as standard input. -/
  input : Option String := none
  output : Option Output := none
  /-- Leave the pipeline running; only the last stage's mark counts. -/
  background : Bool := false
  /-- The line asks for completion instead of execution; only the first stage's mark counts. -/
  needsCompletion : Bool := false
  deriving Repr, DecidableEq

/-- The target of an output redirect that truncates. -/
def Stage.truncated (s : Stage) : Option String :=
  (s.output.filter (·.mode = .truncate)).map (·.target)

/-- The target of an output redirect that appends. -/
def Stage.appended (s : Stage) : Option String :=
  (s.output.filter (·.mode = .append)).map (·.target)

/-- Stages in order; there is always a first one. -/
structure Pipeline where
  head : Stage
  tail : List Stage := []
  deriving Repr, DecidableEq

namespace Pipeline

/-- The pipeline of one stage. -/
def single (s : Stage) : Pipeline := ⟨s, []⟩

def stages (p : Pipeline) : List Stage := p.head :: p.tail

/-- The last stage. -/
def last (p : Pipeline) : Stage := p.tail.getLastD p.head

/-- Is the pipeline to be left running? -/
def isBackground (p : Pipeline) : Bool := p.last.background

/-- Does the line ask for completion? -/
def needsCompletion (p : Pipeline) : Bool := p.head.needsCompletion

/-- Marks the last stage of a list. -/
def markLast (background : Bool) : Stage → List Stage → Pipeline
  | s, [] => ⟨{ s with background }, []⟩
  | s, t :: ts => ⟨s, (markLast background t ts).stages⟩

/-- Sets the mark that counts for background execution. -/
def setBackground (p : Pipeline) (background : Bool) : Pipeline :=
  markLast background p.head p.tail

end Pipeline

end LineShell
