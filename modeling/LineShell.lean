import LineShell.Text.Utf8
import LineShell.Text.Lines
import LineShell.Text.Number
import LineShell.Text.Order
import LineShell.Text.Slice
import LineShell.Pipeline.Basic
import LineShell.Pipeline.Words
import LineShell.Pipeline.Parse
import LineShell.Pipeline.Scan
import LineShell.Editor
import LineShell.Failure
import LineShell.Job
import LineShell.Files.Path
import LineShell.Files.Tree
import LineShell.Files.Change
import LineShell.Search
import LineShell.Completion
import LineShell.Config
import LineShell.Builtin
import LineShell.Sweep
import LineShell.Store.Text
import LineShell.Store.Bookmarks
import LineShell.Store.Shortcuts
import LineShell.System.Errno
import LineShell.System.WaitStatus
import LineShell.System.Descriptor
import LineShell.System.World
import LineShell.System.Kernel
import LineShell.System.Act
import LineShell.System.Task
import LineShell.System.Machine
import LineShell.Shell.State
import LineShell.Shell.Launch
import LineShell.Shell.Commands
import LineShell.Shell.Execute
import LineShell.Shell.Conversation
import LineShell.Shell.Patience
import LineShell.Program.Basic
import LineShell.Program.Filters
import LineShell.Program.Format
import LineShell.Program.Condition
import LineShell.Program.Plain
import LineShell.Program.Quoting
import LineShell.Program.FileTools
import LineShell.Program.Standard
import LineShell.Script.Grammar
import LineShell.Script.Pattern
import LineShell.Script.Arithmetic
import LineShell.Script.Reader.Words
import LineShell.Script.Reader.Commands
import LineShell.Script.Session
import LineShell.Script.Expansion
import LineShell.Script.Builtins
import LineShell.Script.Interpreter
import LineShell.Main
import LineShell.Proofs.Pipeline.Words
import LineShell.Proofs.Pipeline.Written
import LineShell.Proofs.Pipeline.Joined
import LineShell.Proofs.Descriptor
import LineShell.Proofs.Launch.Execution
import LineShell.Proofs.Launch.Wiring
import LineShell.Proofs.Shell.Conversation
import LineShell.Proofs.Shell.Children
import LineShell.Proofs.Editor.Strokes
import LineShell.Proofs.Editor.Drafts
import LineShell.Proofs.Editor.Display
import LineShell.Proofs.Editor.Capacity
import LineShell.Proofs.Completion.Marks
import LineShell.Proofs.Shell.Tab
import LineShell.Proofs.Files.Walk
import LineShell.Proofs.Files.Sound
import LineShell.Proofs.Search.Runnable
import LineShell.Proofs.Text.Lines
import LineShell.Proofs.Text.Number
import LineShell.Proofs.Text.Order
import LineShell.Proofs.Files.Alike
import LineShell.Proofs.Files.Content
import LineShell.Proofs.Files.Renamed
import LineShell.Proofs.Files.Reordered
import LineShell.Proofs.Store.Text
import LineShell.Proofs.Store.Bookmarks
import LineShell.Proofs.Store.Ledger
import LineShell.Proofs.Store.OpenLine
import LineShell.Proofs.Store.Removal
import LineShell.Proofs.Pipeline.Characters
import LineShell.Proofs.Pipeline.Bare
import LineShell.Proofs.Pipeline.Tokens
import LineShell.Proofs.Pipeline.LastWord
import LineShell.Proofs.Shell.Printing
import LineShell.Proofs.Shell.Nesting
import LineShell.Proofs.Shell.Replay
import LineShell.Proofs.Launch.Openings
import LineShell.Proofs.Job.Answers
import LineShell.Proofs.Job.Mirror
import LineShell.Proofs.Job.Naming
import LineShell.Proofs.Job.Records
import LineShell.Proofs.Job.Order
import LineShell.Proofs.Job.Reaping
import LineShell.Proofs.Store.Shortcuts
import LineShell.Proofs.Shell.Aliases
import LineShell.Proofs.Completion.Position
import LineShell.Proofs.Completion.ReadBack
import LineShell.Proofs.Completion.Agreement
import LineShell.Proofs.Completion.Canonical
import LineShell.Proofs.Editor.Kept
import LineShell.Proofs.Completion.Characters
import LineShell.Proofs.Shell.Controls
import LineShell.Proofs.Pipeline.Items
import LineShell.Proofs.Pipeline.Unquoting
import LineShell.Proofs.Text.Boundaries
import LineShell.Proofs.Editor.Pieces
import LineShell.Proofs.Editor.Budget
import LineShell.Proofs.Completion.Again
import LineShell.Proofs.Shell.Kernels
import LineShell.Proofs.Shell.Directory
import LineShell.Proofs.Shell.Sweeping
import LineShell.Proofs.Text.Slice
import LineShell.Proofs.Pipeline.Contiguous
import LineShell.Proofs.Pipeline.Scan
import LineShell.Proofs.Pipeline.Flags
