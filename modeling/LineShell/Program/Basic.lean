import LineShell.Program.Quoting
import LineShell.System.Task

/-!
# What programs have in common

Programs write to their standard output, complain on their standard error with their name ahead, and
read files in blocks. Most text tools are a `Filter`, which sees its input block by block and says
what to write meanwhile, what at the end, and whether it needs more.
-/

namespace LineShell.Program

/-- Why a system call failed, in the words of the system's programs. -/
def reason (e : Errno) : String :=
  if e = .tooManyLinks then "Too many levels of symbolic links"
  else if e = .badDescriptor then "Bad file descriptor"
  else e.text

/-- Writes bytes to a descriptor: whether that was possible. -/
def write (d : Descriptor) (bytes : Bytes) : Act Bool := do
  if bytes.isEmpty then return true
  match ← .perform (.write d bytes) with
  | .ok () => return true
  | .error _ => return false

/-- Writes bytes to standard output. -/
def put (bytes : Bytes) : Act Unit := do
  let _ ← write Descriptor.output bytes

/-- Writes a text to standard output. -/
def print (text : String) : Act Unit := put (Utf8.ofString text)

/-- Writes a line to standard error. -/
def complainLine (line : String) : Act Unit := do
  let _ ← write Descriptor.error (Utf8.ofString (line ++ "\n"))

/-- Complains with the name of the program ahead. -/
def complain (name message : String) : Act Unit :=
  complainLine (name ++ ": " ++ message)

/-- The last name of a path. -/
def lastName (path : String) : String :=
  let (_, name) := Path.splitLast path.toList
  if name.isEmpty then path else String.ofList name

/-- The name by which a program speaks of itself, and its arguments. -/
def named (arguments : List String) : String × List String :=
  match arguments with
  | [] => ("", [])
  | name :: rest => (name, rest)

/-- Asks for something about the file tree. -/
def look {ρ : Type} (f : FileTree → NodeId → ρ) : Act ρ :=
  .perform (.files fun t cwd => (f t cwd, t))

/-- Tries to change the file tree. -/
def change (f : FileTree → NodeId → Except Errno FileTree) : Act (Except Errno Unit) :=
  .perform (.files fun t cwd => match f t cwd with
    | .ok t' => (.ok (), t')
    | .error e => (.error e, t))

/-- The number of bytes that a program reads at once. -/
def blockBytes : Nat := 8192

/-- Reads a descriptor to its end. -/
def readAll (d : Descriptor) : Act (Except Errno Bytes) := do
  let result : Except Errno (List Bytes) ← .loop (fun (blocks : List Bytes) => do
    match ← .perform (.read d blockBytes) with
    | .error e => return .inr (.error e)
    | .ok [] => return .inr (.ok blocks)
    | .ok bytes => return .inl (bytes :: blocks)) []
  return result.map fun blocks => blocks.reverse.flatten

/-! ## Options -/

/-- Complains about the use of a tool, and fails. -/
def misused (name message : String) (status : UInt8 := 1) : Act UInt8 := do
  complain name message
  complainLine ("Try '" ++ name ++ " --help' for more information.")
  return status

/-- The options and the operands among arguments. A letter of `valued` takes a value, from the rest
of its word or from the next; without one, it is the value of a colon. A word with two dashes ahead
is the value of a dash. -/
def options (valued : List Char) : List String → List (Char × String) × List String
  | [] => ([], [])
  | word :: rest =>
    match word.toList with
    | ['-', '-'] => ([], rest)
    | '-' :: '-' :: _ =>
      let (more, operands) := options valued rest
      (('-', word) :: more, operands)
    | '-' :: c :: cs =>
      let letters := c :: cs
      let plain := letters.takeWhile fun c => !valued.contains c
      let found := plain.map fun c => (c, "")
      match letters.drop plain.length with
      | [] =>
        let (more, operands) := options valued rest
        (found ++ more, operands)
      | v :: [] =>
        match rest with
        | [] => (found ++ [(':', String.singleton v)], [])
        | value :: rest =>
          let (more, operands) := options valued rest
          (found ++ (v, value) :: more, operands)
      | v :: value =>
        let (more, operands) := options valued rest
        (found ++ (v, String.ofList value) :: more, operands)
    | _ =>
      let (more, operands) := options valued rest
      (more, word :: operands)

/-- The options ahead of the first operand, and the rest. -/
def leadingOptions (valued : List Char) (arguments : List String) : List (Char × String) × List String :=
  match arguments with
  | word :: value :: rest =>
    match word.toList with
    | ['-', '-'] => ([], value :: rest)
    | ['-', c] =>
      if valued.contains c then
        let (more, operands) := leadingOptions valued rest
        ((c, value) :: more, operands)
      else
        let (more, operands) := leadingOptions valued (value :: rest)
        ((c, "") :: more, operands)
    | _ => ([], arguments)
  | [word] =>
    match word.toList with
    | ['-', c] => ([(c, "")], [])
    | _ => ([], arguments)
  | [] => ([], [])

/-- Calls a tool with its options and operands. An option that it does not know is a `failure`. -/
def withOptionsOr (failure : UInt8) (name plain valued : String) (arguments : List String)
    (body : List (Char × String) → List String → Act UInt8) : Act UInt8 :=
  let (given, operands) := options valued.toList arguments
  let misses (what word : String) : Act UInt8 := misused name (what ++ " '" ++ word ++ "'") failure
  let known := plain.toList ++ valued.toList
  match given.find? fun (c, _) => !known.contains c with
  | none => body given operands
  | some ('-', word) => misses "unrecognized option" word
  | some (':', letter) => misses "option requires an argument --" letter
  | some (c, _) => misses "invalid option --" (String.singleton c)

/-- The same, where every failure has the status 1. -/
def withOptions (name plain valued : String) (arguments : List String)
    (body : List (Char × String) → List String → Act UInt8) : Act UInt8 :=
  withOptionsOr 1 name plain valued arguments body

/-- Is the option given? -/
def has (c : Char) (given : List (Char × String)) : Bool := given.any (·.1 = c)

/-- The value of an option; the last one counts. -/
def valueOf (c : Char) (given : List (Char × String)) : Option String :=
  (given.reverse.find? (·.1 = c)).map (·.2)

/-! ## Filters -/

/-- A text tool that sees its input block by block. -/
structure Filter where
  State : Type
  start : State
  /-- What a block does and what is written then. -/
  block : State → Bytes → State × Bytes
  /-- What is written at the end of the input. -/
  last : State → Bytes
  /-- No more input is needed. -/
  isEnough : State → Bool := fun _ => false
  status : State → UInt8 := fun _ => 0

namespace Filter

/-- Feeds a descriptor to a filter. -/
def feed (f : Filter) (d : Descriptor) (s : f.State) : Act (Except Errno f.State) :=
  .loop (fun s => do
    if f.isEnough s then return .inr (.ok s)
    match ← .perform (.read d blockBytes) with
    | .error e => return .inr (.error e)
    | .ok [] => return .inr (.ok s)
    | .ok bytes =>
      let (s, out) := f.block s bytes
      if ← write Descriptor.output out then return .inl s else return .inr (.ok s)) s

/-- How a tool speaks of files that it cannot use, and the status that it ends with then. -/
structure Wording where
  opening : String → String := shownName
  reading : String → String := shownName
  failure : UInt8 := 1

/-- Feeds one file to a filter, or standard input, which is called `-`: the state of the filter, and
whether the file could be used. -/
def feedPath (f : Filter) (wording : Wording) (name path : String) (s : f.State) : Act (f.State × Bool) := do
  let opened : Except Errno Descriptor ←
    if path = "-" then pure (.ok Descriptor.input) else .perform (.openFile path .read)
  match opened with
  | .error e =>
    complain name (wording.opening path ++ ": " ++ reason e)
    return (s, false)
  | .ok d =>
    let fed ← f.feed d s
    if path ≠ "-" then .perform (.close d)
    match fed with
    | .ok s => return (s, true)
    | .error e =>
      complain name (wording.reading path ++ ": " ++ reason e)
      return (s, false)

/-- Feeds files to a filter, one after the other, or standard input if there are none. -/
def runWith (wording : Wording) (name : String) (f : Filter) (paths : List String) : Act UInt8 := do
  let (s, good) ← Act.forEach (fun path (s, good) => do
    let (s, used) ← f.feedPath wording name path s
    return (s, good && used)) (if paths.isEmpty then ["-"] else paths) (f.start, true)
  put (f.last s)
  return if good then f.status s else wording.failure

/-- The same in plain words. -/
def run (name : String) (f : Filter) (paths : List String) : Act UInt8 :=
  f.runWith {} name paths

/-- The lines of a stretch of bytes, without their ends, and what follows the last of them. -/
def cutLines (bytes : Bytes) : List Bytes × Bytes :=
  let (lines, line) := bytes.foldl (fun (lines, line) b =>
    if b = 0x0a then (List.reverse line :: lines, []) else (lines, b :: line)) ([], [])
  (lines.reverse, line.reverse)

/-- A filter that sees its input line by line. A last line without an end is seen too. -/
def ofLines {σ : Type} (start : σ) (line : σ → Bytes → σ × Bytes) (last : σ → Bytes)
    (isEnough : σ → Bool) (status : σ → UInt8) : Filter where
  State := σ × Bytes
  start := (start, [])
  block s bytes :=
    let (lines, rest) := cutLines (s.2 ++ bytes)
    let (s, out) := lines.foldl (fun (s, out) l =>
      if isEnough s then (s, out) else
        let (s, o) := line s l
        (s, o :: out)) (s.1, [])
    ((s, rest), out.reverse.flatten)
  last s :=
    if s.2.isEmpty || isEnough s.1 then last s.1
    else
      let (s, out) := line s.1 s.2
      out ++ last s
  isEnough s := isEnough s.1
  status s := status s.1

/-- A filter that writes something about its whole input. -/
def ofAll (f : Bytes → Bytes) : Filter where
  State := List Bytes
  start := []
  block blocks bytes := (bytes :: blocks, [])
  last blocks := f blocks.reverse.flatten

end Filter

end LineShell.Program
