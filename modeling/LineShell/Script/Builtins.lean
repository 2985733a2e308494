import LineShell.Program.Plain
import LineShell.Script.Expansion

/-!
# The commands of an interpreter

Commands that an interpreter carries out itself, because they change its own state or because
starting a program would be too much.
-/

namespace LineShell.Script.Builtins

/-- A command: its arguments, and the status that it ends with. -/
abbrev Builtin := Below → List String → Step UInt8

/-- A number without sign. -/
def count? (text : String) : Option Nat := Program.number? text

/-- Complains about an argument that is no number, and ends the script. -/
def illegalNumber (text : String) : Step UInt8 :=
  Step.abort ("Illegal number: " ++ text) 2

/-- Leaves a command with a status, which is the last one unless it is given. -/
def leaving (how : UInt8 → Leave) : Builtin := fun _ arguments => do
  match arguments with
  | [] => Step.leave (how (← Step.get).status)
  | text :: _ =>
    match count? text with
    | some n => Step.leave (how (UInt8.ofNat n))
    | none => illegalNumber text

/-- Leaves loops; outside of them nothing happens. -/
def leavingLoops (how : Nat → Leave) : Builtin := fun _ arguments => do
  let loops := (← Step.get).loops
  match arguments.head?.elim (some 1) count? with
  | none => illegalNumber (arguments.headD "")
  | some n =>
    if loops = 0 then return 0
    Step.setStatus 0
    Step.leave (how (min loops (max 1 n)))

/-- Changes the working directory. -/
def cd : Builtin := fun _ arguments => do
  let arguments := arguments.filter fun a => a ≠ "-L" && a ≠ "-P" && a ≠ "--"
  let target ← match arguments with
    | [] => pure ((← Step.value? "HOME").getD "")
    | "-" :: _ => pure ((← Step.value? "OLDPWD").getD "")
    | path :: _ => pure path
  if target.isEmpty then return 0
  match ← Step.act (.perform (.changeDirectory target)) with
  | .error _ =>
    Step.complain ("can't cd to " ++ target)
    return 2
  | .ok () =>
    Step.setVariable "OLDPWD" ((← Step.value? "PWD").getD "")
    match ← Step.act (Program.look fun t cwd => t.pathOf cwd) with
    | .ok path => Step.setVariable "PWD" path
    | .error _ => pure ()
    if arguments.head? = some "-" then
      Step.act (Program.print ((← Step.value? "PWD").getD "" ++ "\n"))
    return 0

/-- Shows the working directory. -/
def pwd : Builtin := fun _ arguments => do
  let known ← Step.value? "PWD"
  let path ← Step.act (Program.look fun t cwd => t.pathOf cwd)
  match (if arguments.contains "-P" then none else known), path with
  | some path, _ | none, .ok path =>
    Step.act (Program.print (path ++ "\n"))
    return 0
  | none, .error e =>
    Step.complain (Program.reason e)
    return 1

/-- Writes its arguments; escape sequences count. -/
def echo : Builtin := fun _ arguments => do
  let (ends, words) := match arguments with
    | "-n" :: rest => (false, rest)
    | _ => (true, arguments)
  let text := (" ".intercalate words).toList
  let (bytes, stop) := Program.Format.unescape true (text.length + 1) text
  let written ← Step.act (Program.write Descriptor.output (bytes ++ (if ends && !stop then [0x0a] else [])))
  if written then return 0
  else
    Step.complain "echo: I/O error"
    return 1

/-- A program that complains as the interpreter does. -/
def spoken (run : String → List String → Act UInt8) : Builtin := fun _ arguments => do
  Step.act (run (← Step.speaker) arguments)

/-- `test` and `[` -/
def test (bracket : Bool) (speaker : String) (words : List String) : Act UInt8 :=
  let fault : Program.Condition.Fault → String
    | .number text => "Illegal number: " ++ text
    | .unexpected last _ => (if last.isEmpty then "" else last ++ ": ") ++ "unexpected operator"
    | .missing operator => operator ++ ": argument expected"
    | .unclosed => "closing paren expected"
  Program.testAs { speaker, unclosed := "missing ]", fault } false bracket words

/-- `printf` -/
def printf (speaker : String) (words : List String) : Act UInt8 :=
  Program.printfAs
    { speaker
      usage := do
        Program.complain speaker "usage: printf format [arg ...]"
        return 2
      notNumber := fun text => text ++ ": expected numeric value"
      unknown := fun conversion => conversion ++ ": invalid directive"
      failure := 2 } words

/-- `kill` -/
def kill (speaker : String) (words : List String) : Act UInt8 :=
  Program.killAs speaker (fun _ e => Program.reason e ++ "\n") words

/-- Drops parameters. -/
def shift : Builtin := fun _ arguments => do
  match arguments.head?.elim (some 1) count? with
  | none => illegalNumber (arguments.headD "")
  | some n =>
    let s ← Step.get
    if s.parameters.length < n then Step.abort "can't shift that many" 2
    else
      Step.modify fun s => { s with parameters := s.parameters.drop n }
      return 0

/-- Switches what a letter stands for. -/
def setOption (on : Bool) (letter : Char) : Step Unit :=
  match letter with
  | 'e' => Step.modify ({ · with stopsOnFailure := on })
  | 'u' => Step.modify ({ · with needsVariables := on })
  | 'f' => Step.modify ({ · with keepsPatterns := on })
  | 'x' => Step.modify ({ · with showsCommands := on })
  | _ => pure ()

/-- The letters of the options that are set by name. -/
def optionLetters : List (String × Char) :=
  [("allexport", 'a'), ("errexit", 'e'), ("noclobber", 'C'), ("noexec", 'n'), ("noglob", 'f'),
   ("nounset", 'u'), ("verbose", 'v'), ("xtrace", 'x')]

/-- Switches an option that is given by name. -/
def setNamedOption (on : Bool) (name : String) : Step Unit :=
  match optionLetters.lookup name with
  | some letter => setOption on letter
  | none => Step.abort ("Illegal option -o " ++ name) 2

/-- Sets options and parameters. -/
def setArguments : List String → Step Unit
  | [] => pure ()
  | "--" :: rest => Step.modify ({ · with parameters := rest })
  | "-o" :: name :: rest => do
    setNamedOption true name
    setArguments rest
  | "+o" :: name :: rest => do
    setNamedOption false name
    setArguments rest
  | word :: rest =>
    match word.toList with
    | '-' :: c :: letters => do
      Step.forEach (setOption true) (c :: letters)
      setArguments rest
    | '+' :: c :: letters => do
      Step.forEach (setOption false) (c :: letters)
      setArguments rest
    | _ => Step.modify ({ · with parameters := word :: rest })

/-- A text in single quotes. -/
def inQuotes (text : String) : String :=
  let escaped := text.toList.flatMap fun c => if c = '\x27' then "'\\''".toList else [c]
  "'" ++ String.ofList escaped ++ "'"

/-- `set` -/
def set : Builtin := fun _ arguments => do
  if arguments.isEmpty then
    let s ← Step.get
    let sorted := s.vars.mergeSort fun a b => Text.le a.1 b.1
    Step.act (Program.print (String.join (sorted.map fun (k, v) => k ++ "=" ++ inQuotes v ++ "\n")))
  else setArguments arguments
  return 0

/-- The name of a variable and the value that it is to get, if any. -/
def assignment (word : String) : String × Option String :=
  match Text.splitAt? '=' word.toList with
  | some (name, value) => (String.ofList name, some (String.ofList value))
  | none => (word, none)

/-- Marks variables, with new values if there are any, or shows those that are marked. -/
def marking (verb : String) (marked : Session → List String) (mark : String → Session → Session) :
    Builtin := fun _ arguments => do
  match arguments.filter (· ≠ "--") with
  | [] | ["-p"] =>
    let s ← Step.get
    let lines := ((marked s).mergeSort Text.le).map fun name =>
      verb ++ " " ++ name ++ ((s.vars.lookup name).elim "" fun v => "=" ++ inQuotes v) ++ "\n"
    Step.act (Program.print (String.join lines))
  | words =>
    Step.forEach (fun word => do
      let (name, value) := assignment word
      if let some value := value then Step.setVariable name value
      Step.modify (mark name)) words
  return 0

/-- Gives variables to other programs. -/
def exportVariables : Builtin :=
  marking "export" (·.exported) fun name s => { s with exported := name :: s.exported.filter (· ≠ name) }

/-- Lets variables keep their values. -/
def fixVariables : Builtin :=
  marking "readonly" (·.fixed) fun name s => { s with fixed := name :: s.fixed.filter (· ≠ name) }

/-- Makes variables local to the function that is being called. -/
def makeLocal : Builtin := fun _ arguments => do
  Step.forEach (fun word => do
    let (name, value) := assignment word
    let s ← Step.get
    match s.locals with
    | none => Step.abort "not in a function" 2
    | some known =>
      if !known.any (·.1 = name) then
        Step.modify ({ · with locals := some ((name, s.vars.lookup name) :: known) })
      if let some value := value then Step.setVariable name value) arguments
  return 0

/-- Forgets variables or functions. -/
def unset : Builtin := fun _ arguments => do
  match arguments with
  | "-f" :: names => Step.modify fun s => { s with functions := s.functions.filter fun f => !names.contains f.1 }
  | "-v" :: names | names => Step.forEach Step.unsetVariable names
  return 0

/-- Reads a line, byte by byte: what it holds, and whether it has an end. -/
def readLine (raw : Bool) : Step (Bytes × Bool) :=
  Step.loop (fun (line : Bytes) => do
    match ← Step.act (.perform (.read Descriptor.input 1)) with
    | .ok [b] =>
      if b = 0x0a then
        if !raw && line.head? = some 0x5c then return .inl line.tail
        else return .inr (line.reverse, true)
      else return .inl (b :: line)
    | _ => return .inr (line.reverse, false)) []

/-- Gives the fields of a line to variables; the last one gets all that is left. -/
def distribute (separators : List Char) : List String → List Char → Step Unit
  | [], _ => pure ()
  | [name], text =>
    Step.setVariable name (String.ofList (text.reverse.dropWhile separators.contains).reverse)
  | name :: names, text => do
    let value := text.takeWhile fun c => !separators.contains c
    Step.setVariable name (String.ofList value)
    distribute separators names ((text.drop value.length).dropWhile separators.contains)

/-- `read` -/
def read : Builtin := fun _ arguments => do
  let (given, names) := Program.options ['p'] arguments
  if names.isEmpty then
    Step.complain "arg count"
    return 2
  let (line, ended) ← readLine (Program.has 'r' given)
  let separators ← Expansion.separators
  let text := Utf8.decodeLossy line
  let text := if Program.has 'r' given then text else text.filter (· ≠ '\\')
  distribute separators names (text.dropWhile separators.contains)
  return if ended then 0 else 1

/-- Waits for children that were left running. -/
def wait : Builtin := fun _ arguments =>
  match arguments with
  | [] => Step.loop (fun () => do
      match ← Step.act (.perform (.wait none)) with
      | .ok _ => return .inl ()
      | .error _ => return .inr 0) ()
  | pids => do
    let mut status := 0
    for text in pids do
      status ← match count? text with
        | none => pure 127
        | some pid => do
          match ← Step.act (.perform (.wait (some pid))) with
          | .ok (_, s) =>
            Step.mention s
            pure s.code
          | .error _ => pure 127
    return status

/-- Carries out its arguments as a script. -/
def eval : Builtin := fun below arguments => do
  Step.setStatus 0
  below.source (" ".intercalate arguments).toList
  return (← Step.get).status

/-- Carries out a script in a file. A name without a slash is looked for along the search path. -/
def source : Builtin := fun below arguments => do
  match arguments with
  | [] => return 0
  | name :: _ =>
    let searchPath := (← Step.value? "PATH").getD ""
    let isBare := !name.toList.contains '/'
    let paths := if isBare then
        (Text.splitOn ':' searchPath.toList).map fun d => Path.join (String.ofList d) name
      else [name]
    let found ← Step.act (Program.look fun t cwd =>
      paths.findSome? fun path => (t.readFile cwd path).toOption.map fun bytes => (path, bytes))
    match found with
    | some (path, bytes) =>
      Step.setStatus 0
      let line := (← Step.get).line
      Step.ensure (Step.inPlace path (below.source (Utf8.decodeLossy bytes)))
        (Step.modify ({ · with line }))
      return (← Step.get).status
    | none =>
      if isBare then Step.abort (name ++ ": not found") 2
      else Step.abort ("cannot open " ++ name ++ ": No such file") 2

/-- Remembers what is to be done at the end; other occasions do not come. -/
def trap : Builtin := fun _ arguments => do
  match arguments with
  | action :: occasions =>
    if occasions.any fun o => o = "EXIT" || o = "0" then
      Step.modify ({ · with atExit := if action = "-" then none else some action })
  | [] => pure ()
  return 0

/-- Shows the mask for new files. -/
def umask : Builtin := fun _ arguments => do
  if arguments.isEmpty then Step.act (Program.print "0022\n")
  return 0

/-- Does nothing. -/
def nothing : Builtin := fun _ _ => pure 0

/-- Commands whose failure ends the script, and whose assignments stay. -/
def special : List (String × Builtin) :=
  [(":", nothing), (".", source), ("break", leavingLoops .break),
   ("continue", leavingLoops .continue), ("eval", eval), ("exit", leaving .exit),
   ("export", exportVariables), ("readonly", fixVariables), ("return", leaving .return), ("set", set),
   ("shift", shift), ("trap", trap), ("unset", unset)]

/-- The other commands. -/
def ordinary : List (String × Builtin) :=
  [("cd", cd), ("pwd", pwd), ("echo", echo), ("true", nothing), ("false", fun _ _ => pure 1),
   ("test", spoken (test false)), ("[", spoken (test true)),
   ("printf", spoken printf), ("kill", spoken kill), ("read", read),
   ("wait", wait), ("umask", umask), ("local", makeLocal), ("alias", nothing), ("unalias", nothing),
   ("hash", nothing), ("jobs", nothing), ("ulimit", nothing), ("times", nothing)]

def isSpecial (name : String) : Bool := special.any (·.1 = name)

def find? (name : String) : Option Builtin :=
  (special.lookup name).or (ordinary.lookup name)

end LineShell.Script.Builtins
