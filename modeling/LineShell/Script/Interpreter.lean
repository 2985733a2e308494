import LineShell.Script.Builtins
import LineShell.Script.Reader.Commands

/-!
# Carrying out scripts

Commands are carried out one after the other. A command that is neither a function nor one of the
interpreter's own is looked for along the search path and started in a child. Scripts inside scripts
are carried out at most `Interpreter.maxDepth` levels deep.
-/

namespace LineShell.Script.Interpreter

/-- How deep scripts may call scripts. -/
def maxDepth : Nat := 100

/-! ## Redirects -/

/-- Why a file could not be opened, in the words of the interpreter. -/
def openFault (writing : Bool) (path : String) (e : Errno) : String :=
  let verb := if writing then "cannot create " else "cannot open "
  let why := if e = .noEntry then (if writing then "Directory nonexistent" else "No such file")
    else Program.reason e
  verb ++ path ++ ": " ++ why

/-- Opens a file as a certain descriptor: whether that was possible. -/
def openAs (descriptor : Descriptor) (path : String) (mode : OpenMode) : Step Bool := do
  match ← Step.act (.perform (.openFile path mode)) with
  | .error e =>
    Step.complain (openFault (mode ≠ .read) path e)
    return false
  | .ok d =>
    if d ≠ descriptor then
      let _ ← Step.act (.perform (.duplicate d descriptor))
      Step.act (.perform (.close d))
    return true

/-- Lets a descriptor read a text. -/
def openText (descriptor : Descriptor) (text : String) : Step Bool := do
  let (r, w) ← Step.act (.perform .makePipe)
  let _ ← Step.fork do
    Step.act (.perform (.close r))
    let _ ← Step.act (Program.write w (Utf8.ofString text))
  Step.act (.perform (.close w))
  if r ≠ descriptor then
    let _ ← Step.act (.perform (.duplicate r descriptor))
    Step.act (.perform (.close r))
  return true

/-- Carries out a redirect: whether that was possible. -/
def redirect (below : Below) (r : Redirect) : Step Bool := do
  let target ← Expansion.text below r.target
  match r.kind with
  | .input => openAs r.descriptor target .read
  | .output => openAs r.descriptor target (.write .truncate)
  | .append => openAs r.descriptor target (.write .append)
  | .document => openText r.descriptor target
  | .copy =>
    if target = "-" then
      Step.act (.perform (.close r.descriptor))
      return true
    else match Program.number? target with
      | none => Step.abort "Syntax error: Bad fd number" 2
      | some d =>
        match ← Step.act (.perform (.duplicate d r.descriptor)) with
        | .ok () => return true
        | .error e =>
          Step.complain (target ++ ": " ++ Program.reason e)
          return false

/-- Carries out redirects up to one that is not possible. -/
def redirectAll (below : Below) : List Redirect → Step Bool
  | [] => pure true
  | r :: rs => do if ← redirect below r then redirectAll below rs else return false

/-- Does something between redirects, which are taken back afterwards. If one is not possible, `failed`
is done instead. -/
def between (below : Below) (redirects : List Redirect) (body failed : Step Unit) : Step Unit := do
  if redirects.isEmpty then body
  else
    let table ← Step.act (.perform .table)
    Step.ensure (do if ← redirectAll below redirects then body else failed)
      (Step.act (.perform (.restore table)))

/-! ## Children -/

/-- Waits for a child and takes over its status. -/
def waitFor (pid : Pid) : Step Unit := do
  match ← Step.act (.perform (.wait (some pid))) with
  | .error _ => Step.setStatus 0
  | .ok (_, status) =>
    Step.mention status
    Step.setStatus status.code

/-- Ends the script if the last command failed and that matters. -/
def checkFailure : Step Unit := do
  let s ← Step.get
  if s.stopsOnFailure && s.tested = 0 && s.status ≠ 0 then Step.leave (.exit s.status)

/-- Does something as part of a condition. -/
def testing (body : Step Unit) : Step Unit := do
  Step.modify fun s => { s with tested := s.tested + 1 }
  Step.ensure body (Step.modify fun s => { s with tested := s.tested - 1 })

/-- The paths under which a command may be found. -/
def candidates (searchPath name : String) : List String :=
  if name.toList.contains '/' then [name]
  else (Text.splitOn ':' searchPath.toList).map fun d => Path.join (String.ofList d) name

/-- The first of these paths that can be started, or anything that is there. -/
def locate (paths : List String) : Step (Option String) :=
  Step.act (Program.look fun t cwd =>
    (paths.find? (t.pathIsExecutable cwd)).or
      (paths.find? fun path => (t.locate cwd path).toOption.isSome))

/-- Becomes another program. A file that is no program is carried out as a script. -/
def become (below : Below) (name : String) (arguments : List String) : Step Unit := do
  match ← locate (candidates ((← Step.value? "PATH").getD "") name) with
  | none => Step.abort (name ++ ": not found") 127
  | some path =>
    let e ← Step.act (.perform (.exec path (name :: arguments) (← Step.environment)))
    if e = .noExec then
      match ← Step.act (Program.look fun t cwd => t.readFile cwd path) with
      | .error _ => Step.leave (.exit 126)
      | .ok bytes =>
        Step.modify ({ · with name := path, parameters := arguments, functions := [] })
        below.source (Utf8.decodeLossy bytes)
        Step.leave (.exit (← Step.get).status)
    else if e = .noEntry then Step.abort (name ++ ": not found") 127
    else Step.abort (name ++ ": " ++ Program.reason e) 126

/-! ## Commands -/

/-- Expands and makes assignments. -/
def assignAll (below : Below) : List (String × Word) → Step Unit
  | [] => pure ()
  | (name, word) :: rest => do
    Step.setVariable name (← Expansion.text below word)
    assignAll below rest

/-- Does something with assignments that are taken back afterwards. -/
def withAssignments (below : Below) (assignments : List (String × Word)) (body : Step Unit) : Step Unit := do
  if assignments.isEmpty then body
  else
    let before ← Step.get
    assignAll below assignments
    Step.modify fun s => { s with exported := assignments.map (·.1) ++ s.exported }
    Step.ensure body (Step.modify fun s => { s with
      vars := assignments.foldl (fun vs (name, _) =>
        let vs := vs.filter (·.1 ≠ name)
        match before.vars.lookup name with
        | some value => (name, value) :: vs
        | none => vs) s.vars
      exported := before.exported })

/-- Calls a function. -/
def call (below : Below) (body : Command) (arguments : List String) : Step Unit := do
  let before ← Step.get
  Step.modify ({ · with parameters := arguments, loops := 0, locals := some [] })
  let result ← Step.attempt (below.body body)
  Step.forEach (fun (name, value) => Step.changeVariable name value) ((← Step.get).locals.getD [])
  Step.modify ({ · with parameters := before.parameters, loops := before.loops, locals := before.locals })
  match result with
  | .ok () => return ()
  | .error (.return status) => Step.setStatus status
  | .error e => Step.leave e

/-- Carries out a command of the interpreter. -/
def runBuiltin (below : Below) (name : String) (builtin : Builtins.Builtin) (arguments : List String) :
    Step Unit := do
  Step.setStatus (← Step.inPlace name (builtin below arguments))

/-- Tells what a name stands for, in a sentence or not: whether it stands for anything. -/
def describe (sentence : Bool) (name : String) : Step Bool := do
  let s ← Step.get
  let say (short long : String) : Step Bool := do
    Step.act (Program.print ((if sentence then name ++ " is " ++ long else short) ++ "\n"))
    return true
  if (s.functions.lookup name).isSome then say name "a shell function"
  else if Builtins.isSpecial name then say name "a special shell builtin"
  else if (Builtins.find? name).isSome then say name "a shell builtin"
  else
    match ← locate (candidates ((← Step.value? "PATH").getD "") name) with
    | some path => say path path
    | none =>
      if sentence then Step.act (Program.print (name ++ ": not found\n"))
      return false

/-- Tells what names stand for. -/
def describeAll (sentence : Bool) (names : List String) : Step Unit := do
  let known ← names.mapM (describe sentence)
  Step.setStatus (if known.all id then 0 else 127)

/-- Carries out a command whose words are known. A program that is the last one of a child takes the
child's place. -/
def runWords (below : Below) (last : Bool) (assignments : List (String × Word)) (redirects : List Redirect)
    (name : String) (arguments : List String) : Step Unit := do
  let failed := Step.setStatus 2
  let external (name : String) (arguments : List String) : Step Unit :=
    let body := withAssignments below assignments (become below name arguments)
    between below redirects (if last then body else do waitFor (← Step.fork body)) failed
  let s ← Step.get
  match name, arguments, s.functions.lookup name with
  | _, _, some body => between below redirects (withAssignments below assignments (call below body arguments)) failed
  | "exec", command :: rest, none =>
    between below redirects
      (withAssignments below assignments (Step.inPlace "exec" (become below command rest))) failed
  | "exec", [], none => if !(← redirectAll below redirects) then Step.leave (.exit 2)
  | "command", "-v" :: names, none =>
    between below redirects (describeAll false names) failed
  | "type", names, none => between below redirects (describeAll true names) failed
  | "command", command :: rest, none =>
    match Builtins.find? command with
    | some b => between below redirects (withAssignments below assignments (runBuiltin below command b rest)) failed
    | none => external command rest
  | _, _, none =>
    match Builtins.find? name with
    | some b =>
      if Builtins.isSpecial name then
        assignAll below assignments
        between below redirects (runBuiltin below name b arguments) (Step.leave (.exit 2))
      else between below redirects (withAssignments below assignments (runBuiltin below name b arguments)) failed
    | none => external name arguments

/-- Carries out a simple command. -/
def runSimple (below : Below) (last : Bool) (line : Nat) (assignments : List (String × Word)) (words : List Word)
    (redirects : List Redirect) : Step Unit := do
  Step.modify ({ · with line, wordStatus := 0 })
  match ← Expansion.fields below words with
  | [] =>
    assignAll below assignments
    Step.setStatus (← Step.get).wordStatus
    between below redirects (pure ()) (Step.setStatus 2)
  | name :: arguments =>
    if (← Step.get).showsCommands then
      Step.act (Program.complainLine ("+ " ++ " ".intercalate (name :: arguments)))
    runWords below last assignments redirects name arguments
  checkFailure

/-- One round of a loop: whether there is another. -/
def round (body : Step Unit) : Step Bool := do
  Step.modify fun s => { s with loops := s.loops + 1 }
  let result ← Step.attempt body
  Step.modify fun s => { s with loops := s.loops - 1 }
  match result with
  | .ok () => return true
  | .error (.break n) => if n ≤ 1 then return false else Step.leave (.break (n - 1))
  | .error (.continue n) => if n ≤ 1 then return true else Step.leave (.continue (n - 1))
  | .error e => Step.leave e

/-- Does something for every value of a variable, until a round breaks off. -/
def forEach (name : String) (body : Step Unit) : List String → Step Unit
  | [] => pure ()
  | value :: rest => do
    Step.setVariable name value
    if ← round body then forEach name body rest

/-- Does any of the patterns match the text? -/
def anyMatches (below : Below) (text : List Char) : List Word → Step Bool
  | [] => pure false
  | p :: ps => do
    if (Pattern.ofGlyphs (← Expansion.glyphs below p)).accepts text then return true
    else anyMatches below text ps

/-- A child of a pipeline: it reads from `input` and writes to `output`. -/
def stage (input : Option Descriptor) (pipe : Option (Descriptor × Descriptor)) (body : Step Unit) :
    Step Pid :=
  Step.fork do
    match input with
    | some d =>
      let _ ← Step.act (.perform (.duplicate d Descriptor.input))
      Step.act (.perform (.close d))
    | none => pure ()
    match pipe with
    | some (r, w) =>
      Step.act (.perform (.close r))
      let _ ← Step.act (.perform (.duplicate w Descriptor.output))
      Step.act (.perform (.close w))
    | none => pure ()
    body

mutual

/-- Carries out a command, which may be the last one of a child. -/
def run (below : Below) (last : Bool) : Command → Step Unit
  | .nothing => pure ()
  | .simple line assignments words redirects => runSimple below last line assignments words redirects
  | .redirected line body redirects => do
    Step.modify ({ · with line })
    between below redirects (run below false body) (do
      Step.setStatus 2
      checkFailure)
  | .pipe first rest => do
    let (r, w) ← Step.act (.perform .makePipe)
    let pid ← stage none (some (r, w)) (run below true first)
    Step.act (.perform (.close w))
    let pids ← runRest below r [pid] rest
    Step.forEach (fun pid => waitFor pid) pids.reverse
    checkFailure
  | .negated body => do
    testing (run below false body)
    Step.setStatus (if (← Step.get).status = 0 then 1 else 0)
  | .both first second => do
    testing (run below false first)
    if (← Step.get).status = 0 then run below last second
  | .either first second => do
    testing (run below false first)
    if (← Step.get).status ≠ 0 then run below last second
  | .sequence first second => do
    run below false first
    run below last second
  | .background body => do
    let pid ← Step.fork do
      let _ ← openAs Descriptor.input "/dev/null" .read
      run below true body
    Step.modify ({ · with lastBackground := some pid, status := 0 })
  | .subshell body => do
    if last then run below true body else waitFor (← Step.fork (run below true body))
    checkFailure
  | .branch condition body otherwise => do
    testing (run below false condition)
    if (← Step.get).status = 0 then
      Step.setStatus 0
      run below last body
    else
      Step.setStatus 0
      run below last otherwise
  | .loop isUntil condition body => do
    let status ← Step.loop (fun (last : UInt8) => do
      let goesOn ← round (do
        testing (run below false condition)
        if ((← Step.get).status = 0) = isUntil then Step.leave (.break 1))
      if goesOn then
        let more ← round (run below false body)
        let last := (← Step.get).status
        return if more then .inl last else .inr last
      else return .inr last) 0
    Step.setStatus status
  | .each line name words body => do
    Step.modify ({ · with line })
    let values ← match words with
      | some words => Expansion.fields below words
      | none => do pure (← Step.get).parameters
    Step.setStatus 0
    forEach name (run below false body) values
  | .select line word arms => do
    Step.modify ({ · with line })
    let text ← Expansion.text below word
    Step.setStatus 0
    runArms below last text.toList arms
  | .define name body => do
    Step.modify fun s => { s with functions := (name, body) :: s.functions.filter (·.1 ≠ name), status := 0 }

/-- Carries out the rest of a pipeline, which reads from a descriptor; gives the children, the last
one first. -/
def runRest (below : Below) (input : Descriptor) (pids : List Pid) : Command → Step (List Pid)
  | .pipe first rest => do
    let (r, w) ← Step.act (.perform .makePipe)
    let pid ← stage (some input) (some (r, w)) (run below true first)
    Step.act (.perform (.close w))
    Step.act (.perform (.close input))
    runRest below r (pid :: pids) rest
  | body => do
    let pid ← stage (some input) none (run below true body)
    Step.act (.perform (.close input))
    return pid :: pids

/-- Carries out the first alternative that matches. -/
def runArms (below : Below) (last : Bool) (text : List Char) : Arms → Step Unit
  | .none => pure ()
  | .arm patterns body rest => do
    if ← anyMatches below text patterns then run below last body else runArms below last text rest

end

/-- Carries out a text, line by line. -/
def runText (run : Command → Step Unit) (text : List Char) : Step Unit :=
  Step.loop (fun (source : Source) => do
    match Reader.next source with
    | .error fault =>
      Step.modify ({ · with line := fault.line })
      Step.abort ("Syntax error: " ++ fault.message) 2
    | .ok (none, _) => return .inr ()
    | .ok (some c, rest) =>
      run c
      return .inl rest) { text }

/-- Carries out scripts that call others at most so deep. -/
def within : Nat → Below
  | 0 =>
    let tooDeep {α : Type} : Step α := Step.abort "Maximum function recursion depth (100) reached" 2
    { source := fun _ => tooDeep, body := fun _ => tooDeep }
  | depth + 1 =>
    { source := fun text => runText (run (within depth) false) text, body := fun c => run (within depth) false c }

/-! ## The program -/

/-- What an interpreter is to carry out. -/
inductive Input where
  | text (source : String)
  | file (path : String)
  | standard

/-- Reads the options: the letters, and the other arguments. -/
def readOptions : List String → List Char × List String
  | [] => ([], [])
  | "--" :: rest => ([], rest)
  | word :: rest =>
    match word.toList with
    | '-' :: c :: cs =>
      let (letters, rest) := readOptions rest
      (c :: cs ++ letters, rest)
    | _ => ([], word :: rest)

/-- The working directory as the environment names it, if it does so rightly. -/
def knownDirectory (environment : List (String × String)) (t : FileTree) (cwd : NodeId) : Except Errno String :=
  match environment.lookup "PWD" with
  | some path =>
    if path.toList.head? = some '/' && (t.locate cwd path).toOption = some cwd then .ok path else t.pathOf cwd
  | none => t.pathOf cwd

/-- Where commands are looked for if the environment does not say. -/
def defaultPath : String := "/usr/local/sbin:/usr/local/bin:/usr/sbin:/usr/bin:/sbin:/bin"

/-- The interpreter as a program. -/
def program : Program := fun arguments environment => do
  let (called, rest) := Program.named arguments
  let (letters, rest) := readOptions rest
  let (input, name, parameters) : Input × String × List String :=
    if letters.contains 'c' then
      match rest with
      | [] => (.text "", called, [])
      | [source] => (.text source, called, [])
      | source :: name :: parameters => (.text source, name, parameters)
    else if letters.contains 's' then (.standard, called, rest)
    else match rest with
      | [] => (.standard, called, [])
      | path :: parameters => (.file path, path, parameters)
  let (pid, parent) ← .perform .self
  let directory ← Program.look (knownDirectory environment)
  if let .error e := directory then
    Program.complainLine (called ++ ": 0: getcwd() failed: " ++ Program.reason e)
  let directory := directory.toOption.toList.map fun path => ("PWD", path)
  let session : Session := {
    name, parameters, pid, parent
    vars := directory ++
      (if (environment.lookup "PATH").isSome then [] else [("PATH", defaultPath)]) ++
      [("IFS", " \t\n"), ("OPTIND", "1"), ("PPID", String.ofList (Number.digits parent))] ++
      environment.filter fun (k, _) => k ≠ "PWD" && k ≠ "IFS" && k ≠ "OPTIND" && k ≠ "PPID"
    exported := "PWD" :: ((environment.map (·.1)).filter (· ≠ "PWD")).reverse }
  let below := within maxDepth
  let carryOut : Step Unit := do
    Step.forEach (Builtins.setOption true) letters
    match input with
    | .text source => below.source source.toList
    | .standard =>
      let bytes ← Step.act (Program.readAll Descriptor.input)
      below.source (Utf8.decodeLossy (bytes.toOption.getD []))
    | .file path =>
      match ← Step.act (Program.look fun t cwd => t.readFile cwd path) with
      | .ok bytes => below.source (Utf8.decodeLossy bytes)
      | .error e =>
        Step.modify ({ · with name := called, line := 0 })
        Step.abort (openFault false path e) 2
  let ending : Step Unit := do
    let result ← Step.attempt carryOut
    let s ← Step.get
    let status := match result with
      | .error (.exit status) | .error (.return status) => status
      | _ => s.status
    Step.setStatus status
    match s.atExit with
    | none => pure ()
    | some action =>
      Step.modify ({ · with atExit := none })
      below.source action.toList
      Step.setStatus status
  let (result, s) ← ending session
  match result with
  | .error (.exit status) => return status
  | _ => return s.status

end LineShell.Script.Interpreter
