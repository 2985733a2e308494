import LineShell.Program.Condition
import LineShell.Program.Filters

/-!
# Small programs

Programs that write something, wait for something, or send a signal.
-/

namespace LineShell.Program

/-- A program that does nothing but end with a status. -/
def ending (status : UInt8) : Program := fun _ _ => .done status

/-! ## Writing -/

/-- `echo`, where escape sequences count if asked for. -/
def echo : Program := fun arguments _ =>
  let isOption (word : String) : Bool := match word.toList with
    | '-' :: c :: cs => (c :: cs).all fun c => c = 'n' || c = 'e' || c = 'E'
    | _ => false
  let words := arguments.drop 1
  let letters := (words.takeWhile isOption).flatMap fun w => w.toList.drop 1
  let text := " ".intercalate (words.dropWhile isOption)
  let escapes := (letters.filter (· ≠ 'n')).getLast? = some 'e'
  let (bytes, stop) :=
    if escapes then Format.unescape true (text.length + 1) text.toList else (Utf8.ofString text, false)
  do
    put (bytes ++ (if stop || letters.contains 'n' then [] else [0x0a]))
    return 0

/-- Complains that nothing has been named. -/
def missingOperand (name : String) : Act UInt8 := misused name "missing operand"

/-- How a program speaks of a format that it cannot carry out. -/
structure PrintfWording where
  speaker : String
  /-- What is said and done without a format. -/
  usage : Act UInt8
  notNumber : String → String
  unknown : String → String
  /-- The status after a conversion that is not known. -/
  failure : UInt8

/-- Writes arguments in a format. -/
def printfAs (wording : PrintfWording) : List String → Act UInt8
  | [] => wording.usage
  | "--" :: format :: arguments | format :: arguments => do
    let s := Format.run format arguments
    put s.bytes
    let () ← Act.forEach (fun text () => complain wording.speaker (wording.notNumber text)) s.faults ()
    match s.unknown with
    | some conversion =>
      complain wording.speaker (wording.unknown conversion)
      return wording.failure
    | none => return if s.faults.isEmpty then 0 else 1

/-- `printf` -/
def printf : Program := fun arguments _ =>
  let (name, rest) := named arguments
  printfAs
    { speaker := name
      usage := missingOperand name
      notNumber := fun text => quoted text ++ ": expected a numeric value"
      unknown := fun conversion => conversion ++ ": invalid conversion specification"
      failure := 1 } rest

/-- `yes`: writes the same line for ever. -/
def yes : Program := fun arguments _ =>
  let words := arguments.drop 1
  let line := Utf8.ofString (if words.isEmpty then "y" else " ".intercalate words) ++ [0x0a]
  let block := (List.replicate (max 1 (blockBytes / line.length)) line).flatten
  .loop (fun () => do
    if ← write Descriptor.output block then return .inl () else return .inr 1) ()

/-- A number with decimals, as a whole number of parts of which so many places make one. -/
structure Decimal where
  value : Int
  places : Nat

/-- Reads a number with decimals. -/
def Decimal.read? (text : String) : Option Decimal :=
  let (negative, cs) := match text.toList with
    | '-' :: rest => (true, rest)
    | cs => (false, cs)
  let whole := cs.takeWhile Char.isDigit
  let decimals : Option (List Char) := match cs.drop whole.length with
    | [] => some []
    | '.' :: rest => if rest.all Char.isDigit then some rest else none
    | _ => none
  decimals.bind fun decimals =>
    if whole.isEmpty && decimals.isEmpty then none
    else
      let n : Int := (Number.readDigits 0 (whole ++ decimals)).getD 0
      some ⟨if negative then -n else n, decimals.length⟩

/-- The value with more places. -/
def Decimal.scaled (d : Decimal) (places : Nat) : Int := d.value * Number.tenTo (places - d.places)

/-- Writes a value of so many places. -/
def Decimal.text (places : Nat) (value : Int) : List Char :=
  let digits := Number.digits value.natAbs
  let digits := List.replicate (places + 1 - digits.length) '0' ++ digits
  let whole := digits.take (digits.length - places)
  (if value < 0 then ['-'] else []) ++ whole ++
    (if places = 0 then [] else '.' :: digits.drop (digits.length - places))

/-- How many numbers `seq` writes at once. -/
def seqBlock : Nat := 1000

/-- `seq` -/
def seq : Program := fun arguments _ =>
  let (name, rest) := named arguments
  let isNumber (word : String) : Bool := (Decimal.read? word).isSome
  let ahead := rest.takeWhile fun w => !isNumber w
  let (given, operands) := options ['s'] ahead
  let rest := operands ++ rest.drop ahead.length
  let (given, rest) := match ahead, rest with
    | ["-s"], sep :: more => ([('s', sep)], more)
    | _, _ => (given, rest)
  let numbers := rest.filterMap Decimal.read?
  let range : Option (Decimal × Decimal × Decimal) := match numbers with
    | [last] => some (⟨1, 0⟩, ⟨1, 0⟩, last)
    | [first, last] => some (first, ⟨1, 0⟩, last)
    | [first, step, last] => some (first, step, last)
    | _ => none
  match rest.find? fun w => !isNumber w, range with
  | some word, _ => misused name ("invalid floating point argument: " ++ quoted word)
  | none, none =>
    match rest[3]? with
    | some extra => misused name ("extra operand " ++ quoted extra)
    | none => missingOperand name
  | none, some (first, step, last) =>
    let places := max first.places step.places
    let all := max places last.places
    let start := first.scaled all
    let increment := step.scaled all
    let stop := last.scaled all
    let count : Nat :=
      if increment = 0 then 0 else if 0 < increment then (if start ≤ stop then ((stop - start) / increment).toNat + 1 else 0)
      else if stop ≤ start then ((start - stop) / -increment).toNat + 1 else 0
    let text (i : Nat) : List Char :=
      Decimal.text places ((start + increment * i) / (Number.tenTo (all - places) : Int))
    let width := if has 'w' given && 0 < count then max (text 0).length (text (count - 1)).length else 0
    let separator := ((valueOf 's' given).getD "\n").toList
    let shown (i : Nat) : List Char :=
      let t := text i
      (match t with
        | '-' :: digits => '-' :: List.replicate (width - t.length) '0' ++ digits
        | _ => List.replicate (width - t.length) '0' ++ t) ++
        (if i + 1 = count then ['\n'] else separator)
    if increment = 0 then misused name "invalid Zero increment value: '0'"
    else .loop (fun i => do
      if count ≤ i then return .inr 0
      else
        let block := (List.range' i (min seqBlock (count - i))).flatMap fun i => Utf8.encode (shown i)
        if ← write Descriptor.output block then return .inl (i + seqBlock) else return .inr 1) 0

/-- `tee` -/
def tee : Program := fun arguments _ =>
  let (name, rest) := named arguments
  withOptions name "aip" "" rest fun given paths => do
    let mode : OpenMode := .write (if has 'a' given then .append else .truncate)
    let (ds, failed) ← Act.forEach (fun path (ds, failed) => do
      match ← .perform (.openFile path mode) with
      | .ok d => return (ds ++ [d], failed)
      | .error e =>
        complain name (shownName path ++ ": " ++ reason e)
        return (ds, true)) paths (([] : List Descriptor), false)
    let good ← .loop (fun () => do
      match ← .perform (.read Descriptor.input blockBytes) with
      | .error e =>
        complain name ("read error: " ++ reason e)
        return .inr false
      | .ok [] => return .inr true
      | .ok bytes =>
        let () ← Act.forEach (fun d () => (write d bytes).bind fun _ => .done ()) (Descriptor.output :: ds) ()
        return .inl ()) ()
    return if good && !failed then 0 else 1

/-! ## Names -/

/-- `basename` -/
def baseName : Program := fun arguments _ => do
  let (name, rest) := named arguments
  match rest with
  | [] => missingOperand name
  | path :: more =>
    let cs := (path.toList.reverse.dropWhile (· = '/')).reverse
    let base := (Path.splitLast cs).2
    let base := if base.isEmpty then (if path.isEmpty then [] else ['/']) else base
    let ending := (more.headD "").toList
    let base := if ending.length < base.length && ending.isSuffixOf base
      then base.take (base.length - ending.length) else base
    put (Utf8.encode (base ++ ['\n']))
    return 0

/-- `dirname` -/
def dirName : Program := fun arguments _ => do
  let (name, rest) := named arguments
  match rest with
  | [] => missingOperand name
  | path :: _ =>
    let cs := (path.toList.reverse.dropWhile (· = '/')).reverse
    let (above, _) := Path.splitLast cs
    let above' := (above.reverse.dropWhile (· = '/')).reverse
    let shown := if above.isEmpty then (if path.toList.head? = some '/' && cs.isEmpty then ['/'] else ['.'])
      else if above'.isEmpty then ['/'] else above'
    put (Utf8.encode (shown ++ ['\n']))
    return 0

/-- `pwd` -/
def pwd : Program := fun arguments _ => do
  let (name, _) := named arguments
  match ← look fun t cwd => t.pathOf cwd with
  | .ok path =>
    print (path ++ "\n")
    return 0
  | .error e =>
    complain name (reason e)
    return 1

/-! ## Time and signals -/

/-- The nanoseconds of an interval such as `0.5` or `2m`. -/
def interval? (text : String) : Option Nat :=
  let cs := text.toList
  let (cs, unit) : List Char × Nat := match cs.getLast? with
    | some 's' => (cs.dropLast, 1)
    | some 'm' => (cs.dropLast, 60)
    | some 'h' => (cs.dropLast, 3600)
    | some 'd' => (cs.dropLast, 86400)
    | _ => (cs, 1)
  (Decimal.read? (String.ofList cs)).bind fun d =>
    if d.value < 0 then none else some (d.value.natAbs * unit * 1000000000 / Number.tenTo d.places)

/-- `sleep` -/
def sleep : Program := fun arguments _ =>
  let (name, rest) := named arguments
  withOptions name "" "" rest fun _ words =>
    match words.find? fun w => (interval? w).isNone with
    | some word => misused name ("invalid time interval " ++ quoted word)
    | none => do
      if words.isEmpty then return ← missingOperand name
      .perform (.sleep ((words.filterMap interval?).foldl (· + ·) 0))
      return 0

/-- The names of the signals, from the first on. -/
def signalNames : List String :=
  ["HUP", "INT", "QUIT", "ILL", "TRAP", "ABRT", "BUS", "FPE", "KILL", "USR1", "SEGV", "USR2", "PIPE",
   "ALRM", "TERM", "STKFLT", "CHLD", "CONT", "STOP", "TSTP", "TTIN", "TTOU", "URG", "XCPU", "XFSZ",
   "VTALRM", "PROF", "WINCH", "IO", "PWR", "SYS"]

/-- The number of a signal that is given by its number or its name. -/
def signal? (text : String) : Option Nat :=
  match number? text with
  | some n => some n
  | none =>
    let upper := text.toList.map Char.toUpper
    let bare := if ['S', 'I', 'G'].isPrefixOf upper then upper.drop 3 else upper
    (signalNames.findIdx? (·.toList = bare)).map (· + 1)

/-- `kill`; `speaker` complains, in the words `refusal` if a signal cannot be sent to a process. -/
def killAs (speaker : String) (refusal : String → Errno → String) (arguments : List String) : Act UInt8 := do
  let request : Option (Nat × List String) := match arguments with
    | "-s" :: signal :: pids => (signal? signal).map fun n => (n, pids)
    | "--" :: pids => some (15, pids)
    | word :: pids => match word.toList with
      | '-' :: signal => (signal? (String.ofList signal)).map fun n => (n, pids)
      | _ => some (15, word :: pids)
    | [] => none
  match request with
  | none =>
    complain speaker "bad signal number or arguments"
    return 2
  | some (signal, pids) =>
    Act.forEach (fun text status => do
      match number? text with
      | none =>
        complain speaker ("Illegal number: " ++ text)
        return 2
      | some pid =>
        match ← .perform (.kill pid signal) with
        | .ok () => return status
        | .error e =>
          complain speaker (refusal text e)
          return 1) (pids.filter (· ≠ "--")) 0

/-- `kill` -/
def kill : Program := fun arguments _ =>
  let (name, rest) := named arguments
  killAs name (fun pid e => "(" ++ pid ++ "): " ++ reason e) rest

/-! ## The environment -/

/-- `env`: shows the environment, or starts a program with a changed one. -/
def env : Program := fun arguments environment => do
  let (name, rest) := named arguments
  let isSetting (word : String) : Bool := word.toList.contains '='
  let (given, rest) := leadingOptions ['u'] rest
  let settings := (rest.takeWhile isSetting).filterMap fun w => (Text.splitAt? '=' w.toList).map
    fun (k, v) => (String.ofList k, String.ofList v)
  let base := if has 'i' given then [] else environment.filter fun (k, _) => valueOf 'u' given ≠ some k
  let changed := settings.foldl (fun env (k, v) => env.filter (·.1 ≠ k) ++ [(k, v)]) base
  match rest.dropWhile isSetting with
  | [] =>
    print (String.join (changed.map fun (k, v) => k ++ "=" ++ v ++ "\n"))
    return 0
  | command :: more =>
    let candidates := if command.toList.contains '/' then [command]
      else ((Text.splitOn ':' ((changed.lookup "PATH").getD "/usr/bin:/bin").toList).map
        fun d => Path.join (String.ofList d) command)
    let e ← Act.forEach (fun path _ => .perform (.exec path (command :: more) changed)) candidates Errno.noEntry
    complain name (quoted command ++ ": " ++ reason e)
    return if e = .noEntry then 127 else 126

/-- `printenv` -/
def printEnv : Program := fun arguments environment => do
  match arguments.drop 1 with
  | [] =>
    print (String.join (environment.map fun (k, v) => k ++ "=" ++ v ++ "\n"))
    return 0
  | names =>
    print (String.join (names.filterMap fun k => (environment.lookup k).map (· ++ "\n")))
    return if names.all fun k => (environment.lookup k).isSome then 0 else 1

end LineShell.Program
