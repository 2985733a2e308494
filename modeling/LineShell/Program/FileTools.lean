import LineShell.Program.Plain
import LineShell.Text.Order

/-!
# File tools

Programs that show or change the file tree. What cannot be done is complained about, operand by
operand, and the others are still carried out.
-/

namespace LineShell.Program

/-- Carries something out for every operand and counts the failures as status 1. -/
def forOperands (operands : List String) (f : String → Act Bool) : Act UInt8 :=
  Act.forEach (fun path status => do
    if ← f path then return status else return 1) operands 0

/-- Reports a change that could not be made, in the words `what` and the path. -/
def attempt (name what path : String) (f : FileTree → NodeId → Except Errno FileTree) : Act Bool := do
  match ← change f with
  | .ok () => return true
  | .error e =>
    complain name (what ++ " " ++ quotedName path ++ ": " ++ reason e)
    return false

/-! ## Directories -/

/-- The paths above a path, and the path itself. -/
def pathsTo (path : String) : List String :=
  let p := Path.ofString path
  let start := if p.absolute then "/" else ""
  (p.names.foldl (fun (above, paths) name =>
    let here := if above = "" || above = "/" then above ++ name else above ++ "/" ++ name
    (here, paths ++ [here])) (start, [])).2

/-- `mkdir` -/
def mkdir : Program := fun arguments _ =>
  let (name, rest) := named arguments
  withOptions name "pvZ" "m" rest fun given paths =>
    if paths.isEmpty then missingOperand name
    else forOperands paths fun path =>
      attempt name "cannot create directory" path fun t cwd =>
        if has 'p' given then
          (pathsTo path).foldlM (fun t p =>
            if t.pathIsDirectory cwd p then .ok t else t.makeDirectory cwd p) t
        else t.makeDirectory cwd path

/-- `rmdir` -/
def rmdir : Program := fun arguments _ =>
  let (name, rest) := named arguments
  withOptions name "pv" "" rest fun given paths =>
    if paths.isEmpty then missingOperand name
    else forOperands paths fun path =>
      attempt name "failed to remove" path fun t cwd =>
        if has 'p' given then
          (pathsTo path).reverse.foldlM (fun t p => t.removeDirectory cwd p) t
        else t.removeDirectory cwd path

/-! ## Removing -/

/-- Removes what is below a node, as deep as `depth`. -/
def clear (t : FileTree) : Nat → NodeId → FileTree
  | 0, _ => t
  | depth + 1, i =>
    if t.isDirectory i then
      ((t.entries i).foldl (fun t (_, j) => clear t depth j) t).setEntries i []
    else t

/-- `rm` -/
def rm : Program := fun arguments _ =>
  let (name, rest) := named arguments
  withOptions name "dfiIrRv" "" rest fun given paths =>
    let whole := has 'r' given || has 'R' given
    let force := has 'f' given
    if paths.isEmpty then (if force then .done 0 else missingOperand name)
    else forOperands paths fun path => do
      let missing ← look fun t cwd => (t.locate cwd path true).toOption.isNone
      if missing && force then return true
      attempt name "cannot remove" path fun t cwd => do
        let i ← t.locate cwd path true
        if t.isDirectory i then
          if whole then (clear t t.nodes.size i).removeDirectory cwd path
          else if has 'd' given then t.removeDirectory cwd path
          else .error .isDirectory
        else t.removeFile cwd path

/-! ## Making -/

/-- `touch` -/
def touch : Program := fun arguments _ =>
  let (name, rest) := named arguments
  withOptions name "acfhm" "drt" rest fun given paths =>
    if paths.isEmpty then misused name "missing file operand"
    else forOperands paths fun path =>
      attempt name "cannot touch" path fun t cwd =>
        match t.locate cwd path with
        | .ok _ => .ok t
        | .error e =>
          if has 'c' given then .ok t
          else if e = .noEntry then (t.openWrite cwd path false).map (·.2)
          else .error e

/-- Where something named `source` goes: into the directory `target`, or under that name. -/
def destination (t : FileTree) (cwd : NodeId) (source target : String) : String :=
  if t.pathIsDirectory cwd target then
    let cs := (source.toList.reverse.dropWhile (· = '/')).reverse
    Path.join target (lastName (String.ofList cs))
  else target

/-- The sources and the target of a tool that moves or copies, or what is wrong with them. -/
def sourcesAndTarget (t : FileTree) (cwd : NodeId) (operands : List String) :
    Except String (List String × String) :=
  match operands.reverse with
  | [] => .error "missing file operand"
  | [only] => .error ("missing destination file operand after " ++ quotedName only)
  | target :: sources =>
    if 1 < sources.length && !t.pathIsDirectory cwd target then
      .error ("target " ++ quotedName target ++ ": " ++
        (if (t.locate cwd target).toOption.isSome then "Not a directory" else "No such file or directory"))
    else .ok (sources.reverse, target)

/-- Carries something out for every source and the target. -/
def forSources (name : String) (operands : List String) (f : String → String → Act Bool) : Act UInt8 := do
  match ← look fun t cwd => sourcesAndTarget t cwd operands with
  | .error message =>
    if operands.length < 2 then return ← misused name message
    complain name message
    return 1
  | .ok (sources, target) =>
    forOperands sources fun source => do
      let target ← look fun t cwd => destination t cwd source target
      f source target

/-- Do two paths lead to the same node? Links at their ends count as they are, if `keep`. -/
def isSame (keep : Bool) (source target : String) : Act Bool :=
  look fun t cwd => match t.locate cwd source keep, t.locate cwd target keep with
    | .ok i, .ok j => i = j
    | _, _ => false

/-- Complains that two paths lead to the same node. -/
def complainSame (name source target : String) : Act Bool := do
  complain name (quotedName source ++ " and " ++ quotedName target ++ " are the same file")
  return false

/-- Is there something under a path? A link counts as it is. -/
def isThere (path : String) : Act (Except Errno Unit) :=
  look fun t cwd => (t.locate cwd path true).map fun _ => ()

/-- Complains that there is nothing under a path. -/
def cannotFind (name path : String) (e : Errno) : Act Bool := do
  complain name ("cannot stat " ++ quotedName path ++ ": " ++ reason e)
  return false

/-- Copies a node under a new path, as deep as `depth`. -/
def copyNode (cwd : NodeId) : Nat → NodeId → String → FileTree → Except Errno FileTree
  | 0, _, _, _ => .error .tooManyLinks
  | depth + 1, i, path, t =>
    match t.node? i with
    | some (.directory _ es) => do
      let t ← if t.pathIsDirectory cwd path then .ok t else t.makeDirectory cwd path
      es.foldlM (fun t (name, j) => copyNode cwd depth j (Path.join path name) t) t
    | some (.link target) => t.makeLink cwd target path
    | _ => do
      let content ← t.contentOf i
      let mode := match t.node? i with
        | some (.file _ mode) => mode
        | _ => 0o755
      let isNew := (t.locate cwd path).toOption.isNone
      let t ← t.writeFile cwd path content
      if isNew then
        let j ← t.locate cwd path
        .ok (t.set j (.file content mode))
      else .ok t

/-- `cp` -/
def cp : Program := fun arguments _ =>
  let (name, rest) := named arguments
  withOptions name "abdfHilLnpPrRsTuvxZ" "St" rest fun given operands =>
    let whole := has 'r' given || has 'R' given || has 'a' given
    forSources name operands fun source target => do
      match ← look fun t cwd => (t.locate cwd source).map t.isDirectory with
      | .error e => cannotFind name source e
      | .ok isDirectory =>
        if isDirectory && !whole then
          complain name ("-r not specified; omitting directory " ++ quotedName source)
          return false
        if ← isSame false source target then return ← complainSame name source target
        attempt name "cannot create regular file" target fun t cwd => do
          copyNode cwd (t.nodes.size + 1) (← t.locate cwd source) target t

/-- `mv` -/
def mv : Program := fun arguments _ =>
  let (name, rest) := named arguments
  withOptions name "bfinTuvZ" "St" rest fun _ operands =>
    forSources name operands fun source target => do
      match ← isThere source with
      | .error e => cannotFind name source e
      | .ok () =>
        let isDirectory ← look fun t cwd => t.pathIsDirectory cwd source
        if !isDirectory && (← isSame true source target) then return ← complainSame name source target
        match ← change fun t cwd => t.rename cwd source target with
        | .ok () => return true
        | .error e =>
          complain name (if e = .notDirectory then
              "cannot overwrite non-directory " ++ quotedName target ++ " with directory " ++ quotedName source
            else if e = .invalid then
              "cannot move " ++ quotedName source ++ " to a subdirectory of itself, " ++ quotedName target
            else "cannot move " ++ quotedName source ++ " to " ++ quotedName target ++ ": " ++ reason e)
          return false

/-- `ln`: links are symbolic; a plain one gives a file a second name. -/
def ln : Program := fun arguments _ =>
  let (name, rest) := named arguments
  withOptions name "bdFfiLnPrsTv" "St" rest fun given operands =>
    let symbolic := has 's' given
    let operands := match operands with
      | [only] => [only, "."]
      | _ => operands
    forSources name operands fun source target => do
      if !symbolic then
        match ← look fun t cwd => (t.locate cwd source true).map t.isDirectory with
        | .error e =>
          complain name ("failed to access " ++ quotedName source ++ ": " ++ reason e)
          return false
        | .ok true =>
          complain name (source ++ ": hard link not allowed for directory")
          return false
        | .ok false => pure ()
      let made ← change fun t cwd => do
        let t := if has 'f' given then (t.removeFile cwd target).toOption.getD t else t
        if symbolic then t.makeLink cwd source target
        else
          let i ← t.locate cwd source true
          let spot ← t.resolve cwd target true
          match spot.name, spot.node with
          | some newName, none => .ok (t.setEntries spot.directory (t.entries spot.directory ++ [(newName, i)]))
          | _, _ => .error .fileExists
      match made with
      | .ok () => return true
      | .error e =>
        complain name ("failed to create " ++ (if symbolic then "symbolic" else "hard") ++ " link " ++
          quotedName target ++ ": " ++ reason e)
        return false

/-- `chmod` with a number, or with letters that make a file executable or not. -/
def chmod : Program := fun arguments _ =>
  let (name, rest) := named arguments
  match rest with
  | [mode] => misused name ("missing operand after " ++ quoted mode)
  | mode :: paths =>
    let digits := mode.toList
    let change? : Option (Nat → Nat) :=
      if digits.all Char.isDigit then some fun _ => digits.foldl (fun n c => n * 8 + (c.toNat - 48)) 0
      else match mode with
        | "+x" | "a+x" => some fun m => m ||| 0o111
        | "u+x" => some fun m => m ||| 0o100
        | "-x" | "a-x" => some fun m => m &&& 0o666
        | _ => none
    match change? with
    | none => misused name ("invalid mode: " ++ quoted mode)
    | some f =>
      forOperands paths fun path =>
        attempt name "cannot access" path fun t cwd => do
          let i ← t.locate cwd path
          match t.node? i with
          | some (.file content m) => .ok (t.set i (.file content (f m)))
          | _ => .ok t
  | [] => missingOperand name

/-- `readlink` -/
def readLink : Program := fun arguments _ => do
  let (name, rest) := named arguments
  let (_, paths) := options [] rest
  if paths.isEmpty then return ← missingOperand name
  forOperands paths fun path => do
    match ← look fun t cwd => (t.locate cwd path true).toOption.bind t.node? with
    | some (.link target) =>
      print (target ++ "\n")
      return true
    | _ => return false

/-! ## Listing -/

/-- The names in a directory that are shown. -/
def shownNames (given : List (Char × String)) (t : FileTree) (i : NodeId) : List String :=
  let names := (t.entries i).map (·.1)
  let names :=
    if has 'a' given then "." :: ".." :: names
    else if has 'A' given then names
    else names.filter fun n => n.toList.head? ≠ some '.'
  names.mergeSort Text.le

/-- `ls`: plain files first, then directories with what is in them. -/
def ls : Program := fun arguments _ => do
  let (name, rest) := named arguments
  let (given, paths) := options [] rest
  let operands := (if paths.isEmpty then ["."] else paths).mergeSort Text.le
  let found ← look fun t cwd => operands.map fun path =>
    (path, (t.locate cwd path).map fun i => if t.isDirectory i then some (shownNames given t i) else none)
  let status : UInt8 ← Act.forEach (fun (path, result) status => do
    match (result : Except Errno (Option (List String))) with
    | .error e =>
      complain name ("cannot access " ++ quotedName path ++ ": " ++ reason e)
      return 2
    | .ok _ => return status) found 0
  let files := found.filterMap fun (path, result) => match result with
    | .ok none => some path
    | .ok (some _) => if has 'd' given then some path else none
    | .error _ => none
  let directories := if has 'd' given then [] else found.filterMap fun (path, result) => match result with
    | .ok (some names) => some (path, names)
    | _ => none
  let lines (names : List String) : String := String.join (names.map (· ++ "\n"))
  let sections := directories.map fun (path, names) =>
    (if 1 < operands.length then path ++ ":\n" else "") ++ lines names
  let sections := (if files.isEmpty then [] else [lines files]) ++ sections
  print ("\n".intercalate sections)
  return status

end LineShell.Program
