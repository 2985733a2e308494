import LineShell.Program.Format

/-!
# Text tools

Tools that read files or standard input and write what they make of it.
-/

namespace LineShell.Program

/-- A number that an option gives. -/
def number? (text : String) : Option Nat :=
  let cs := text.toList
  if cs.isEmpty then none else Number.readDigits 0 cs

/-- Complains about the use of an option and fails. -/
def invalid (name what value : String) : Act UInt8 := do
  complain name ("invalid " ++ what ++ ": " ++ quoted value)
  return 1

/-! ## Passing on -/

namespace Filter

/-- Passes everything on. -/
def all : Filter where
  State := Unit
  start := ()
  block _ bytes := ((), bytes)
  last _ := []

/-- Passes on the first bytes. -/
def firstBytes (count : Nat) : Filter where
  State := Nat
  start := count
  block left bytes := (left - bytes.length, bytes.take left)
  last _ := []
  isEnough left := left = 0

/-- Ends a line. -/
def ended (line : Bytes) : Bytes := line ++ [0x0a]

/-- The bytes up to the end of the given number of lines, and how many lines are missing. -/
def takeLines : Nat → Bytes → Bytes → Nat × Bytes
  | 0, taken, _ => (0, taken.reverse)
  | n + 1, taken, [] => (n + 1, taken.reverse)
  | n + 1, taken, b :: bs => takeLines (if b = 0x0a then n else n + 1) (b :: taken) bs

/-- Passes on the first lines. -/
def firstLines (count : Nat) : Filter where
  State := Nat
  start := count
  block left bytes := takeLines left [] bytes
  last _ := []
  isEnough left := left = 0

/-- The pieces of a text behind each line end; the last may have none. -/
def lineList (bytes : Bytes) : List Bytes :=
  let (lines, rest) := cutLines bytes
  lines.map ended ++ (if rest.isEmpty then [] else [rest])

/-- The last elements. -/
def lastOf {α : Type} (count : Nat) (elements : List α) : List α :=
  elements.drop (elements.length - count)

/-- All but the last elements. -/
def butLast {α : Type} (count : Nat) (elements : List α) : List α :=
  elements.take (elements.length - count)

/-- A part of the lines of a text. -/
def ofLineList (part : List Bytes → List Bytes) (bytes : Bytes) : Bytes :=
  (part (lineList bytes)).flatten

end Filter

/-- A byte in letters that can be seen; tabs and line ends stay as they are. -/
def visibleByte (b : UInt8) : Bytes :=
  let low (b : UInt8) : Bytes :=
    if b = 0x7f then [0x5e, 0x3f] else if b < 0x20 then [0x5e, b + 0x40] else [b]
  if b = 0x09 || b = 0x0a then [b]
  else if b < 0x80 then low b
  else [0x4d, 0x2d] ++ low (b - 0x80)

/-- What `cat` makes of its input: lines are numbered, and what cannot be seen is shown. -/
def dressLines (given : List (Char × String)) (bytes : Bytes) : Bytes :=
  let shows (c : Char) (also : List Char) : Bool := (c :: 'A' :: also).any (has · given)
  let dress (line : Bytes) : Bytes :=
    line.flatMap fun b =>
      if b = 0x0a then (if shows 'E' ['e'] then [0x24, b] else [b])
      else if b = 0x09 then (if shows 'T' ['t'] then [0x5e, 0x49] else [b])
      else if shows 'v' ['e', 't'] then visibleByte b else [b]
  let number (n : Nat) : Bytes :=
    let digits := Number.digits n
    Utf8.encode (List.replicate (6 - digits.length) ' ' ++ digits ++ ['\t'])
  let numbers (line : Bytes) : Bool := if has 'b' given then line ≠ [0x0a] else has 'n' given
  let (_, lines) := (Filter.lineList bytes).foldl (fun (n, lines) line =>
    if numbers line then (n + 1, (number n ++ dress line) :: lines) else (n, dress line :: lines)) (1, [])
  lines.reverse.flatten

/-- `cat` -/
def cat : Program := fun arguments _ =>
  let (name, rest) := named arguments
  withOptions name "AbeEnstTuv" "" rest fun given paths =>
    if given.all fun (c, _) => c = 'u' then Filter.all.run name paths
    else (Filter.ofAll (dressLines given)).run name paths

/-- What a path is called, where standard input has a name of its own. -/
def inputName (path : String) : String := if path = "-" then "standard input" else path

/-- How `head` and `tail` speak of files. -/
def endsWording : Filter.Wording :=
  { opening := fun path => "cannot open " ++ quotedName path ++ " for reading"
    reading := fun path => "error reading " ++ quotedName (inputName path) }

/-- Shows a part of every file, with its name ahead if there are several. -/
def partOfEach (name : String) (f : Filter) (paths : List String) : Act UInt8 :=
  match paths with
  | _ :: _ :: _ => do
    let (_, status) ← Act.forEach (fun path (first, status) => do
      let isThere ← look fun t cwd => path = "-" || (t.locate cwd path).toOption.isSome
      if isThere then print ((if first then "" else "\n") ++ "==> " ++ inputName path ++ " <==\n")
      let (s, used) ← f.feedPath endsWording name path f.start
      put (f.last s)
      return (first && !isThere, if used then status else 1)) paths (true, (0 : UInt8))
    return status
  | _ => f.runWith endsWording name paths

/-- Takes an option such as `-3` for `-n 3`. -/
def countOption (arguments : List String) : List String :=
  match arguments with
  | [] => []
  | word :: rest =>
    match word.toList with
    | '-' :: c :: cs => if c.isDigit then "-n" :: String.ofList (c :: cs) :: rest else arguments
    | _ => arguments

/-- A count as an option gives it: its sign, if any, and its digits. -/
def signedCount (count : String) : Option Char × String :=
  match count.toList with
  | '+' :: digits => (some '+', String.ofList digits)
  | '-' :: digits => (some '-', String.ofList digits)
  | _ => (none, count)

/-- Calls `head` or `tail` with its paths, the sign and the number of the count that is given last,
and whether that counts bytes. -/
def withCount (name plain : String) (arguments : List String)
    (body : List String → Bool → Option Char → Nat → Act UInt8) : Act UInt8 :=
  withOptions name plain "cn" (countOption arguments) fun given paths =>
    let counts := given.filter fun (c, _) => c = 'c' || c = 'n'
    match counts.find? fun (_, count) => (number? (signedCount count).2).isNone with
    | some (c, count) =>
      invalid name (if c = 'c' then "number of bytes" else "number of lines") (signedCount count).2
    | none =>
      let (c, count) := counts.getLastD ('n', "10")
      let (sign, digits) := signedCount count
      body paths (c = 'c') sign ((number? digits).getD 0)

/-- `head` -/
def head : Program := fun arguments _ =>
  let (name, rest) := named arguments
  withCount name "qvz" rest fun paths bytes sign n =>
    partOfEach name (match sign, bytes with
      | some '-', true => Filter.ofAll (Filter.butLast n)
      | some '-', false => Filter.ofAll (Filter.ofLineList (Filter.butLast n))
      | _, true => Filter.firstBytes n
      | _, false => Filter.firstLines n) paths

/-- `tail` -/
def tail : Program := fun arguments _ =>
  let (name, rest) := named arguments
  withCount name "fFqvz" rest fun paths bytes sign n =>
    partOfEach name (Filter.ofAll (match sign, bytes with
      | some '+', true => List.drop (n - 1)
      | some '+', false => Filter.ofLineList (List.drop (n - 1))
      | _, true => Filter.lastOf n
      | _, false => Filter.ofLineList (Filter.lastOf n))) paths

/-! ## Counting -/

structure Count where
  lines : Nat := 0
  words : Nat := 0
  bytes : Nat := 0
  /-- The last byte belongs to a word. -/
  inWord : Bool := false

def isSpaceByte (b : UInt8) : Bool := b = 0x20 || (0x09 ≤ b && b ≤ 0x0d)

/-- Counts one more byte. -/
def Count.add (c : Count) (b : UInt8) : Count :=
  { lines := if b = 0x0a then c.lines + 1 else c.lines
    words := if !isSpaceByte b && !c.inWord then c.words + 1 else c.words
    bytes := c.bytes + 1
    inWord := !isSpaceByte b }

def Count.sum (a b : Count) : Count :=
  { lines := a.lines + b.lines, words := a.words + b.words, bytes := a.bytes + b.bytes }

/-- The numbers that are asked for; every byte is a character. -/
def Count.shown (given : List (Char × String)) (c : Count) : List Nat :=
  if given.isEmpty then [c.lines, c.words, c.bytes]
  else
    (if has 'l' given then [c.lines] else []) ++ (if has 'w' given then [c.words] else []) ++
      (if has 'm' given then [c.bytes] else []) ++ (if has 'c' given then [c.bytes] else [])

/-- What `wc` has found out about an input. -/
structure Counted where
  path : String
  count : Count
  /-- The size, of a regular file. -/
  size : Option Nat

/-- The width of the columns: as wide as the sizes, but at least seven if an input is no regular
file. A single number stands alone. -/
def columnWidth (alone : Bool) (inputs : List Counted) : Nat :=
  if alone then 1
  else
    let width := (Number.digits (inputs.foldl (fun n c => n + c.size.getD 0) 0)).length
    if inputs.all (·.size.isSome) then width else max width 7

/-- `wc` -/
def wc : Program := fun arguments _ => do
  let (name, rest) := named arguments
  withOptions name "cLlmw" "" rest fun given paths => do
    let inputs := if paths.isEmpty then ["-"] else paths
    let (counted, failed) ← Act.forEach (fun path (counted, failed) => do
      let opened : Except Errno Descriptor ←
        if path = "-" then pure (.ok Descriptor.input) else .perform (.openFile path .read)
      match opened with
      | .error e =>
        complain name (shownName path ++ ": " ++ reason e)
        return (counted, true)
      | .ok d =>
        let size ← .perform (.size d)
        match ← readAll d with
        | .error e =>
          complain name (shownName (if paths.isEmpty then inputName path else path) ++ ": " ++ reason e)
          return (counted ++ [{ path, count := {}, size : Counted }], true)
        | .ok bytes =>
          return (counted ++ [{ path, count := bytes.foldl Count.add {}, size : Counted }], failed)) inputs
      (([] : List Counted), false)
    let total := counted.foldl (fun sum c => sum.sum c.count) {}
    let width := columnWidth (inputs.length = 1 && (total.shown given).length = 1) counted
    let rows := counted.map (fun c => (c.path, c.count)) ++
      (if 1 < inputs.length then [("total", total)] else [])
    let text := rows.flatMap fun (path, c) =>
      let columns := (c.shown given).map fun n =>
        let digits := Number.digits n
        List.replicate (width - digits.length) ' ' ++ digits
      [' '].intercalate columns ++ (if paths.isEmpty then [] else ' ' :: path.toList) ++ ['\n']
    put (Utf8.encode text)
    return if failed then 1 else 0

/-! ## Order -/

/-- Is one line before another, byte by byte, or the same? -/
def leBytes : Bytes → Bytes → Bool
  | [], _ => true
  | _ :: _, [] => false
  | a :: as, b :: bs => if a = b then leBytes as bs else a < b

/-- The number that a line begins with: its digits as a whole number, and how many of them are
decimals. -/
def leadingNumber (line : Bytes) : Int × Nat :=
  let text := (Utf8.decodeLossy line).dropWhile fun c => c = ' ' || c = '\t'
  let (negative, text) := match text with
    | '-' :: rest => (true, rest)
    | _ => (false, text)
  let whole := text.takeWhile Char.isDigit
  let decimals := match text.drop whole.length with
    | '.' :: rest => rest.takeWhile Char.isDigit
    | _ => []
  let value : Int := (Number.readDigits 0 (whole ++ decimals)).getD 0
  (if negative then -value else value, decimals.length)

/-- Is the number of a line at most that of another? -/
def leNumber (a b : Bytes) : Bool :=
  let (m, places) := leadingNumber a
  let (n, places') := leadingNumber b
  m * Number.tenTo places' ≤ n * Number.tenTo places

/-- A line with capital letters for small ones. -/
def capitals (line : Bytes) : Bytes :=
  line.map fun b => if 0x61 ≤ b && b ≤ 0x7a then b - 0x20 else b

/-- `sort`: lines that the key does not tell apart are ordered as a whole. -/
def sort : Program := fun arguments _ =>
  let (name, rest) := named arguments
  withOptionsOr 2 name "bcCdfghiMmnRrsuVz" "kotST" rest fun given paths =>
    let key (a b : Bytes) : Bool :=
      if has 'n' given then leNumber a b
      else if has 'f' given then leBytes (capitals a) (capitals b)
      else leBytes a b
    let le (a b : Bytes) : Bool :=
      let (x, y) := if has 'r' given then (b, a) else (a, b)
      if key x y && key y x then has 'u' given || leBytes x y else key x y
    let same (a b : Bytes) : Bool := key a b && key b a
    let unique (lines : List Bytes) : List Bytes :=
      (lines.foldl (fun kept l => match kept with
        | k :: _ => if same k l then kept else l :: kept
        | [] => [l]) []).reverse
    let arrange (bytes : Bytes) : Bytes :=
      let (lines, rest) := Filter.cutLines bytes
      let lines := if rest.isEmpty then lines else lines ++ [rest]
      let sorted := lines.mergeSort le
      ((if has 'u' given then unique sorted else sorted).map Filter.ended).flatten
    do
      let wording : Filter.Wording :=
        { opening := fun path => "cannot read: " ++ shownName path
          reading := fun path => "read failed: " ++ shownName path }
      let collect : Filter := Filter.ofAll id
      let (blocks, good) ← Act.forEach (fun path (s, good) =>
        if good then collect.feedPath wording name path s else pure (s, good))
        (if paths.isEmpty then ["-"] else paths) (collect.start, true)
      if !good then return 2
      let sorted := arrange (collect.last blocks)
      match valueOf 'o' given with
      | none => put sorted
      | some path =>
        match ← .perform (.openFile path (.write .truncate)) with
        | .ok d => let _ ← write d sorted
        | .error e =>
          complain name ("open failed: " ++ shownName path ++ ": " ++ reason e)
          return 2
      return 0

/-- `tac` -/
def tac : Program := fun arguments _ =>
  let (name, rest) := named arguments
  (Filter.ofAll fun bytes => (Filter.lineList bytes).reverse.flatten).runWith
    { opening := fun path => "failed to open " ++ quotedName path ++ " for reading"
      reading := fun path => shownName (inputName path) ++ ": read error" } name (options [] rest).2

/-- `rev` -/
def rev : Program := fun arguments _ =>
  let (name, rest) := named arguments
  let turn (line : Bytes) : Bytes := Utf8.encode (Utf8.decodeLossy line).reverse
  (Filter.ofAll fun bytes =>
    let (lines, rest) := Filter.cutLines bytes
    (lines.map fun l => Filter.ended (turn l)).flatten ++ turn rest).runWith
      { opening := ("cannot open " ++ ·) } name (options [] rest).2

/-- `uniq` -/
def uniq : Program := fun arguments _ =>
  let (name, rest) := named arguments
  withOptions name "cdDiuz" "fsw" rest fun given paths =>
    let shown (line : Bytes) (count : Nat) : Bytes :=
      if has 'd' given && count = 1 || has 'u' given && 1 < count then []
      else if has 'c' given then
        let digits := Number.digits count
        Utf8.encode (List.replicate (7 - digits.length) ' ' ++ digits ++ [' ']) ++ Filter.ended line
      else Filter.ended line
    let line (s : Option (Bytes × Nat)) (l : Bytes) : Option (Bytes × Nat) × Bytes :=
      match s with
      | none => (some (l, 1), [])
      | some (k, n) => if k = l then (some (k, n + 1), []) else (some (l, 1), shown k n)
    (Filter.ofLines none line (fun s => s.elim [] fun (k, n) => shown k n) (fun _ => false)
      (fun _ => 0)).runWith { reading := fun path => "error reading " ++ quotedName path } name paths

/-! ## Characters and fields -/

/-- The bytes from one to another. -/
def byteRange (first last : UInt8) : Bytes :=
  (List.range' first.toNat (last.toNat + 1 - first.toNat)).map UInt8.ofNat

/-- The classes of bytes that have a name. -/
def byteClasses : List (String × Bytes) :=
  let upper := byteRange 0x41 0x5a
  let lower := byteRange 0x61 0x7a
  let digit := byteRange 0x30 0x39
  [("upper", upper), ("lower", lower), ("digit", digit), ("alpha", upper ++ lower),
   ("alnum", digit ++ upper ++ lower), ("space", byteRange 0x09 0x0d ++ [0x20]), ("blank", [0x09, 0x20]),
   ("punct", byteRange 0x21 0x2f ++ byteRange 0x3a 0x40 ++ byteRange 0x5b 0x60 ++ byteRange 0x7b 0x7e)]

/-- A class at the front of a set, and what follows it. -/
def leadingClass? (set : List Char) : Option (Bytes × List Char) :=
  byteClasses.findSome? fun (name, bytes) =>
    let written := ("[:" ++ name ++ ":]").toList
    if written.isPrefixOf set then some (bytes, set.drop written.length) else none

/-- The bytes of the character or escape sequence at the front of a set, and what follows it. -/
def leadingBytes : List Char → Bytes × List Char
  | [] => ([], [])
  | '\\' :: rest =>
    match Format.readEscape false rest with
    | .bytes [0x5c, b] 1 => ([b], rest.drop 1)
    | .bytes bytes length => (bytes, rest.drop length)
    | .stop => ([0x63], rest.drop 1)
  | c :: rest => (Utf8.encode [c], rest)

/-- The bytes of a set, in its order, or what is wrong with it. A set of so many characters at most is
read. -/
def byteSet : Nat → List Char → Except String Bytes
  | 0, _ | _, [] => .ok []
  | n + 1, set =>
    match leadingClass? set with
    | some (bytes, rest) => (byteSet n rest).map (bytes ++ ·)
    | none =>
      match leadingBytes set with
      | ([first], '-' :: c :: rest) =>
        match leadingBytes (c :: rest) with
        | ([last], rest) =>
          if last < first then
            .error ("range-endpoints of " ++ quoted (String.ofList (Utf8.decodeLossy [first, 0x2d, last])) ++
              " are in reverse collating sequence order")
          else (byteSet n rest).map (byteRange first last ++ ·)
        | (bytes, rest) => (byteSet n rest).map ([first, 0x2d] ++ bytes ++ ·)
      | (bytes, rest) => (byteSet n rest).map (bytes ++ ·)

/-- What `tr` does to bytes: those in the first set are deleted, or replaced by those of the second,
and repeated ones are squeezed to one. -/
def transliterate (given : List (Char × String)) (set : Bytes) (second : Option Bytes) : Filter :=
  let inSet (b : UInt8) : Bool := set.contains b != (has 'c' given || has 'C' given)
  let deletes := has 'd' given
  let squeezes (b : UInt8) : Bool :=
    has 's' given && (second.elim (inSet b) (·.contains b))
  let exchange (b : UInt8) : UInt8 :=
    match second with
    | none => b
    | some others =>
      if deletes || !inSet b then b
      else match set.reverse.findIdx? (· = b) with
        | some i => (others[set.length - 1 - i]?).getD (others.getLastD b)
        | none => others.getLastD b
  let step (s : Option UInt8 × Bytes) (b : UInt8) : Option UInt8 × Bytes :=
    let (before, out) := s
    if deletes && inSet b then (before, out)
    else
      let c := exchange b
      if squeezes c && before = some c then (before, out) else (some c, c :: out)
  { State := Option UInt8
    start := none
    block := fun before bytes =>
      let (before, out) := bytes.foldl step (before, [])
      (before, out.reverse)
    last := fun _ => [] }

/-- How a tool speaks of standard input if it reads nothing else. -/
def plainReading : Filter.Wording := { reading := fun _ => "read error" }

/-- `tr` -/
def tr : Program := fun arguments _ =>
  let (name, rest) := named arguments
  withOptions name "cCdst" "" rest fun given sets =>
    let read (set : String) : Except String Bytes := byteSet (set.toList.length + 1) set.toList
    match sets with
    | [] => misused name "missing operand"
    | [set] =>
      if !has 'd' given && !has 's' given then
        misused name ("missing operand after " ++ quoted set ++ "\nTwo strings must be given when translating.")
      else match read set with
        | .ok set => (transliterate given set none).runWith plainReading name []
        | .error message => do
          complain name message
          return 1
    | [set, second] =>
      match read set, read second with
      | .ok set, .ok second =>
        if second.isEmpty && !has 'd' given && !has 't' given then do
          complain name "when not truncating set1, string2 must be non-empty"
          return 1
        else (transliterate given set (some second)).runWith plainReading name []
      | .error message, _ | _, .error message => do
        complain name message
        return 1
    | _ :: _ :: extra :: _ => misused name ("extra operand " ++ quoted extra)

/-- A list of numbers and ranges, such as `1,3-`. -/
def inRanges (list : String) (n : Nat) : Bool :=
  (Text.splitOn ',' list.toList).any fun range =>
    match Text.splitAt? '-' range with
    | none => Number.readDigits 0 range = some n
    | some (first, last) =>
      (if first.isEmpty then 1 else (Number.readDigits 0 first).getD 1) ≤ n &&
        (last.isEmpty || n ≤ (Number.readDigits 0 last).getD 0)

/-- The elements whose places are in the list. -/
def select {α : Type} (list : String) (elements : List α) : List α :=
  (elements.zipIdx 1).filterMap fun (e, n) => if inRanges list n then some e else none

/-- `cut` -/
def cut : Program := fun arguments _ =>
  let (name, rest) := named arguments
  withOptions name "nsz" "bcdf" rest fun given paths =>
    let separator := ((valueOf 'd' given).bind fun d => d.toList.head?).getD '\t'
    let line (l : Bytes) : Bytes :=
      match valueOf 'f' given with
      | some list =>
        let text := Utf8.decodeLossy l
        if text.contains separator then
          Utf8.encode ([separator].intercalate (select list (Text.splitOn separator text)))
        else if has 's' given then [] else l
      | none => select ((valueOf 'c' given).getD ((valueOf 'b' given).getD "1-")) l
    if ['b', 'c', 'f'].any (has · given) then
      (Filter.ofLines () (fun _ l => ((), Filter.ended (line l))) (fun _ => []) (fun _ => false)
        (fun _ => 0)).run name paths
    else misused name "you must specify a list of bytes, characters, or fields"

end LineShell.Program
