import LineShell.Program.Basic
import LineShell.Text.Number

/-!
# Formatted output

A format is text with escape sequences and conversions. Each conversion takes an argument; the
format is used again while there are arguments, and an argument that is missing is empty or zero.
-/

namespace LineShell.Program.Format

/-- The value of a digit of a base up to sixteen. -/
def digitOf (base : Nat) (c : Char) : Option Nat :=
  let v :=
    if '0' ≤ c ∧ c ≤ '9' then c.toNat - '0'.toNat
    else if 'a' ≤ c ∧ c ≤ 'f' then c.toNat - 'a'.toNat + 10
    else if 'A' ≤ c ∧ c ≤ 'F' then c.toNat - 'A'.toNat + 10
    else base
  if v < base then some v else none

/-- Reads at most so many digits: how many there are, and their value. -/
def readDigits (base : Nat) : Nat → Nat → List Char → Nat × Nat
  | 0, _, _ => (0, 0)
  | _, value, [] => (0, value)
  | n + 1, value, c :: cs =>
    match digitOf base c with
    | none => (0, value)
    | some d =>
      match readDigits base n (value * base + d) cs with
      | (0, _) => (1, value * base + d)
      | (count, v) => (count + 1, v)

/-- What an escape sequence stands for, and how many characters it has behind the backslash. -/
inductive Escape where
  | bytes (b : Bytes) (length : Nat)
  | stop

/-- Reads an escape sequence behind its backslash. An octal number has three digits; with
`leadingZero` it begins with a zero that does not count. -/
def readEscape (leadingZero : Bool) : List Char → Escape
  | [] => .bytes [0x5c] 0
  | c :: cs =>
    match c with
    | 'a' => .bytes [0x07] 1
    | 'b' => .bytes [0x08] 1
    | 'c' => .stop
    | 'e' => .bytes [0x1b] 1
    | 'f' => .bytes [0x0c] 1
    | 'n' => .bytes [0x0a] 1
    | 'r' => .bytes [0x0d] 1
    | 't' => .bytes [0x09] 1
    | 'v' => .bytes [0x0b] 1
    | '\\' => .bytes [0x5c] 1
    | '\x22' => if leadingZero then .bytes [0x5c, 0x22] 1 else .bytes [0x22] 1
    | 'x' =>
      match readDigits 16 2 0 cs with
      | (0, _) => .bytes [0x5c, 0x78] 1
      | (n, v) => .bytes [UInt8.ofNat v] (n + 1)
    | _ =>
      if leadingZero && c = '0' then
        let (n, v) := readDigits 8 3 0 cs
        .bytes [UInt8.ofNat v] (n + 1)
      else match readDigits 8 3 0 (c :: cs) with
        | (0, _) => .bytes (0x5c :: Utf8.encode [c]) 1
        | (n, v) => .bytes [UInt8.ofNat v] n

/-- Replaces escape sequences: the bytes, and whether the text asked to stop there. -/
def unescape (leadingZero : Bool) : Nat → List Char → Bytes × Bool
  | 0, _ => ([], false)
  | _, [] => ([], false)
  | n + 1, c :: cs =>
    if c = '\\' then
      match readEscape leadingZero cs with
      | .stop => ([], true)
      | .bytes b length =>
        let (more, stop) := unescape leadingZero n (cs.drop length)
        (b ++ more, stop)
    else
      let (more, stop) := unescape leadingZero n cs
      (Utf8.encode [c] ++ more, stop)

/-- How a conversion is laid out. -/
structure Layout where
  left : Bool := false
  zeros : Bool := false
  plus : Bool := false
  space : Bool := false
  alternate : Bool := false
  width : Nat := 0
  precision : Option Nat := none

/-- A piece of a format. -/
inductive Piece where
  | text (b : Bytes)
  | stop
  | convert (layout : Layout) (letter : Char)

/-- Reads the flags of a conversion. -/
def readFlags (l : Layout) : List Char → Layout × List Char
  | '-' :: cs => readFlags { l with left := true } cs
  | '0' :: cs => readFlags { l with zeros := true } cs
  | '+' :: cs => readFlags { l with plus := true } cs
  | ' ' :: cs => readFlags { l with space := true } cs
  | '#' :: cs => readFlags { l with alternate := true } cs
  | cs => (l, cs)

/-- Reads a conversion behind its sign. -/
def readConversion (cs : List Char) : Option (Piece × List Char) :=
  let (layout, cs) := readFlags {} cs
  let digits := cs.takeWhile Char.isDigit
  let layout := { layout with width := (Number.readDigits 0 digits).getD 0 }
  let cs := cs.drop digits.length
  let (layout, cs) := match cs with
    | '.' :: rest =>
      let digits := rest.takeWhile Char.isDigit
      ({ layout with precision := some ((Number.readDigits 0 digits).getD 0) }, rest.drop digits.length)
    | _ => (layout, cs)
  match cs with
  | letter :: rest => some (.convert layout letter, rest)
  | [] => none

/-- Reads a format. -/
def read : Nat → List Char → List Piece
  | 0, _ => []
  | _, [] => []
  | n + 1, c :: cs =>
    if c = '\\' then
      match readEscape false cs with
      | .stop => [.stop]
      | .bytes b length => .text b :: read n (cs.drop length)
    else if c = '%' then
      match cs with
      | '%' :: rest => .text [0x25] :: read n rest
      | _ => match readConversion cs with
        | some (piece, rest) => piece :: read n rest
        | none => [.text [0x25]]
    else .text (Utf8.encode [c]) :: read n cs

/-- Fills up to the width. -/
def pad (l : Layout) (text : Bytes) : Bytes :=
  let fill := List.replicate (l.width - text.length) (0x20 : UInt8)
  if l.left then text ++ fill else fill ++ text

/-- Fills a number up to the width, with zeros behind its sign if asked to. -/
def padNumber (l : Layout) (sign digits : List Char) : Bytes :=
  let digits := List.replicate (l.precision.getD 1 - digits.length) '0' ++ digits
  let length := sign.length + digits.length
  if l.zeros && !l.left && l.precision.isNone then
    Utf8.encode (sign ++ List.replicate (l.width - length) '0' ++ digits)
  else pad l (Utf8.encode (sign ++ digits))

/-- Reads the number of an argument: its value, and whether all of the argument is one. -/
def numberOf (text : List Char) : Int × Bool :=
  let text := text.dropWhile isBlank
  match text with
  | [] => (0, true)
  | '\x27' :: c :: _ => (c.toNat, true)
  | '\x22' :: c :: _ => (c.toNat, true)
  | _ =>
    let (negative, digits) := match text with
      | '-' :: rest => (true, rest)
      | '+' :: rest => (false, rest)
      | _ => (false, text)
    let (base, digits) := match digits with
      | '0' :: 'x' :: rest => (16, rest)
      | '0' :: 'X' :: rest => (16, rest)
      | '0' :: rest => (8, '0' :: rest)
      | _ => (10, digits)
    let (count, value) := readDigits base digits.length 0 digits
    let n : Int := value
    (if negative then -n else n, count = digits.length && 0 < count)

/-- What has been written so far and what is still to come. -/
structure State where
  /-- Pieces of output, the last one first. -/
  out : List Bytes := []
  arguments : List String
  stopped : Bool := false
  /-- Arguments that are no numbers. -/
  faults : List String := []
  /-- A conversion that is not known, which ends everything. -/
  unknown : Option String := none

def State.put (s : State) (b : Bytes) : State := { s with out := b :: s.out }

/-- All that has been written. -/
def State.bytes (s : State) : Bytes := s.out.reverse.flatten

/-- Converts the next argument. -/
def convert (s : State) (l : Layout) (letter : Char) : State :=
  let argument := s.arguments.headD ""
  let s := { s with arguments := s.arguments.drop 1 }
  let text := argument.toList
  let bytes := Utf8.ofString argument
  let number := numberOf text
  let checked : State := if number.2 then s else { s with faults := s.faults ++ [argument] }
  let unsigned : Nat := (number.1 % 18446744073709551616).toNat
  match letter with
  | 's' => s.put (pad l (match l.precision with
      | some n => bytes.take n
      | none => bytes))
  | 'b' =>
    let (b, stop) := unescape true (text.length + 1) text
    let s := s.put (pad l b)
    if stop then { s with stopped := true } else s
  | 'c' => s.put (pad l (bytes.take 1))
  | 'd' | 'i' =>
    let sign := if number.1 < 0 then ['-'] else if l.plus then ['+'] else if l.space then [' '] else []
    checked.put (padNumber l sign (Number.digits number.1.natAbs))
  | 'u' => checked.put (padNumber l [] (Number.digits unsigned))
  | 'o' => checked.put (padNumber l (if l.alternate then ['0'] else []) (Nat.toDigits 8 unsigned))
  | 'x' => checked.put (padNumber l (if l.alternate then ['0', 'x'] else []) (Nat.toDigits 16 unsigned))
  | 'X' =>
    checked.put (padNumber l (if l.alternate then ['0', 'X'] else [])
      ((Nat.toDigits 16 unsigned).map Char.toUpper))
  | _ => { s with stopped := true, unknown := some ("%" ++ String.singleton letter) }

/-- Writes a format once. -/
def apply (pieces : List Piece) (s : State) : State :=
  pieces.foldl (fun s piece =>
    if s.stopped then s
    else match piece with
      | .text b => s.put b
      | .stop => { s with stopped := true }
      | .convert l letter => convert s l letter) s

/-- Writes a format until all arguments are used. -/
def applyAll (pieces : List Piece) : Nat → State → State
  | 0, s => s
  | n + 1, s =>
    let s' := apply pieces s
    if s'.stopped || s'.arguments.isEmpty || s'.arguments.length = s.arguments.length then s'
    else applyAll pieces n s'

/-- Writes a format with arguments. -/
def run (format : String) (arguments : List String) : State :=
  let cs := format.toList
  applyAll (read (cs.length + 1) cs) (arguments.length + 1) { arguments }

end LineShell.Program.Format
