import LineShell.Text.Utf8

/-!
# Names in messages

The programs of the system quote what they complain about. A name of a file is written as it would
be typed into a script: `quotedName` always puts it in quotes, `shownName` only where a script would
need them. Any other word stands between single quotes, and what cannot be printed is written with a
backslash (`quoted`).
-/

namespace LineShell.Program

/-- A character that can be printed. -/
def isPrintable (b : UInt8) : Bool := 0x20 ≤ b && b < 0x7f

/-- A byte that cannot be printed: a letter for the common ones, three octal digits for the rest. -/
def escaped (b : UInt8) : List Char :=
  let n := b.toNat
  match ['a', 'b', 't', 'n', 'v', 'f', 'r'][n - 7]?, decide (7 ≤ n) with
  | some c, true => ['\\', c]
  | _, _ => '\\' :: [n / 64, n / 8 % 8, n % 8].map Nat.digitChar

/-- A word in single quotes. -/
def quoted (text : String) : String :=
  let shown (b : UInt8) : List Char :=
    let c := Char.ofNat b.toNat
    if c = '\x27' || c = '\\' then ['\\', c] else if isPrintable b then [c] else escaped b
  "'" ++ String.ofList ((Utf8.ofString text).flatMap shown) ++ "'"

/-- What a script needs quotes for, wherever it stands. -/
def isScriptMark (c : Char) : Bool := " !\"$&'()*:;<=>?[\\^`|".toList.contains c

/-- Does a script take the name as it stands? -/
def isPlainName (name : String) : Bool :=
  match name.toList with
  | [] | ['\x7b'] | ['\x7d'] => false
  | c :: cs => c ≠ '#' && c ≠ '~' &&
      (Utf8.ofString name).all isPrintable && !(c :: cs).any isScriptMark

/-- The inside of a name in single quotes, where `isOpen` tells that bytes were just being escaped.
The quotes are closed before a single quote and before escaped bytes. -/
def scriptText : Bool → Bytes → List Char
  | _, [] => []
  | isOpen, b :: rest =>
    if isPrintable b then
      (if isOpen then ['\x27', '\x27'] else []) ++
        (if b = 0x27 then ['\x27', '\\', '\x27', '\x27'] else [Char.ofNat b.toNat]) ++ scriptText false rest
    else (if isOpen then [] else ['\x27', '$', '\x27']) ++ escaped b ++ scriptText true rest

/-- May the character stand between double quotes as it is? A `first` one may be a comment sign or a
tilde too. -/
def isMild (first : Bool) (c : Char) : Bool :=
  c.isAlphanum || " '%+,-./:@]_".toList.contains c || first && (c = '#' || c = '~')

/-- The name of a file in quotes: double ones, if it holds a single quote and nothing else that means
something to a script. -/
def quotedName (name : String) : String :=
  let cs := name.toList
  if cs.contains '\x27' && (cs.take 1).all (isMild true) && (cs.drop 1).all (isMild false) then
    "\"" ++ name ++ "\""
  else "'" ++ String.ofList (scriptText false (Utf8.ofString name)) ++ "'"

/-- The name of a file, in quotes where a script would need them. -/
def shownName (name : String) : String :=
  if isPlainName name then name else quotedName name

end LineShell.Program
