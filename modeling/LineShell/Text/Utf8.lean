/-!
# UTF-8: characters as bytes, and back

`encode` writes characters as bytes. Reading goes byte by byte through a small automaton whose
state says how many continuation bytes are still due and between which bounds the next one has to
lie. Two readers are built on it: `decodeLossy`, which puts one replacement character for every
malformed stretch, and `decode?`, which accepts well-formed input only.

A malformed stretch is as long as it can be while still being the beginning of a character, and the
byte that breaks it is looked at afresh. So it is in `LineEditor::accept`, which takes any bytes; a store
has to be well-formed.
-/

namespace LineShell

/-- Raw bytes, as they are typed, stored in files and passed through pipes. -/
abbrev Bytes := List UInt8

namespace Utf8

/-- The bytes of a text. -/
def encode (text : List Char) : Bytes :=
  text.flatMap String.utf8EncodeChar

/-- Where the reader stands: between two characters, or inside one that still needs `due`
continuation bytes, the next of which lies in `lo..hi`; `code` holds the bits read so far. -/
inductive Reader where
  | between
  | inside (due lo hi code : Nat)
  deriving Repr, DecidableEq

/-- One result of the reader: a character, or a stretch that is malformed. -/
abbrev Item := Option Char

/-- Looks at a byte between two characters. -/
def start (b : UInt8) : Reader × List Item :=
  let n := b.toNat
  if n < 0x80 then (.between, [some (Char.ofNat n)])
  else if n < 0xC2 then (.between, [none])
  else if n < 0xE0 then (.inside 1 0x80 0xBF (n - 0xC0), [])
  else if n = 0xE0 then (.inside 2 0xA0 0xBF 0, [])
  else if n = 0xED then (.inside 2 0x80 0x9F 0xD, [])
  else if n < 0xF0 then (.inside 2 0x80 0xBF (n - 0xE0), [])
  else if n = 0xF0 then (.inside 3 0x90 0xBF 0, [])
  else if n < 0xF4 then (.inside 3 0x80 0xBF (n - 0xF0), [])
  else if n = 0xF4 then (.inside 3 0x80 0x8F 4, [])
  else (.between, [none])

/-- Takes one byte: the new state of the reader and what the byte completed. -/
def step (r : Reader) (b : UInt8) : Reader × List Item :=
  match r with
  | .between => start b
  | .inside due lo hi code =>
    if lo ≤ b.toNat ∧ b.toNat ≤ hi then
      let code := code * 64 + b.toNat % 64
      if due ≤ 1 then (.between, [some (Char.ofNat code)]) else (.inside (due - 1) 0x80 0xBF code, [])
    else
      let (r', items) := start b
      (r', none :: items)

/-- Reads on from a state to the end of the input; a character cut off there is malformed. -/
def scan (r : Reader) : Bytes → List Item
  | [] => match r with
    | .between => []
    | .inside .. => [none]
  | b :: bs =>
    let (r', items) := step r b
    items ++ scan r' bs

/-- The character that stands for a malformed stretch. -/
def replacement : Char := Char.ofNat 0xFFFD

/-- Reads any bytes as text. -/
def decodeLossy (bs : Bytes) : List Char :=
  (scan .between bs).map (·.getD replacement)

/-- Reads bytes as text if they are well-formed throughout. -/
def decode? (bs : Bytes) : Option (List Char) :=
  (scan .between bs).mapM id

/-- Is this a continuation byte, one that cannot begin a character? -/
def isContinuation (b : UInt8) : Bool :=
  0x80 ≤ b.toNat && b.toNat < 0xC0

/-- The bytes of a string. -/
def ofString (s : String) : Bytes :=
  encode s.toList

end Utf8

end LineShell
