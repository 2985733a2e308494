/-!
# Unsigned decimal numbers

Numbers are written without sign or padding. They are read more freely: one leading plus sign and
any number of zeros are accepted, an empty digit string, any other character and a value above the
limit are not. So `parse_index` and `Bookmark::parse` read an index, and `sweep_range` an end of its range.
-/

namespace LineShell.Number

/-- The decimal digits of a number. -/
def digits (n : Nat) : List Char :=
  Nat.toDigits 10 n

/-- One with so many zeros behind it. -/
def tenTo (zeros : Nat) : Nat := Nat.pow 10 zeros

/-- The value of a digit. -/
def digit? (c : Char) : Option Nat :=
  if '0' ≤ c ∧ c ≤ '9' then some (c.toNat - '0'.toNat) else none

/-- Appends digits to a value. -/
def readDigits : Nat → List Char → Option Nat
  | value, [] => some value
  | value, c :: cs => (digit? c).bind fun d => readDigits (value * 10 + d) cs

/-- The number without its sign. -/
def unsigned : List Char → List Char
  | '+' :: cs => cs
  | cs => cs

/-- Reads a number of at most `limit`. -/
def read? (limit : Nat) (text : List Char) : Option Nat :=
  match unsigned text with
  | [] => none
  | cs => (readDigits 0 cs).filter (· ≤ limit)

end LineShell.Number
