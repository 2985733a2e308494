import LineShell.Pipeline.Basic
import LineShell.Text.Number

/-!
# Sweeping a subnet

A sweep probes the hosts of a range one after the other, each with one ping.

| here | function of the shell |
| --- | --- |
| `SweepRange.read?` | `sweep_range` |
| `pingStage` | `ping_stage` |
-/

namespace LineShell

/-- The hosts of a sweep, both ends included; it holds none if the ends are the wrong way round. -/
structure SweepRange where
  first : Nat
  last : Nat
  deriving Repr, DecidableEq

namespace SweepRange

/-- The largest value an end may be written as, and the largest host. -/
def maxOctet : Nat := 255

def maxHost : Nat := 254

/-- Reads the ends of a range (`sweep_range`). -/
def read? (first last : String) : Option SweepRange := do
  let first ← Number.read? maxOctet first.toList
  let last ← Number.read? maxOctet last.toList
  if first ≤ maxHost ∧ last ≤ maxHost then some ⟨first, last⟩ else none

/-- The hosts in ascending order. -/
def hosts (r : SweepRange) : List Nat :=
  List.range' r.first (r.last + 1 - r.first)

end SweepRange

/-- The stage that probes one host (`ping_stage`). -/
def pingStage (subnet : String) (host : Nat) : Stage :=
  { name := "ping"
    arguments := ["-c", "1", subnet ++ "." ++ String.ofList (Number.digits host)] }

end LineShell
