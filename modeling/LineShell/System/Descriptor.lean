import LineShell.System.Errno

/-!
# Descriptors

A process knows its open files by small numbers. Its table maps each number in use to an open file
of the system and says whether the descriptor survives the start of another program. A new
descriptor gets the lowest number that is free.

| here | system call |
| --- | --- |
| `DescriptorTable.allocate` | the number that `open` and `pipe` give |
| `DescriptorTable.close`, `DescriptorTable.duplicate` | `close`, `dup2` |
| `DescriptorTable.afterExec` | what `execv` leaves open |
-/

namespace LineShell

/-- The number of a descriptor. -/
abbrev Descriptor := Nat

/-- The number of an open file of the system. -/
abbrev FileId := Nat

/-- What a descriptor stands for. -/
structure Slot where
  file : FileId
  /-- The descriptor is closed when another program is started. -/
  closeOnExec : Bool := false
  deriving Repr, DecidableEq

/-- The descriptors in use, each once. -/
structure DescriptorTable where
  slots : List (Descriptor × Slot) := []
  nodup : (slots.map (·.1)).Nodup := by decide
  deriving Repr, DecidableEq

namespace Descriptor

def input : Descriptor := 0

def output : Descriptor := 1

def error : Descriptor := 2

end Descriptor

namespace DescriptorTable

/-- What a descriptor stands for, if it is in use. -/
def slot? (t : DescriptorTable) (d : Descriptor) : Option Slot := t.slots.lookup d

/-- The open file of a descriptor. -/
def file? (t : DescriptorTable) (d : Descriptor) : Option FileId := (t.slot? d).map (·.file)

def close (t : DescriptorTable) (d : Descriptor) : DescriptorTable where
  slots := t.slots.filter fun entry => entry.1 ≠ d
  nodup := t.nodup.sublist (List.filter_sublist.map _)

/-- Makes a descriptor stand for something else. -/
def assign (t : DescriptorTable) (d : Descriptor) (s : Slot) : DescriptorTable where
  slots := (d, s) :: (t.close d).slots
  nodup := List.nodup_cons.2 ⟨by simp [close], (t.close d).nodup⟩

/-- The lowest number that is free. -/
def firstFree (t : DescriptorTable) : Descriptor :=
  ((List.range t.slots.length).find? fun d => (t.slot? d).isNone).getD t.slots.length

theorem slot?_eq_none {t : DescriptorTable} {d : Descriptor} :
    t.slot? d = none ↔ d ∉ t.slots.map (·.1) := by
  simp only [slot?, List.lookup_eq_none_iff, bne_iff_ne, List.mem_map, not_exists, not_and]
  exact ⟨fun h entry hm e => h entry hm e.symm, fun h entry hm e => h entry hm e.symm⟩

/-- There are not enough descriptors to use up one number more than there are. -/
theorem slot?_firstFree (t : DescriptorTable) : t.slot? t.firstFree = none := by
  unfold firstFree
  cases hfind : (List.range t.slots.length).find? fun d => (t.slot? d).isNone with
  | some d => simpa using List.find?_some hfind
  | none =>
    rw [Option.getD_none, slot?_eq_none]
    intro hlast
    have hall : List.range (t.slots.length + 1) ⊆ t.slots.map (·.1) := by
      intro d hd
      rcases Nat.lt_succ_iff_lt_or_eq.1 (List.mem_range.1 hd) with hlt | rfl
      · have hused := List.find?_eq_none.1 hfind d (List.mem_range.2 hlt)
        rw [Option.isNone_iff_eq_none, slot?_eq_none] at hused
        exact Decidable.of_not_not hused
      · exact hlast
    have hlen := List.Nodup.length_le_of_subset List.nodup_range hall
    rw [List.length_range, List.length_map] at hlen
    omega

/-- A new descriptor. -/
def allocate (t : DescriptorTable) (s : Slot) : Descriptor × DescriptorTable :=
  (t.firstFree, { slots := (t.firstFree, s) :: t.slots
                  nodup := List.nodup_cons.2 ⟨slot?_eq_none.1 t.slot?_firstFree, t.nodup⟩ })

/-- Makes `target` stand for the same as `source`, and survive the start of another program. A
source that is not in use changes nothing. -/
def duplicate (t : DescriptorTable) (source target : Descriptor) : DescriptorTable :=
  match t.slot? source with
  | none => t
  | some s => if source = target then t else t.assign target { s with closeOnExec := false }

/-- What is left when another program is started. -/
def afterExec (t : DescriptorTable) : DescriptorTable where
  slots := t.slots.filter fun entry => !entry.2.closeOnExec
  nodup := t.nodup.sublist (List.filter_sublist.map _)

/-- Does a descriptor of the table stand for one of these open files? -/
def holds (t : DescriptorTable) (file : FileId → Bool) : Bool :=
  t.slots.any fun entry => file entry.2.file

end DescriptorTable

end LineShell
