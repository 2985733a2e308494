import LineShell.Store.Shortcuts
import LineShell.Proofs.Store.Text
import LineShell.Proofs.Text.Lines
import Mathlib.Data.List.Infix

/-!
# Reading back stored shortcuts

The records of shortcuts are put one behind the other (`toText`). A new alias is read back with its directory
exactly when neither has a newline and the directory does not end in a carriage return
(`find?_record_eq_some_iff`). So the first record of each alias counts, at any time, exactly if all records are
legible where they stand (`firstWins_iff`).
-/

namespace LineShell.Shortcuts

variable {t : FileTree} {cwd : NodeId} {dataDir name directory : String} {x : Option (List Char)}
  {text front : List Char} {sets : List (String × String)}

/-- The names and directories on the lines of a text that have a colon. -/
def entries (text : List Char) : List (List Char × List Char) :=
  (Text.lines text).filterMap (Text.splitAt? ':')

/-- The records of shortcuts, one in each line. -/
def toText (sets : List (String × String)) : List Char :=
  sets.flatMap fun p => record p.1 p.2 ++ ['\n']

/-- A text that ends in a carriage return, without it. -/
def trimmed (text : List Char) : List Char := (Text.dropLast? '\r' text).getD text

theorem find?_eq (text : List Char) (name : String) :
    find? text name = ((entries text).find? (·.1 = name.toList)).map fun e => String.ofList e.2 := rfl

theorem find?_eq_none_iff : find? text name = none ↔ ∀ e ∈ entries text, String.ofList e.1 ≠ name := by
  simp only [find?_eq, Option.map_eq_none_iff, List.find?_eq_none, decide_eq_true_eq]
  refine forall₂_congr fun e _ => ?_
  rw [Ne, ← String.toList_inj, String.toList_ofList]

theorem entries_append (h : Text.Complete front) (text : List Char) :
    entries (front ++ text) = entries front ++ entries text := by
  rw [entries, Text.lines_append h, List.filterMap_append]
  rfl

/-- The first line of a name counts. -/
theorem find?_append (h : Text.Complete front) (text : List Char) (name : String) :
    find? (front ++ text) name = (find? front name).or (find? text name) := by
  rw [find?_eq, entries_append h, List.find?_append, Option.map_or]
  rfl

theorem toText_concat (sets : List (String × String)) (name directory : String) :
    toText (sets ++ [(name, directory)]) = toText sets ++ (record name directory ++ ['\n']) := by
  simp [toText]

theorem complete_toText (sets : List (String × String)) : Text.Complete (toText sets) := by
  rcases List.eq_nil_or_concat sets with rfl | ⟨init, p, rfl⟩
  · exact Text.complete_nil
  · rw [List.concat_eq_append, toText_concat, ← List.append_assoc]
    exact Text.complete_concat _

/-! ## One record -/

theorem newline_not_mem_of_mem_entries {e : List Char × List Char} (h : e ∈ entries text) : '\n' ∉ e.1 := by
  obtain ⟨line, hline, hsplit⟩ := List.mem_filterMap.1 h
  have hnewline := Text.newline_not_mem_of_mem_lines hline
  rw [Text.splitAt?_eq_some hsplit] at hnewline
  exact fun hmem => hnewline (List.mem_append_left _ hmem)

/-- A line of a name and a text. -/
theorem entries_line (hcolon : ':' ∉ front) (hfront : '\n' ∉ front) (htext : '\n' ∉ text) :
    entries (front ++ ':' :: text ++ ['\n']) = [(front, trimmed text)] := by
  have hline : '\n' ∉ front ++ ':' :: text := by simp [hfront, htext]
  rw [entries, Text.lines_concat_eq hline, Text.dropLast?_append_cons (by decide), List.filterMap_cons,
    Text.splitAt?_append hcolon]
  rfl

/-- A record in one line. -/
theorem entries_record (hcolon : ':' ∉ name.toList) (hname : '\n' ∉ name.toList)
    (hdirectory : '\n' ∉ directory.toList) :
    entries (record name directory ++ ['\n']) = [(name.toList, trimmed directory.toList)] :=
  entries_line hcolon hname hdirectory

/-- Of a directory with a newline, the part in front of it is read. -/
theorem find?_record_cut {before after : List Char} (hcolon : ':' ∉ name.toList) (hname : '\n' ∉ name.toList)
    (hdirectory : directory.toList = before ++ '\n' :: after) (hbefore : '\n' ∉ before) :
    find? (record name directory ++ ['\n']) name = some (String.ofList (trimmed before)) := by
  have hlines : record name directory ++ ['\n'] = name.toList ++ ':' :: before ++ ['\n'] ++ (after ++ ['\n']) := by
    simp [record, hdirectory]
  rw [hlines, find?_append (Text.complete_concat _), find?_eq, entries_line hcolon hname hbefore]
  simp

theorem length_trimmed_le (text : List Char) : (trimmed text).length ≤ text.length := by
  unfold trimmed Text.dropLast?
  split <;> simp

theorem trimmed_eq_self_iff : trimmed text = text ↔ text.getLast? ≠ some '\r' := by
  unfold trimmed Text.dropLast?
  split
  · next hlast =>
    have hne : text ≠ [] := by
      rintro rfl
      cases hlast
    have hlength := List.length_pos_iff.2 hne
    simp only [Option.getD_some, hlast, ne_eq, not_true_eq_false, iff_false]
    intro heq
    have hshorter := congrArg List.length heq
    rw [List.length_dropLast] at hshorter
    omega
  · next hlast => simpa using hlast

/-- When a record on its own gives its alias its directory. -/
theorem find?_record_eq_some_iff (hcolon : ':' ∉ name.toList) :
    find? (record name directory ++ ['\n']) name = some directory ↔
      '\n' ∉ name.toList ∧ '\n' ∉ directory.toList ∧ directory.toList.getLast? ≠ some '\r' := by
  by_cases hname : '\n' ∈ name.toList
  · refine iff_of_false (fun hfind => ?_) fun h => h.1 hname
    -- what is read from a line has no newline
    rw [find?_eq, Option.map_eq_some_iff] at hfind
    obtain ⟨e, hfind, -⟩ := hfind
    have heq : e.1 = name.toList := by simpa using List.find?_some hfind
    exact newline_not_mem_of_mem_entries (List.mem_of_find?_eq_some hfind) (heq ▸ hname)
  · by_cases hdirectory : '\n' ∈ directory.toList
    · refine iff_of_false (fun hfind => ?_) fun h => h.2.1 hdirectory
      obtain ⟨before, after, hsplit, hbefore⟩ := List.eq_append_cons_of_mem hdirectory
      rw [find?_record_cut hcolon hname hsplit hbefore, Option.some.injEq] at hfind
      have htrimmed : trimmed before = directory.toList := by rw [← hfind, String.toList_ofList]
      have hlength := length_trimmed_le before
      rw [htrimmed, hsplit, List.length_append, List.length_cons] at hlength
      omega
    · rw [find?_eq, entries_record hcolon hname hdirectory]
      simp only [List.find?_cons_of_pos, Option.map_some, Option.some.injEq, decide_true, hname, hdirectory,
        not_false_eq_true, true_and]
      rw [← trimmed_eq_self_iff, ← String.toList_inj, String.toList_ofList]

/-! ## One record after the other -/

/-- Is a record read as it ought to be behind the records of these aliases? A new alias is read back with its
directory. The record of an alias that is there already changes nothing: all its lines with a colon name
aliases that are there. -/
def Legible (names : List String) (name directory : String) : Prop :=
  if name ∈ names then ∀ e ∈ entries (record name directory ++ ['\n']), String.ofList e.1 ∈ names
  else '\n' ∉ name.toList ∧ '\n' ∉ directory.toList ∧ directory.toList.getLast? ≠ some '\r'

/-- The first directory that an alias was given counts. -/
def FirstWins (sets : List (String × String)) : Prop := ∀ name, find? (toText sets) name = sets.lookup name

theorem lookup_eq_none_iff : sets.lookup name = none ↔ name ∉ sets.map Prod.fst := by
  rw [List.lookup_eq_none_iff, List.mem_map]
  simp only [bne_iff_ne, not_exists, not_and]
  exact forall₂_congr fun _ _ => ne_comm

theorem lookup_concat (sets : List (String × String)) (name directory other : String) :
    (sets ++ [(name, directory)]).lookup other =
      (sets.lookup other).or (if other = name then some directory else none) := by
  rw [List.lookup_append, List.lookup_singleton]
  simp

/-- One more record. -/
theorem FirstWins.concat_iff (h : FirstWins sets) (hcolon : ':' ∉ name.toList) :
    FirstWins (sets ++ [(name, directory)]) ↔ Legible (sets.map Prod.fst) name directory := by
  have hstep : FirstWins (sets ++ [(name, directory)]) ↔ ∀ other, other ∉ sets.map Prod.fst →
      find? (record name directory ++ ['\n']) other = if other = name then some directory else none := by
    refine forall_congr' fun other => ?_
    rw [toText_concat, find?_append (complete_toText sets), h other, lookup_concat, ← lookup_eq_none_iff]
    cases sets.lookup other <;> simp
  rw [hstep, Legible]
  split
  · next hthere =>
    -- the alias is none of the others
    have hothers : (∀ other, other ∉ sets.map Prod.fst → find? (record name directory ++ ['\n']) other =
        if other = name then some directory else none) ↔
        ∀ other, other ∉ sets.map Prod.fst → find? (record name directory ++ ['\n']) other = none :=
      forall₂_congr fun other hother => by
        have hne : other ≠ name := fun heq => hother (heq ▸ hthere)
        rw [if_neg hne]
    rw [hothers]
    constructor
    · intro hnone e he
      by_contra hother
      exact find?_eq_none_iff.1 (hnone _ hother) e he rfl
    · intro hnames other hother
      exact find?_eq_none_iff.2 fun e he heq => hother (heq ▸ hnames e he)
  · next hnew =>
    rw [← find?_record_eq_some_iff hcolon]
    constructor
    · intro hall
      simpa using hall name hnew
    · intro hfind other hother
      obtain ⟨hname, hdirectory, -⟩ := (find?_record_eq_some_iff hcolon).1 hfind
      split
      · next heq => rw [heq, hfind]
      · next hne =>
        rw [find?_eq_none_iff, entries_record hcolon hname hdirectory]
        simpa using Ne.symm hne

/-- The first directory of each alias counts at any time exactly if every record is legible where it stands. -/
theorem firstWins_iff (hcolon : ∀ p ∈ sets, ':' ∉ p.1.toList) :
    (∀ before, before <+: sets → FirstWins before) ↔
      ∀ before p, before ++ [p] <+: sets → Legible (before.map Prod.fst) p.1 p.2 := by
  have hcolons : ∀ before p, before ++ [p] <+: sets → ':' ∉ p.1.toList := fun before p hbefore =>
    hcolon p (hbefore.subset (List.mem_append_right _ List.mem_cons_self))
  constructor
  · intro hwins before p hbefore
    exact ((hwins before ((List.prefix_append _ _).trans hbefore)).concat_iff (hcolons before p hbefore)).1
      (hwins _ hbefore)
  · intro hlegible before hbefore
    induction before using List.reverseRecOn with
    | nil => exact fun _ => rfl
    | append_singleton before p ih =>
      have hwins := ih ((List.prefix_append _ _).trans hbefore)
      exact (hwins.concat_iff (hcolons before p hbefore)).2 (hlegible before p hbefore)

/-- Aliases and directories of one line each are legible. -/
theorem legible_of_newline_not_mem {names : List String} (hcolon : ':' ∉ name.toList) (hname : '\n' ∉ name.toList)
    (hdirectory : '\n' ∉ directory.toList) (hreturn : directory.toList.getLast? ≠ some '\r') :
    Legible names name directory := by
  unfold Legible
  split
  · next hthere =>
    rw [entries_record hcolon hname hdirectory]
    simpa using hthere
  · exact ⟨hname, hdirectory, hreturn⟩

/-! ## The store -/

theorem lookup_eq (h : Store.Holds t cwd (path dataDir) x) (name : String) :
    lookup t cwd dataDir name = .ok (find? (x.getD []) name) := by
  simp [lookup, h.read?, bind, Except.bind]

end LineShell.Shortcuts
