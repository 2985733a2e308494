import LineShell.Proofs.Files.Reordered
import LineShell.Proofs.Search.Runnable

/-!
# Candidates in order

What a word could become is a set of names, given in order. For a file it is made of the entries of the directory that
the word names (`mem_files_iff`), for a command of the builtins and of what is listed. So the order in which entries,
directories of the search path or commands are listed makes no difference, nor whether one is listed twice
(`complete_congr`, `candidates_canonical`).
-/

namespace LineShell

namespace FileTree

variable {t t' : FileTree} {cwd : NodeId} {directory name : String}

/-- The directory can be read and has an entry of that name. -/
def HasEntry (t : FileTree) (cwd : NodeId) (directory name : String) : Prop :=
  Path.hasNul directory = false ∧ ∃ i j, t.locateDirectory cwd directory = .ok i ∧ (name, j) ∈ t.entries i

theorem mem_listing_iff {isDirectory : Bool} : (name, isDirectory) ∈ t.listing cwd directory ↔
    t.HasEntry cwd directory name ∧ t.pathIsDirectory cwd (Path.join directory name) = isDirectory := by
  unfold listing HasEntry
  by_cases hnul : Path.hasNul directory = true
  · simp [hnul]
  · cases t.locateDirectory cwd directory with
    | error e => simp [hnul]
    | ok i => simp [hnul]

namespace Reordered

variable (h : t.Reordered t')
include h

theorem hasEntry_iff : t'.HasEntry cwd directory name ↔ t.HasEntry cwd directory name := by
  simp only [HasEntry, h.locateDirectory, h.mem_entries]

theorem mem_listing_iff (entry : String × Bool) :
    entry ∈ t'.listing cwd directory ↔ entry ∈ t.listing cwd directory := by
  obtain ⟨name, isDirectory⟩ := entry
  rw [FileTree.mem_listing_iff, FileTree.mem_listing_iff, h.hasEntry_iff, h.pathIsDirectory]

theorem holds_iff : Search.Holds t' cwd directory name ↔ Search.Holds t cwd directory name := by
  have hentry : (∃ i j, t'.locateDirectory cwd directory = .ok i ∧ (name, j) ∈ t'.entries i) ↔
      ∃ i j, t.locateDirectory cwd directory = .ok i ∧ (name, j) ∈ t.entries i := by
    simp only [h.locateDirectory, h.mem_entries]
  exact ⟨fun ⟨hheld, hrun⟩ => ⟨hentry.1 hheld, h.pathIsExecutable cwd _ ▸ hrun⟩,
    fun ⟨hheld, hrun⟩ => ⟨hentry.2 hheld, (h.pathIsExecutable cwd _).trans hrun⟩⟩

end Reordered

end FileTree

/-- The order in which the search path lists directories makes no difference to the commands that are found. -/
theorem Search.named_reordered {t t' : FileTree} (h : t.Reordered t') (cwd : NodeId) {p p' : String}
    (hdirectories : ∀ directory, directory ∈ directories p' ↔ directory ∈ directories p) (stem : String) :
    named t' cwd (some p') stem = named t cwd (some p) stem := by
  refine Text.sortedUnique_congr fun name => ?_
  have hmem : ∀ (t : FileTree) (p : String), name ∈ (directories p).flatMap (executables t cwd stem.toList) ↔
      name ∈ named t cwd (some p) stem := fun t p => Text.mem_sortedUnique.symm
  rw [hmem, hmem, mem_named_iff, mem_named_iff]
  simp only [Option.some.injEq, exists_eq_left', hdirectories, h.holds_iff]

namespace Completion

variable {listing listing' : Listing} {commands commands' : String → List String} {before directory stem : List Char}
  {name : String}

/-! ## Sets of candidates -/

/-- The directory that a word names by what is in front of its last name. -/
def place (directory : List Char) : String := if directory.isEmpty then "." else String.ofList directory

theorem splitLast_run (hdirectory : ∀ c ∈ directory.getLast?, c = '/') (hstem : '/' ∉ stem) :
    Path.splitLast (directory ++ stem) = (directory, stem) := by
  have hrun : ∀ c ∈ stem, decide (c ≠ '/') = true := by
    rintro c hc
    refine decide_eq_true ?_
    rintro rfl
    exact hstem hc
  have hfront : ∀ c ∈ directory.getLast?, decide (c ≠ '/') = false := fun c hc => by simp [hdirectory c hc]
  simp only [Path.splitLast, (takeWhile_run hrun hfront).1, List.reverse_reverse]
  simp

theorem mem_files_iff (hdirectory : ∀ c ∈ directory.getLast?, c = '/') (hstem : '/' ∉ stem) :
    name ∈ files listing (directory ++ stem) ↔ ∃ entry isDirectory, (entry, isDirectory) ∈ listing (place directory) ∧
      stem <+: entry.toList ∧ (isHidden entry.toList = true → isHidden stem = true) ∧
      name = String.ofList directory ++ entry ++ (if isDirectory then "/" else "") := by
  simp only [files, splitLast_run hdirectory hstem, List.mem_filterMap, Prod.exists]
  refine exists_congr fun entry => exists_congr fun isDirectory => and_congr_right fun _ => ?_
  rw [Option.ite_none_right_eq_some, Bool.and_eq_true, Text.beginsWith_iff, and_assoc, Option.some.injEq]
  refine and_congr_right fun _ => and_congr ?_ eq_comm
  cases isHidden entry.toList <;> simp

/-- The same entries and commands, in whatever order and however often, have the same candidates. -/
theorem complete_congr (hlisting : ∀ directory entry, entry ∈ listing' directory ↔ entry ∈ listing directory)
    (hcommands : ∀ stem name, name ∈ commands' stem ↔ name ∈ commands stem) (line : String) :
    complete listing' commands' line = complete listing commands line := by
  have hcandidates : ∀ before word, candidatesOf listing' commands' before word =
      candidatesOf listing commands before word := by
    intro before word
    refine Text.sortedUnique_congr fun name => ?_
    split
    · rw [List.mem_append, List.mem_append, hcommands]
    · simp only [files, List.mem_filterMap, hlisting]
  simp only [complete, hcandidates]

/-! ## The candidates of a line -/

/-- **Candidates in order.** Any line ends in a word, which names a directory in front of its last slash, or the working
directory, and the beginning of a name. Where a file is expected, the candidates are the entries of the directory with
that beginning, hidden ones only if the beginning is that of a hidden name, each with the word's directory in front of
it, and a slash behind it if it leads to a directory. Where a command is expected, they are the builtins with that
beginning, and what is listed. They rise in the order of their bytes. Entries, directories of the search path and
commands may be listed in another order, and commands more than once: the line is completed in the same way. -/
theorem candidates_canonical (t : FileTree) (cwd : NodeId) (commands : String → List String) (line : String) :
    ∃ before directory stem : List Char, EndsIn line.toList before (directory ++ stem) ∧
      (∀ c ∈ directory ++ stem, isBlank c = false) ∧ (∀ c ∈ before.getLast?, isBlank c = true) ∧
      (∀ c ∈ directory.getLast?, c = '/') ∧ '/' ∉ stem ∧
      (¬ (Opens before ∧ directory = []) → ∀ name, name ∈ (complete (t.listing cwd) commands line).candidates ↔
        ∃ entry, t.HasEntry cwd (place directory) entry ∧ stem <+: entry.toList ∧
          (isHidden entry.toList = true → isHidden stem = true) ∧ name = String.ofList directory ++ entry ++
            (if t.pathIsDirectory cwd (Path.join (place directory) entry) then "/" else "")) ∧
      (Opens before ∧ directory = [] → ∀ name, name ∈ (complete (t.listing cwd) commands line).candidates ↔
        name ∈ Builtin.names ∧ stem <+: name.toList ∨ name ∈ commands (String.ofList stem)) ∧
      (complete (t.listing cwd) commands line).candidates.Pairwise (fun a b => Utf8.ofString a < Utf8.ofString b) ∧
      (complete (t.listing cwd) commands line).candidates.Nodup ∧
      ∀ t' : FileTree, t.Reordered t' →
        (∀ commands' : String → List String, (∀ stem name, name ∈ commands' stem ↔ name ∈ commands stem) →
          complete (t'.listing cwd) commands' line = complete (t.listing cwd) commands line) ∧
        ∀ p p' : String, (∀ d, d ∈ Search.directories p' ↔ d ∈ Search.directories p) →
          complete (t'.listing cwd) (Search.named t' cwd (some p')) line =
            complete (t.listing cwd) (Search.named t cwd (some p)) line := by
  obtain ⟨before, word, hline, hword, hbefore⟩ := exists_endsIn line.toList
  obtain ⟨directory, stem, rfl, hrun, hlast⟩ := exists_run (· ≠ '/') word
  have hdirectory : ∀ c ∈ directory.getLast?, c = '/' := fun c hc => by simpa using hlast c hc
  have hstem : '/' ∉ stem := fun hmem => by simpa using hrun '/' hmem
  have hslash : '/' ∉ directory ++ stem ↔ directory = [] := by
    rcases List.eq_nil_or_concat' directory with rfl | ⟨front, c, rfl⟩
    · simp [hstem]
    · obtain rfl := hdirectory c (by simp)
      simp
  have hcandidates : (complete (t.listing cwd) commands line).candidates =
      candidatesOf (t.listing cwd) commands before (directory ++ stem) := by
    simp only [complete, cutLastWord_run hline hword hbefore]
  have hposition : isCommandPosition before (directory ++ stem) = true ↔ Opens before ∧ directory = [] := by
    rw [isCommandPosition_iff hbefore, hslash]
  refine ⟨before, directory, stem, hline, hword, hbefore, hdirectory, hstem, ?_, ?_, ?_, ?_, ?_⟩
  · intro hfile name
    rw [hcandidates, candidatesOf, if_neg (mt hposition.1 hfile), Text.mem_sortedUnique,
      mem_files_iff hdirectory hstem]
    simp only [FileTree.mem_listing_iff]
    constructor
    · rintro ⟨entry, _, ⟨hentry, rfl⟩, hbegins, hhidden, hname⟩
      exact ⟨entry, hentry, hbegins, hhidden, hname⟩
    · rintro ⟨entry, hentry, hbegins, hhidden, hname⟩
      exact ⟨entry, _, ⟨hentry, rfl⟩, hbegins, hhidden, hname⟩
  · intro hcommand name
    rw [hcandidates, candidatesOf, if_pos (hposition.2 hcommand), Text.mem_sortedUnique, List.mem_append,
      List.mem_filter, Text.beginsWith_iff, hcommand.2]
    rfl
  · rw [hcandidates]
    exact (Text.pairwise_sortedUnique _).imp Utf8.ofString_lt_iff.2
  · rw [hcandidates]
    exact (Text.pairwise_sortedUnique _).imp ne_of_lt
  · intro t' hreordered
    have hlisting : ∀ directory entry, entry ∈ t'.listing cwd directory ↔ entry ∈ t.listing cwd directory :=
      fun _ => hreordered.mem_listing_iff
    refine ⟨fun commands' hcommands => complete_congr hlisting hcommands line,
      fun p p' hdirectories => complete_congr hlisting (fun stem name => ?_) line⟩
    rw [Search.named_reordered hreordered cwd hdirectories]

/-- A directory with a file, a hidden one, a directory, a link to it and a link to nothing. -/
def sampleSources : FileTree where
  nodes := #[.directory 0 [("src", 1)],
    .directory 0 [("lib", 5), (".git", 2), ("main", 3), ("include", 4), ("last", 6)],
    .file [] 0o644, .file [] 0o644, .directory 1 [], .link "include", .link "gone"]

/-- The same, with the names in the directory in another order. -/
def reversedSources : FileTree :=
  sampleSources.set 1 (.directory 0 [("last", 6), ("include", 4), ("main", 3), (".git", 2), ("lib", 5)])

theorem candidates_canonical_sources :
    sampleSources.Reordered reversedSources ∧
      complete (reversedSources.listing 0) (fun _ => []) "cat src/l?" =
        complete (sampleSources.listing 0) (fun _ => []) "cat src/l?" ∧
      "src/lib/" ∈ (complete (sampleSources.listing 0) (fun _ => []) "cat src/l?").candidates ∧
      "src/last" ∈ (complete (sampleSources.listing 0) (fun _ => []) "cat src/l?").candidates ∧
      "src/lib" ∉ (complete (sampleSources.listing 0) (fun _ => []) "cat src/l?").candidates := by
  have hnode : sampleSources.node? 1 = some
      (.directory 0 [("lib", 5), (".git", 2), ("main", 3), ("include", 4), ("last", 6)]) := rfl
  have hreordered : sampleSources.Reordered reversedSources := .of_perm hnode (by decide) (by decide)
  obtain ⟨before, directory, stem, hline, hword, hbefore, hdirectory, hstem, hfile, -, -, -, hsame⟩ :=
    candidates_canonical sampleSources 0 (fun _ => []) "cat src/l?"
  have hcut : cutLastWord "cat src/l?".toList = ("cat ".toList, "src/l".toList) := by decide
  rw [cutLastWord_run hline hword hbefore, Prod.mk.injEq] at hcut
  obtain ⟨rfl, hsplit⟩ := hcut
  have hparts : Path.splitLast "src/l".toList = ("src/".toList, ['l']) := by decide
  rw [← hsplit, splitLast_run hdirectory hstem, Prod.mk.injEq] at hparts
  obtain ⟨rfl, rfl⟩ := hparts
  have hcandidates := hfile fun hopens => absurd hopens.2 (by decide)
  have hplace : sampleSources.locateDirectory 0 (place "src/".toList) = .ok 1 := by decide +kernel
  refine ⟨hreordered, (hsame _ hreordered).1 _ fun _ _ => Iff.rfl, ?_, ?_, fun hmem => ?_⟩
  · exact (hcandidates _).2
      ⟨"lib", ⟨by decide +kernel, 1, 5, hplace, by decide⟩, by decide, by decide, by decide +kernel⟩
  · exact (hcandidates _).2
      ⟨"last", ⟨by decide +kernel, 1, 6, hplace, by decide⟩, by decide, by decide, by decide +kernel⟩
  · obtain ⟨entry, ⟨-, i, j, hi, hentry⟩, -, -, hname⟩ := (hcandidates _).1 hmem
    cases hplace.symm.trans hi
    have hnames : ∀ entry ∈ sampleSources.entries 1, "src/lib" ≠ String.ofList "src/".toList ++ entry.1 ++
        (if sampleSources.pathIsDirectory 0 (Path.join (place "src/".toList) entry.1) then "/" else "") := by
      decide +kernel
    exact hnames _ hentry hname

end Completion

end LineShell
