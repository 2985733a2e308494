import LineShell.Proofs.Completion.LastWord
import LineShell.Proofs.Files.Sound

/-!
# What can be run

The search path is walked in two ways: to list the commands whose names begin with a word, and to find
the file of one name. In a sound tree both come to the same directories (`mem_named_iff`,
`resolve_eq_some_iff`), so that what is offered for a word where a command is expected is just what
could be run under a name that begins with it (`candidates_iff_runnable`).
-/

namespace LineShell

/-! ## Builtins -/

namespace Builtin

/-- The names that are offered are those that are found. -/
theorem isSome_ofName?_iff {name : String} : (ofName? name).isSome ↔ name ∈ names := by
  unfold ofName?
  split <;> simp_all [names, all, Builtin.name]

theorem slashless {name : String} (h : name ∈ names) : '/' ∉ name.toList := by
  have hall : ∀ name ∈ names, '/' ∉ name.toList := by decide
  exact hall name h

end Builtin

/-! ## Executable files in a directory -/

namespace Search

variable {t : FileTree} {cwd : NodeId} {searchPath : Option String} {directory name stem : String}

/-- The directory has an entry of that name, which leads to an executable file. -/
structure Holds (t : FileTree) (cwd : NodeId) (directory name : String) : Prop where
  entry : ∃ i j, t.locateDirectory cwd directory = .ok i ∧ (name, j) ∈ t.entries i
  executable : t.pathIsExecutable cwd (Path.join directory name) = true

/-- What can be executed under a name in a directory is an entry of it. -/
theorem holds_iff (hsound : t.Sound) (hdirectory : directory.toList ≠ []) (hname : Path.IsName name) :
    Holds t cwd directory name ↔ t.pathIsExecutable cwd (Path.join directory name) = true := by
  refine ⟨Holds.executable, fun hexecutable => ⟨?_, hexecutable⟩⟩
  obtain ⟨-, j, hlocate, hj⟩ := FileTree.pathIsExecutable_iff.1 hexecutable
  obtain ⟨i, hi, hdir, hfound⟩ := FileTree.locate_join hdirectory hname hlocate
  have hfile := FileTree.isDirectory_of_isExecutable hj
  rcases hfound with rfl | rfl | ⟨k, hk⟩
  · rw [hdir] at hfile
    cases hfile
  · rw [hsound.parent i] at hfile
    cases hfile
  · exact ⟨i, k, hi, hk⟩

theorem Holds.isName (hsound : t.Sound) (h : Holds t cwd directory name) : Path.IsName name := by
  obtain ⟨i, j, -, hentry⟩ := h.entry
  exact hsound.isName hentry

theorem mem_executables_iff {stem : List Char} (hdirectory : directory.toList ≠ []) :
    name ∈ executables t cwd stem directory ↔ stem <+: name.toList ∧ Holds t cwd directory name := by
  constructor
  · intro h
    unfold executables at h
    split at h
    · cases h
    split at h
    · cases h
    rename_i i hlocate
    rw [List.mem_filter, Bool.and_eq_true, Text.beginsWith_iff, List.mem_map] at h
    obtain ⟨⟨⟨_, j⟩, hentry, rfl⟩, hbegins, hexecutable⟩ := h
    exact ⟨hbegins, ⟨i, j, hlocate, hentry⟩, hexecutable⟩
  · rintro ⟨hbegins, ⟨i, j, hlocate, hentry⟩, hexecutable⟩
    have hnul := Path.hasNul_of_join hdirectory (FileTree.pathIsExecutable_iff.1 hexecutable).1
    rw [executables, hnul, if_neg Bool.false_ne_true, hlocate]
    refine List.mem_filter.2 ⟨List.mem_map.2 ⟨(name, j), hentry, rfl⟩, ?_⟩
    rw [Bool.and_eq_true, Text.beginsWith_iff]
    exact ⟨hbegins, hexecutable⟩

/-! ## The search path -/

/-- The components of a search path: the texts between its colons, in order, without the empty ones. -/
def Components (p : String) (components : List String) : Prop :=
  ∃ pieces : List (List Char), p.toList = [':'].intercalate pieces ∧ (∀ piece ∈ pieces, ':' ∉ piece) ∧
    components = (pieces.filter (· ≠ [])).map String.ofList

/-- They are what the search goes through. -/
theorem components_iff {p : String} {components : List String} :
    Components p components ↔ directories p = components := by
  have hfilter : ∀ pieces : List (List Char), pieces.filter (· ≠ []) = pieces.filter (!·.isEmpty) := by
    intro pieces
    refine List.filter_congr fun piece _ => ?_
    cases piece <;> simp
  constructor
  · rintro ⟨pieces, hp, hcolon, rfl⟩
    by_cases hne : pieces = []
    · -- no piece is as good as one that is empty
      rw [directories, hp, hne]
      rfl
    · rw [directories, hp, Text.splitOn_intercalate hne hcolon, hfilter]
  · intro h
    refine ⟨Text.splitOn ':' p.toList, (Text.intercalate_splitOn ':' p.toList).symm,
      fun piece => Text.not_mem_of_mem_splitOn, ?_⟩
    rw [hfilter, ← h, directories]

theorem ne_nil_of_mem_directories {p : String} (h : directory ∈ directories p) : directory.toList ≠ [] := by
  obtain ⟨piece, hpiece, rfl⟩ := List.mem_map.1 h
  simpa using (List.mem_filter.1 hpiece).2

/-- The names that are listed. -/
theorem mem_named_iff : name ∈ named t cwd searchPath stem ↔ stem.toList <+: name.toList ∧
    ∃ p, searchPath = some p ∧ ∃ directory ∈ directories p, Holds t cwd directory name := by
  cases searchPath with
  | none => simp [named]
  | some p =>
    rw [named, namedIn, Text.mem_sortedUnique, List.mem_flatMap]
    constructor
    · rintro ⟨directory, hmem, hname⟩
      obtain ⟨hbegins, hholds⟩ := (mem_executables_iff (ne_nil_of_mem_directories hmem)).1 hname
      exact ⟨hbegins, p, rfl, directory, hmem, hholds⟩
    · rintro ⟨hbegins, _, ⟨⟩, directory, hmem, hholds⟩
      exact ⟨directory, hmem, (mem_executables_iff (ne_nil_of_mem_directories hmem)).2 ⟨hbegins, hholds⟩⟩

theorem resolve_of_empty (h : name.toList = []) : resolve t cwd searchPath name = none := by
  cases searchPath with
  | none => rfl
  | some p => rw [resolve, Option.bind_some, resolveIn, if_pos (by simpa using h)]

theorem resolve_eq_find (hname : Path.IsName name) (p : String) : resolve t cwd (some p) name =
    ((directories p).find? fun d => t.pathIsExecutable cwd (Path.join d name)).map fun d => Path.join d name := by
  rw [resolve, Option.bind_some, resolveIn, if_neg (by simpa using hname.1), if_neg (by simpa using hname.2),
    List.find?_map]
  rfl

/-- A name without a slash is found in the first directory that holds it. -/
theorem resolve_eq_some_iff (hsound : t.Sound) (hslash : '/' ∉ name.toList) {path : String} :
    resolve t cwd searchPath name = some path ↔ ∃ p, searchPath = some p ∧ ∃ front directory back,
      directories p = front ++ directory :: back ∧ path = Path.join directory name ∧
        Holds t cwd directory name ∧ ∀ d ∈ front, ¬ Holds t cwd d name := by
  by_cases hempty : name.toList = []
  · -- no directory holds the empty name
    rw [resolve_of_empty hempty]
    constructor
    · intro h
      cases h
    · rintro ⟨_, -, _, _, _, -, -, hholds, -⟩
      exact absurd hempty (hholds.isName hsound).1
  have hname : Path.IsName name := ⟨hempty, hslash⟩
  cases searchPath with
  | none => simp [resolve]
  | some p =>
    have hne : ∀ {front directory back}, directories p = front ++ directory :: back →
        ∀ d ∈ front ++ directory :: back, d.toList ≠ [] := by
      intro front directory back hsplit d hd
      exact ne_nil_of_mem_directories (hsplit ▸ hd)
    rw [resolve_eq_find hname, Option.map_eq_some_iff]
    constructor
    · rintro ⟨directory, hfind, rfl⟩
      obtain ⟨hexecutable, front, back, hsplit, hfront⟩ := List.find?_eq_some_iff_append.1 hfind
      refine ⟨p, rfl, front, directory, back, hsplit, rfl, ?_, fun d hd hholds => ?_⟩
      · exact (holds_iff hsound (hne hsplit directory (by simp)) hname).2 hexecutable
      · simpa [hholds.executable] using hfront d hd
    · rintro ⟨_, ⟨⟩, front, directory, back, hsplit, rfl, hholds, hfront⟩
      have hbefore : ∀ d ∈ front, (!t.pathIsExecutable cwd (Path.join d name)) = true := by
        intro d hd
        rw [Bool.not_eq_true', Bool.eq_false_iff, ne_eq, ← holds_iff hsound (hne hsplit d (by simp [hd])) hname]
        exact hfront d hd
      exact ⟨directory, List.find?_eq_some_iff_append.2 ⟨hholds.executable, front, back, hsplit, hbefore⟩, rfl⟩

theorem isSome_resolve_iff (hsound : t.Sound) (hslash : '/' ∉ name.toList) :
    (resolve t cwd searchPath name).isSome ↔
      ∃ p, searchPath = some p ∧ ∃ directory ∈ directories p, Holds t cwd directory name := by
  constructor
  · intro h
    obtain ⟨path, hpath⟩ := Option.isSome_iff_exists.1 h
    obtain ⟨p, hp, front, directory, back, hsplit, -, hholds, -⟩ := (resolve_eq_some_iff hsound hslash).1 hpath
    exact ⟨p, hp, directory, by simp [hsplit], hholds⟩
  · rintro ⟨p, rfl, directory, hmem, hholds⟩
    rw [resolve_eq_find (hholds.isName hsound), Option.isSome_map, List.find?_isSome]
    exact ⟨directory, hmem, hholds.executable⟩

end Search

namespace Completion

variable {t : FileTree} {before word : List Char} {line : String}

/-- **What is offered can be run.** Where a command is expected, the candidates are the names without a slash
that begin with the word and are those of a builtin or found by the search path; and a name is found
in the first component of the search path that holds it. -/
theorem candidates_iff_runnable (hsound : t.Sound) (cwd : NodeId) (searchPath : Option String)
    (hline : AsksCommand line.toList before word) (name : String) :
    (name ∈ (complete (t.listing cwd) (Search.named t cwd searchPath) line).candidates ↔
      '/' ∉ name.toList ∧ word <+: name.toList ∧
        ((Builtin.ofName? name).isSome ∨ (Search.resolve t cwd searchPath name).isSome)) ∧
      ('/' ∉ name.toList → ∀ path, Search.resolve t cwd searchPath name = some path ↔
        ∃ p, searchPath = some p ∧ ∃ front directory back, Search.Components p (front ++ directory :: back) ∧
          path = Path.join directory name ∧ Search.Holds t cwd directory name ∧
            ∀ d ∈ front, ¬ Search.Holds t cwd d name) := by
  obtain ⟨hcut, hposition⟩ := asksCommand_iff.1 hline
  simp only [Search.components_iff]
  refine ⟨?_, fun hslash path => Search.resolve_eq_some_iff hsound hslash⟩
  have hcandidates : name ∈ (complete (t.listing cwd) (Search.named t cwd searchPath) line).candidates ↔
      (name ∈ Builtin.names ∧ word <+: name.toList) ∨ name ∈ Search.named t cwd searchPath (String.ofList word) := by
    simp only [complete, hcut, candidatesOf, hposition, if_true, Text.mem_sortedUnique, List.mem_append,
      List.mem_filter, Text.beginsWith_iff]
  rw [hcandidates, Builtin.isSome_ofName?_iff, Search.mem_named_iff, String.toList_ofList]
  constructor
  · rintro (⟨hbuiltin, hbegins⟩ | ⟨hbegins, p, hp, directory, hmem, hholds⟩)
    · exact ⟨Builtin.slashless hbuiltin, hbegins, Or.inl hbuiltin⟩
    · have hslash := (hholds.isName hsound).2
      exact ⟨hslash, hbegins, Or.inr ((Search.isSome_resolve_iff hsound hslash).2 ⟨p, hp, directory, hmem, hholds⟩)⟩
  · rintro ⟨hslash, hbegins, hbuiltin | hfound⟩
    · exact Or.inl ⟨hbuiltin, hbegins⟩
    · exact Or.inr ⟨hbegins, (Search.isSome_resolve_iff hsound hslash).1 hfound⟩

/-- Of one command the first directory has a file that may not be executed, of another both have one. The
second also has a directory, a link to nothing and a link to a command. -/
def sampleTree : FileTree where
  nodes := #[.directory 0 [("a", 1), ("b", 2)],
    .directory 0 [("sed", 3), ("sh", 4)],
    .directory 0 [("sed", 4), ("sh", 4), ("src", 5), ("stale", 6), ("sl", 7)],
    .file [] 0o644, .file [] 0o755, .directory 2 [], .link "gone", .link "../a/../b/sed"]

/-- A directory and a link to nothing are not offered. Of `sed` the first directory has a file that is not for
execution, so that the one behind it is taken; of `sh` both have one, and the first is taken. -/
theorem candidates_iff_runnable_sample :
    sampleTree.Sound ∧ AsksCommand "ls | s?".toList "ls | ".toList ['s'] ∧
      "sed" ∈ (complete (sampleTree.listing 0)
        (Search.named sampleTree 0 (some "/a::/gone:/b:/b")) "ls | s?").candidates ∧
      "src" ∉ (complete (sampleTree.listing 0)
        (Search.named sampleTree 0 (some "/a::/gone:/b:/b")) "ls | s?").candidates ∧
      (∃ front directory back, Search.Components "/a::/gone:/b:/b" (front ++ directory :: back) ∧
        "/b/sed" = Path.join directory "sed" ∧ Search.Holds sampleTree 0 directory "sed" ∧
          ∀ d ∈ front, ¬ Search.Holds sampleTree 0 d "sed") ∧
      Search.Holds sampleTree 0 "/a" "sh" ∧ Search.Holds sampleTree 0 "/b" "sh" ∧
      Search.resolve sampleTree 0 (some "/a::/gone:/b:/b") "sh" = some "/a/sh" := by
  have hsound : sampleTree.Sound := by decide
  have hline : AsksCommand "ls | s?".toList "ls | ".toList ['s'] :=
    asksCommand_iff.2 ⟨by decide, by decide⟩
  have hoffered := candidates_iff_runnable hsound 0 (some "/a::/gone:/b:/b") hline
  have hcomponents : Search.Components "/a::/gone:/b:/b" ["/a", "/gone", "/b", "/b"] :=
    ⟨["/a".toList, [], "/gone".toList, "/b".toList, "/b".toList], by decide, by decide, by decide⟩
  have hfirst : Search.Holds sampleTree 0 "/a" "sh" := (Search.holds_iff hsound (by decide) (by decide)).2 (by decide)
  have hsecond : Search.Holds sampleTree 0 "/b" "sh" := (Search.holds_iff hsound (by decide) (by decide)).2 (by decide)
  refine ⟨hsound, hline, ?_, fun hsrc => ?_, ?_, hfirst, hsecond, ?_⟩
  · exact (hoffered "sed").1.2 ⟨by decide, by decide, Or.inr (by decide +kernel)⟩
  · exact absurd ((hoffered "src").1.1 hsrc).2.2 (by decide +kernel)
  · obtain ⟨p, hp, hfound⟩ := ((hoffered "sed").2 (by decide) "/b/sed").1 (by decide +kernel)
    cases hp
    exact hfound
  · exact ((hoffered "sh").2 (by decide) "/a/sh").2
      ⟨_, rfl, [], "/a", ["/gone", "/b", "/b"], hcomponents, by decide, hfirst, by simp⟩

end Completion

end LineShell
