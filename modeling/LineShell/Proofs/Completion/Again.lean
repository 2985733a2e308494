import LineShell.Proofs.Completion.Agreement
import LineShell.Proofs.Completion.Canonical
import LineShell.Proofs.Completion.Characters

/-!
# Completing again

A line whose last word has no candidate, or several, comes to itself if it is completed once more
(`completed_again`). What several candidates agree in has no slash behind the directory of the word
(`not_mem_slash_of_begins`): only a whole candidate could end in one. So it is looked for in the same directory,
asks for hidden names just if the word does (`isHidden_of_begins`), and begins the same names.
-/

namespace LineShell

theorem FileTree.Sound.slashless {t : FileTree} {cwd : NodeId} {directory : String} {entry : String × Bool}
    (h : t.Sound) (hentry : entry ∈ t.listing cwd directory) : '/' ∉ entry.1.toList := by
  obtain ⟨⟨-, i, j, -, hmem⟩, -⟩ := FileTree.mem_listing_iff.1 hentry
  exact (h.isName hmem).2

namespace Completion

variable {listing : Listing} {commands : String → List String} {names : List String} {before word : List Char}
  {directory stem longer : List Char} {name : String}

/-- Candidates are told apart by what they are, as they come in order. -/
theorem candidates_ext (h : ∀ name, name ∈ candidatesOf listing commands before longer ↔
    name ∈ candidatesOf listing commands before word) :
    candidatesOf listing commands before longer = candidatesOf listing commands before word :=
  Text.sortedUnique_congr fun name => (Text.mem_sortedUnique.symm.trans (h name)).trans Text.mem_sortedUnique

/-! ## Commands -/

/-- The commands that are listed are those of a set that begin with what is asked for. -/
def Offers (commands : String → List String) (names : List String) : Prop :=
  ∀ stem name, name ∈ commands stem ↔ name ∈ names ∧ stem.toList <+: name.toList

theorem mem_candidates_command_iff (hoffers : Offers commands names) (hcommand : isCommandPosition before word = true) :
    name ∈ candidatesOf listing commands before word ↔
      (name ∈ Builtin.names ∨ name ∈ names) ∧ word <+: name.toList := by
  rw [candidatesOf, if_pos hcommand, Text.mem_sortedUnique, List.mem_append, List.mem_filter, Text.beginsWith_iff,
    hoffers, String.toList_ofList, or_and_right]

/-- What all commands of a word begin with stands for the same commands. -/
theorem candidates_command_longer (hoffers : Offers commands names) (hcommand : isCommandPosition before word = true)
    (hslash : '/' ∉ longer) (hlonger : word <+: longer)
    (hall : ∀ name ∈ candidatesOf listing commands before word, longer <+: name.toList) :
    candidatesOf listing commands before longer = candidatesOf listing commands before word := by
  have hsame : isCommandPosition before longer = true := by
    rw [isCommandPosition, Bool.and_eq_true] at hcommand ⊢
    exact ⟨hcommand.1, by simpa using hslash⟩
  refine candidates_ext fun name => ?_
  rw [mem_candidates_command_iff hoffers hsame]
  constructor
  · rintro ⟨hname, hbegins⟩
    exact (mem_candidates_command_iff hoffers hcommand).2 ⟨hname, hlonger.trans hbegins⟩
  · intro hname
    exact ⟨((mem_candidates_command_iff hoffers hcommand).1 hname).1, hall name hname⟩

/-! ## Files -/

/-- A candidate as characters: the directory, a name, and perhaps a slash. -/
theorem toList_file (directory : List Char) (entry : String) (isDirectory : Bool) :
    (String.ofList directory ++ entry ++ (if isDirectory then "/" else "")).toList =
      directory ++ (entry.toList ++ if isDirectory then ['/'] else []) := by
  cases isDirectory <;> simp

/-- What such a candidate begins with is part of its name, or all of it with the slash. -/
theorem begins_or_eq {entry : List Char} {isDirectory : Bool}
    (h : longer <+: entry ++ if isDirectory then ['/'] else []) :
    longer <+: entry ∨ longer = entry ++ ['/'] ∧ isDirectory := by
  cases isDirectory with
  | false =>
    rw [if_neg Bool.false_ne_true, List.append_nil] at h
    exact .inl h
  | true =>
    rw [if_pos rfl] at h
    exact (List.prefix_concat_iff.1 h).symm.imp_right fun hwhole => ⟨hwhole, rfl⟩

theorem not_mem_slash_of_begins (hlisting : ∀ place, ∀ entry ∈ listing place, '/' ∉ entry.1.toList)
    (hdirectory : ∀ c ∈ directory.getLast?, c = '/') (hstem : '/' ∉ stem) {a b : String} (hne : a ≠ b)
    (ha : a ∈ files listing (directory ++ stem)) (hb : b ∈ files listing (directory ++ stem))
    (hall : ∀ name ∈ files listing (directory ++ stem), directory ++ longer <+: name.toList) : '/' ∉ longer := by
  intro hslash
  -- such a beginning is the whole of every candidate
  have hwhole : ∀ name ∈ files listing (directory ++ stem), name.toList = directory ++ longer := by
    intro name hname
    have hbegins := hall name hname
    obtain ⟨entry, isDirectory, hentry, -, -, rfl⟩ := (mem_files_iff hdirectory hstem).1 hname
    rw [toList_file, List.prefix_append_right_inj] at hbegins
    rcases begins_or_eq hbegins with hpart | ⟨rfl, hleads⟩
    · exact absurd (hpart.subset hslash) (hlisting _ _ hentry)
    · rw [toList_file, if_pos hleads]
  exact hne (String.toList_injective ((hwhole a ha).trans (hwhole b hb).symm))

/-- A longer beginning asks for hidden names just if the shorter one does, where it begins a name that is offered. -/
theorem isHidden_of_begins {entry : List Char} (hlonger : stem <+: longer) (hbegins : longer <+: entry)
    (hoffered : isHidden entry = true → isHidden stem = true) : isHidden longer = isHidden stem := by
  cases stem with
  | cons c stem =>
    obtain ⟨rest, rfl⟩ := hlonger
    rfl
  | nil =>
    cases longer with
    | nil => rfl
    | cons c longer =>
      obtain ⟨rest, rfl⟩ := hbegins
      rw [Bool.eq_iff_iff]
      exact ⟨hoffered, fun h => by simp [isHidden] at h⟩

/-- What all files of a word begin with stands for the same files, if it names the same directory. -/
theorem mem_files_longer_iff (hdirectory : ∀ c ∈ directory.getLast?, c = '/') (hstem : '/' ∉ stem)
    (hslash : '/' ∉ longer) (hlonger : stem <+: longer) {a : String} (ha : a ∈ files listing (directory ++ stem))
    (hall : ∀ name ∈ files listing (directory ++ stem), directory ++ longer <+: name.toList) :
    name ∈ files listing (directory ++ longer) ↔ name ∈ files listing (directory ++ stem) := by
  have hbegins : ∀ entry isDirectory, (entry, isDirectory) ∈ listing (place directory) → stem <+: entry.toList →
      (isHidden entry.toList = true → isHidden stem = true) → longer <+: entry.toList := by
    intro entry isDirectory hentry hshort hhidden
    have hgoes := hall _ ((mem_files_iff hdirectory hstem).2 ⟨entry, isDirectory, hentry, hshort, hhidden, rfl⟩)
    rw [toList_file, List.prefix_append_right_inj] at hgoes
    rcases begins_or_eq hgoes with hname | ⟨rfl, -⟩
    · exact hname
    · simp at hslash
  obtain ⟨entry, isDirectory, hentry, hshort, hhidden, -⟩ := (mem_files_iff hdirectory hstem).1 ha
  have hsame := isHidden_of_begins hlonger (hbegins entry isDirectory hentry hshort hhidden) hhidden
  rw [mem_files_iff hdirectory hslash, mem_files_iff hdirectory hstem, hsame]
  refine exists_congr fun entry => exists_congr fun isDirectory => and_congr_right fun hentry => ?_
  exact ⟨fun ⟨hlong, hhidden, hname⟩ => ⟨hlonger.trans hlong, hhidden, hname⟩,
    fun ⟨hshort, hhidden, hname⟩ => ⟨hbegins entry isDirectory hentry hshort hhidden, hhidden, hname⟩⟩

theorem mem_candidates_file_iff (hfile : isCommandPosition before word = false) :
    name ∈ candidatesOf listing commands before word ↔ name ∈ files listing word := by
  rw [candidatesOf, hfile, if_neg Bool.false_ne_true, Text.mem_sortedUnique]

/-- What several files of a word begin with stands for the same files. -/
theorem candidates_files_longer (hlisting : ∀ place, ∀ entry ∈ listing place, '/' ∉ entry.1.toList)
    (hfile : isCommandPosition before word = false) (hlonger : word <+: longer) {a b : String} (hne : a ≠ b)
    (ha : a ∈ candidatesOf listing commands before word) (hb : b ∈ candidatesOf listing commands before word)
    (hall : ∀ name ∈ candidatesOf listing commands before word, longer <+: name.toList) :
    candidatesOf listing commands before longer = candidatesOf listing commands before word := by
  have hsame : isCommandPosition before longer = false := by
    rw [isCommandPosition, Bool.and_eq_false_iff] at hfile ⊢
    exact hfile.imp_right fun hslash => by simpa using hlonger.subset (by simpa using hslash)
  simp only [mem_candidates_file_iff hfile] at ha hb hall
  refine candidates_ext fun name => ?_
  rw [mem_candidates_file_iff hsame, mem_candidates_file_iff hfile]
  obtain ⟨directory, stem, rfl, hrun, hlast⟩ := exists_run (· ≠ '/') word
  have hdirectory : ∀ c ∈ directory.getLast?, c = '/' := fun c hc => by simpa using hlast c hc
  have hstem : '/' ∉ stem := fun hmem => by simpa using hrun '/' hmem
  obtain ⟨more, rfl⟩ := hlonger
  rw [List.append_assoc] at hall ⊢
  have hslash := not_mem_slash_of_begins hlisting hdirectory hstem hne ha hb hall
  exact mem_files_longer_iff hdirectory hstem hslash (List.prefix_append stem more) ha hall

/-! ## Lines -/

/-- Whether given names have blanks is decided by looking at their characters, not at all there are. -/
theorem blankless_of_all {names : List String} (h : names.all (fun name => !name.toList.any isBlank) = true) :
    ∀ name ∈ names, ∀ c ∈ name.toList, isBlank c = false := by
  intro name hname c hc
  have hany := List.all_eq_true.1 h name hname
  rw [Bool.not_eq_true', List.any_eq_false] at hany
  exact Bool.eq_false_iff.2 (hany c hc)

/-- No blank comes in with a name that is offered. -/
theorem isBlank_of_mem_candidates {t : FileTree} {cwd : NodeId} (hblank : ∀ c, isBlank c = true → ¬ t.Mentions c)
    (hnames : ∀ name ∈ names, ∀ c ∈ name.toList, isBlank c = false) (hoffers : Offers commands names)
    (hword : ∀ c ∈ word, isBlank c = false) (h : name ∈ candidatesOf (t.listing cwd) commands before word) :
    ∀ c ∈ name.toList, isBlank c = false := by
  intro c hc
  rw [candidatesOf, Text.mem_sortedUnique] at h
  split at h
  · rcases List.mem_append.1 h with h | h
    · have hbuiltins : ∀ b ∈ Builtin.names, ∀ c ∈ b.toList, isBlank c = false := blankless_of_all (by decide)
      exact hbuiltins name (List.mem_of_mem_filter h) c hc
    · exact hnames name ((hoffers _ _).1 h).1 c hc
  · rcases mem_of_mem_files h hc with hc | rfl | ⟨directory, entry, hentry, hc⟩
    · exact hword c hc
    · rfl
    · exact Bool.eq_false_iff.2 fun hc' => hblank c hc' (FileTree.mentions_of_listing hentry hc)

/-- What several candidates agree in has the same candidates as the word. -/
theorem candidates_commonStart {t : FileTree} {cwd : NodeId} (hsound : t.Sound)
    (hnames : ∀ name ∈ names, '/' ∉ name.toList) (hoffers : Offers commands names) {a b : String} {rest : List String}
    (hmany : candidatesOf (t.listing cwd) commands before word = a :: b :: rest) :
    candidatesOf (t.listing cwd) commands before (commonStart (a :: b :: rest)) = a :: b :: rest := by
  have hbegins : ∀ name ∈ candidatesOf (t.listing cwd) commands before word, word <+: name.toList :=
    fun name => begins_of_mem_candidates fun name hname => by simpa using ((hoffers _ _).1 hname).2
  have hlonger : word <+: commonStart (a :: b :: rest) :=
    prefix_commonStart (List.cons_ne_nil _ _) (hmany ▸ hbegins)
  have hall : ∀ name ∈ candidatesOf (t.listing cwd) commands before word,
      commonStart (a :: b :: rest) <+: name.toList := fun name hname => commonStart_begins (hmany ▸ hname)
  have ha : a ∈ candidatesOf (t.listing cwd) commands before word := hmany ▸ List.mem_cons_self
  have hb : b ∈ candidatesOf (t.listing cwd) commands before word :=
    hmany ▸ List.mem_cons_of_mem _ List.mem_cons_self
  have hne : a ≠ b := by
    have hrises : (candidatesOf (t.listing cwd) commands before word).Pairwise (· < ·) := Text.pairwise_sortedUnique _
    rw [hmany] at hrises
    exact ((List.pairwise_cons.1 hrises).1 b List.mem_cons_self).ne
  rw [← hmany] at hlonger hall ⊢
  generalize commonStart (candidatesOf (t.listing cwd) commands before word) = longer at hlonger hall ⊢
  by_cases hcommand : isCommandPosition before word = true
  · have hslash : '/' ∉ longer := by
      intro hmem
      rcases ((mem_candidates_command_iff hoffers hcommand).1 ha).1 with hbuiltin | hname
      · exact Builtin.slashless hbuiltin ((hall a ha).subset hmem)
      · exact hnames a hname ((hall a ha).subset hmem)
    exact candidates_command_longer hoffers hcommand hslash hlonger hall
  · exact candidates_files_longer (fun _ _ => hsound.slashless) (Bool.eq_false_iff.2 hcommand) hlonger hne ha hb hall

/-- **Completing again.** The file tree has no blank in its names, the commands are those of a set of names without
slashes and blanks. If the last word of the line has no candidate, or several, the completed line with another mark
behind it is completed to the same line, with the same candidates. -/
theorem completed_again {t : FileTree} (hsound : t.Sound) (hblank : ∀ c, isBlank c = true → ¬ t.Mentions c)
    (cwd : NodeId) (hnames : ∀ name ∈ names, '/' ∉ name.toList ∧ ∀ c ∈ name.toList, isBlank c = false)
    (hoffers : Offers commands names) (line : String)
    (hopen : (complete (t.listing cwd) commands line).candidates = [] ∨
      2 ≤ (complete (t.listing cwd) commands line).candidates.length) :
    complete (t.listing cwd) commands ((complete (t.listing cwd) commands line).line ++ "?") =
      complete (t.listing cwd) commands line := by
  obtain ⟨before, word, hline, hword, hbefore⟩ := exists_endsIn line.toList
  have hcut := cutLastWord_run hline hword hbefore
  -- the completed line ends in what the word has become, and that has no blank
  have hagain : ∀ longer, (∀ c ∈ longer, isBlank c = false) →
      cutLastWord (String.ofList (before ++ longer) ++ "?").toList = (before, longer) := by
    intro longer hlonger
    exact cutLastWord_run (.inl (by simp)) hlonger hbefore
  simp only [complete, hcut] at hopen ⊢
  generalize hcandidates : candidatesOf (t.listing cwd) commands before word = candidates at hopen ⊢
  obtain - | ⟨a, - | ⟨b, rest⟩⟩ := candidates
  · rw [extend, hagain word hword]
    simp only [hcandidates, extend]
  · simp at hopen
  · have hstart : ∀ c ∈ commonStart (a :: b :: rest), isBlank c = false := by
      intro c hc
      have ha : a ∈ candidatesOf (t.listing cwd) commands before word := hcandidates ▸ List.mem_cons_self
      exact isBlank_of_mem_candidates hblank (fun name hname => (hnames name hname).2) hoffers hword ha c
        ((commonStart_begins List.mem_cons_self).subset hc)
    have hextend : ∀ word, extend word (a :: b :: rest) = commonStart (a :: b :: rest) := fun _ => rfl
    simp only [hextend, hagain _ hstart,
      candidates_commonStart hsound (fun name hname => (hnames name hname).1) hoffers hcandidates]

/-- Two names go on in the same way, one of them that of a directory, and a hidden one does not. -/
def sampleShelf : FileTree where
  nodes := #[.directory 0 [("notes", 1), ("notebook", 2), (".notes", 2), ("ls", 2)], .directory 0 [], .file [] 0o644]

def sampleListing (stem : String) : List String := ["nice", "node"].filter (Text.beginsWith stem.toList)

theorem completed_again_notes :
    sampleShelf.Sound ∧ (∀ c, isBlank c = true → ¬ sampleShelf.Mentions c) ∧
      (∀ name ∈ ["nice", "node"], '/' ∉ name.toList ∧ ∀ c ∈ name.toList, isBlank c = false) ∧
      Offers sampleListing ["nice", "node"] ∧
      (complete (sampleShelf.listing 0) sampleListing "cat n?").candidates = ["notebook", "notes/"] ∧
      (complete (sampleShelf.listing 0) sampleListing "cat n?").line = "cat note" ∧
      (complete (sampleShelf.listing 0) sampleListing "cat note?").candidates = ["notebook", "notes/"] := by
  have hsound : sampleShelf.Sound := by decide
  have hentries : ∀ i, ∀ entry ∈ sampleShelf.entries i, entry.1 ∈ ["notes", "notebook", ".notes", "ls"] := by
    intro i
    match i with
    | 0 => decide
    | 1 => decide
    | 2 => decide
    | i + 3 => exact fun entry hentry => by cases hentry
  have hblank : ∀ c, isBlank c = true → ¬ sampleShelf.Mentions c := by
    rintro c hc ⟨i, entry, hentry, hmem⟩
    have hnames : ∀ name ∈ ["notes", "notebook", ".notes", "ls"], ∀ c ∈ name.toList, isBlank c = false :=
      blankless_of_all (by decide)
    rw [hnames _ (hentries i entry hentry) c hmem] at hc
    cases hc
  have hoffers : Offers sampleListing ["nice", "node"] := by
    intro stem name
    rw [sampleListing, List.mem_filter, Text.beginsWith_iff]
  have hcut : cutLastWord "cat n?".toList = ("cat ".toList, ['n']) := by decide
  have hposition : isCommandPosition "cat ".toList ['n'] = false := by decide
  have hfiles : candidatesOf (sampleShelf.listing 0) sampleListing "cat ".toList ['n'] = ["notebook", "notes/"] := by
    have hfound : files (sampleShelf.listing 0) ['n'] = ["notes/", "notebook"] := by decide +kernel
    rw [candidatesOf, hposition, if_neg Bool.false_ne_true, hfound]
    exact Text.sortedUnique_eq_iff.2 ⟨by decide +kernel, fun name => by simp [or_comm]⟩
  have hcandidates : (complete (sampleShelf.listing 0) sampleListing "cat n?").candidates = ["notebook", "notes/"] := by
    simp only [complete, hcut, hfiles]
  have hline : (complete (sampleShelf.listing 0) sampleListing "cat n?").line = "cat note" := by
    simp only [complete, hcut, hfiles]
    decide
  have hslashless : ∀ name ∈ ["nice", "node"], '/' ∉ name.toList := by decide
  have hblankless : ∀ name ∈ ["nice", "node"], ∀ c ∈ name.toList, isBlank c = false := blankless_of_all (by decide)
  have hnames : ∀ name ∈ ["nice", "node"], '/' ∉ name.toList ∧ ∀ c ∈ name.toList, isBlank c = false :=
    fun name hname => ⟨hslashless name hname, hblankless name hname⟩
  have hagain := completed_again hsound hblank 0 hnames hoffers "cat n?" (by rw [hcandidates]; decide)
  rw [hline] at hagain
  exact ⟨hsound, hblank, hnames, hoffers, hcandidates, hline, (congrArg Completion.candidates hagain).trans hcandidates⟩

end Completion

end LineShell
