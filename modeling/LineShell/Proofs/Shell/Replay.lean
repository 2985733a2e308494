import LineShell.Proofs.Pipeline.Bare
import LineShell.Proofs.Shell.Nesting

/-!
# Replaying a bookmarked line

A line that is bookmarked in double quotes goes through words, quotes, a record of the store and back, and is
executed as if it had been entered (`replay_eq_execute`). The quotes keep its pipes, signs and marks from being
read when it is saved; the record keeps its blanks and quotes.
-/

namespace LineShell

namespace Bookmarks.Request

variable {command : String}

/-- A single argument that is no flag is saved as it is. -/
theorem ofArguments_command (h : command ∉ ["-l", "-d", "-i"]) : ofArguments [command] = .save command := by
  simp only [List.mem_cons, List.not_mem_nil, or_false, not_or] at h
  unfold ofArguments
  split
  · rename_i hnil
    cases hnil
  · rename_i hflag
    exact absurd (List.cons_eq_cons.1 hflag).1 h.1
  · rename_i hflag
    exact absurd (List.cons_eq_cons.1 hflag).1 h.2.1
  · rename_i hflag
    exact absurd (List.cons_eq_cons.1 hflag).1 h.2.2
  · rw [String.intercalate_singleton]

/-- A written index is read. -/
theorem ofArguments_index {index : Nat} (h : index ≤ Bookmark.maxIndex) :
    ofArguments ["-i", String.ofList (Number.digits index)] = .replay (some index) := by
  simp [ofArguments, indexOf?, Bookmark.readIndex?, Number.read?_digits, h]

end Bookmarks.Request

namespace Pipeline

variable {command : String}

/-- A line in double quotes is one argument. -/
theorem parse_bookmark_quoted (h : '"' ∉ command.toList) : parse ("bookmark \"" ++ command ++ "\"") =
    single { name := Builtin.bookmark.name, arguments := [command] } := by
  have hstage : Stage.Writable { name := Builtin.bookmark.name, arguments := [command] } := by
    refine ⟨by simp [Builtin.name], by simp [Builtin.name, isBlank, isQuote], fun a ha => ?_,
      fun t ht => absurd ht (Option.not_mem_none t), fun o ho => absurd ho (Option.not_mem_none o)⟩
    rw [List.mem_singleton.1 ha]
    exact ⟨'"', rfl, h⟩
  have hwritable : Writable (single { name := Builtin.bookmark.name, arguments := [command] }) := by
    refine ⟨fun s hs => ?_, fun s hs => absurd hs List.not_mem_nil, fun s hs => absurd hs List.not_mem_nil, ?_, ?_⟩
    · rw [List.mem_singleton.1 hs]
      exact hstage
    · rintro ⟨hbackground, -⟩
      cases hbackground
    · rintro ⟨-, harguments, -⟩
      cases harguments
  have hwritten : Stage.Written { name := Builtin.bookmark.name, arguments := [command] }
      ("bookmark \"" ++ command ++ "\"").toList := by
    refine ⟨['"' :: (command.toList ++ ['"'])], [], .cons ⟨'"', rfl, h, rfl⟩ .nil, .nil, ?_⟩
    simp [Builtin.name]
  exact parse_written hwritable ⟨_, .cons hwritten .nil, by simp [mark, single, isBackground, last, needsCompletion]⟩

theorem bare_digits (n : Nat) : Word.Bare (Number.digits n) := by
  refine ⟨Number.digits_ne_nil n, fun c hc => ?_⟩
  have hother : ∀ d, d.isDigit = false → c ≠ d := by
    rintro d hd rfl
    exact Number.not_mem_digits hd hc
  simp [isBlank, isQuote, hother]

/-- The line that replays a bookmark, with a mark behind it or without. -/
theorem parse_bookmark_index (index : Nat) (background : Bool) :
    parse ("bookmark -i " ++ String.ofList (Number.digits index) ++ if background then " &" else "") = single
      { name := Builtin.bookmark.name, arguments := ["-i", String.ofList (Number.digits index)], background } := by
  have hbare : ∀ w ∈ ["bookmark".toList, "-i".toList, Number.digits index], Word.Bare w := by
    simp only [List.forall_mem_cons, List.not_mem_nil, false_imp_iff, implies_true, and_true]
    exact ⟨by decide, by decide, bare_digits index⟩
  have hline : ("bookmark -i " ++ String.ofList (Number.digits index) ++ if background then " &" else "").toList =
      [' '].intercalate ["bookmark".toList, "-i".toList, Number.digits index] ++
        if background then [' ', '&'] else [] := by
    cases background <;> simp
  rw [parse, hline, ofText_bare hbare background]
  rfl

end Pipeline

namespace Shell

variable {κ : Type u} {k : Kernel κ} {s : Shell κ} {x : Option (List Char)} {bs : List Bookmark} {b : Bookmark}
  {index : Nat} {command : String}

theorem execute_single (k : Kernel κ) (s : Shell κ) (arguments : List String) (background : Bool) :
    ∃ depth, 2 ≤ depth ∧ s.execute k (.single { name := Builtin.bookmark.name, arguments, background }) =
      s.bookmark (executeWithin k depth) background (.ofArguments arguments) :=
  execute_bookmark k s rfl

/-- A line in double quotes is saved as it stands. -/
theorem execute_quoted (hquote : '"' ∉ command.toList) (hflag : command ∉ ["-l", "-d", "-i"]) :
    s.execute k (Pipeline.parse ("bookmark \"" ++ command ++ "\"")) = some (s.saveBookmark command) := by
  obtain ⟨depth, -, hexecute⟩ := execute_single k s [command] false
  rw [Pipeline.parse_bookmark_quoted hquote, hexecute, Bookmarks.Request.ofArguments_command hflag, bookmark]

/-- A stored line is executed as the line itself, and left running if that is asked for. -/
theorem execute_index (hload : Bookmarks.load s.host.world.files s.host.cwd s.config.dataDir = .ok bs)
    (hfind : bs.find? (·.index = index) = some b) (hindex : index ≤ Bookmark.maxIndex)
    (hline : (Pipeline.parse b.command).head.name ≠ Builtin.bookmark.name) (background : Bool) :
    ∃ r, s.execute k (Pipeline.parse
        ("bookmark -i " ++ String.ofList (Number.digits index) ++ if background then " &" else "")) = some r ∧
      s.execute k (if background then (Pipeline.parse b.command).setBackground true else Pipeline.parse b.command) =
        some r := by
  obtain ⟨depth, hdepth, hexecute⟩ := execute_single k s ["-i", String.ofList (Number.digits index)] background
  obtain ⟨r, hr, hsettled⟩ := (line_settles (k := k) hline background s).execute (by omega)
  refine ⟨r, ?_, hr⟩
  rw [Pipeline.parse_bookmark_index, hexecute, Bookmarks.Request.ofArguments_index hindex, bookmark, replayBookmark,
    hload]
  cases bs with
  | nil => cases hfind
  | cons b' bs =>
    simp only [hfind]
    exact hsettled depth (by omega)

/-- **A bookmarked line replays as itself.** On a store of complete lines that does not hold the line, the line in
double quotes is stored under an index above all, and nothing else happens. Wherever it is stored so, replaying it
comes to what the line comes to, and with a mark to what it comes to when left running. -/
theorem replay_eq_execute (k : Kernel κ) (hx : s.Stored x)
    (hopen : ∃ opened, s.host.world.files.openWrite s.host.cwd (Bookmarks.path s.config.dataDir) false = .ok opened)
    (hcomplete : Text.Complete (x.getD []))
    (hindex : ∀ b ∈ Bookmarks.ofText (x.getD []), b.index ≠ Bookmark.maxIndex)
    (hnew : ∀ b ∈ Bookmarks.ofText (x.getD []), b.command ≠ command)
    (hnewline : '\n' ∉ command.toList) (hquote : '"' ∉ command.toList) (hflag : command ∉ ["-l", "-d", "-i"])
    (hhead : (Pipeline.parse command).head.name ≠ Builtin.bookmark.name) :
    ∃ index files,
      s.execute k (Pipeline.parse ("bookmark \"" ++ command ++ "\"")) =
        some (.done 0, { s with host := s.host.withFiles files }) ∧
      (∃ i content, s.host.world.files.Writes i content files) ∧
      (∀ b ∈ Bookmarks.ofText (x.getD []), b.index < index) ∧
      Bookmarks.load files s.host.cwd s.config.dataDir = .ok (Bookmarks.ofText (x.getD []) ++ [⟨index, command⟩]) ∧
      ∀ s' : Shell κ,
        Bookmarks.load s'.host.world.files s'.host.cwd s'.config.dataDir =
          .ok (Bookmarks.ofText (x.getD []) ++ [⟨index, command⟩]) →
        (∃ r, s'.execute k (Pipeline.parse ("bookmark -i " ++ String.ofList (Number.digits index))) = some r ∧
          s'.execute k (Pipeline.parse command) = some r) ∧
        (∃ r, s'.execute k (Pipeline.parse ("bookmark -i " ++ String.ofList (Number.digits index) ++ " &")) = some r ∧
          s'.execute k ((Pipeline.parse command).setBackground true) = some r) := by
  obtain ⟨files, hsave⟩ := Bookmarks.exists_save hx hopen hnew
  obtain ⟨-, -, hadd, hholds⟩ := Bookmarks.save_spec hx hsave
  have hload := Bookmarks.load_eq hholds
  have hbound : Bookmarks.nextIndex (Bookmarks.ofText (x.getD [])) ≤ Bookmark.maxIndex :=
    Bookmarks.nextIndex_le_iff.2 fun b hb => Nat.lt_of_le_of_ne (Bookmarks.index_le_of_mem hb) (hindex b hb)
  rw [Option.getD_some, Bookmarks.ofText_append_record hcomplete hnewline, if_pos hbound] at hload
  generalize hnext : Bookmarks.nextIndex (Bookmarks.ofText (x.getD [])) = index at hsave hload hbound
  have hlt : ∀ b ∈ Bookmarks.ofText (x.getD []), b.index < index := fun b hb => hnext ▸ Bookmarks.lt_nextIndex hb
  refine ⟨index, files, ?_, (Store.Holds.addLine hx hadd).2, hlt, hload, fun s' hload' => ?_⟩
  · rw [execute_quoted hquote hflag, saveBookmark_eq hhead hsave]
  · -- the other indices are lower
    have hold : (Bookmarks.ofText (x.getD [])).find? (·.index = index) = none := by
      rw [List.find?_eq_none]
      intro b hb
      simpa using Nat.ne_of_lt (hlt b hb)
    have hfind : (Bookmarks.ofText (x.getD []) ++ [(⟨index, command⟩ : Bookmark)]).find? (·.index = index) =
        some ⟨index, command⟩ := by
      simp [List.find?_append, hold]
    have hplain := execute_index (k := k) hload' hfind hbound hhead false
    have hmarked := execute_index (k := k) hload' hfind hbound hhead true
    rw [if_neg Bool.false_ne_true, if_neg Bool.false_ne_true, String.append_empty] at hplain
    rw [if_pos rfl, if_pos rfl] at hmarked
    exact ⟨hplain, hmarked⟩

def storeShell : Shell Machine := shellOn [("bookmarktxt", "7 \"ls\"\n")]

def pipedLine : String := "x 'a | b' -i | y > z ?"

/-- A line with two stages, quotes and a mark is replayed in the shell that has stored it. -/
theorem replay_eq_execute_piped :
    storeShell.Stored (some "7 \"ls\"\n".toList) ∧ Text.Complete "7 \"ls\"\n".toList ∧
    Bookmarks.ofText "7 \"ls\"\n".toList = [⟨7, "ls"⟩] ∧
    '\n' ∉ pipedLine.toList ∧ '"' ∉ pipedLine.toList ∧ pipedLine ∉ ["-l", "-d", "-i"] ∧
    (Pipeline.parse pipedLine).head.name ≠ Builtin.bookmark.name ∧
    ∃ index files, 7 < index ∧
      storeShell.execute (Machine.kernel fun _ => none) (Pipeline.parse ("bookmark \"" ++ pipedLine ++ "\"")) =
        some (.done 0, { storeShell with host := storeShell.host.withFiles files }) ∧
      ∃ r, Shell.execute (Machine.kernel fun _ => none)
          (Pipeline.parse ("bookmark -i " ++ String.ofList (Number.digits index)))
          { storeShell with host := storeShell.host.withFiles files } = some r ∧
        Shell.execute (Machine.kernel fun _ => none) (Pipeline.parse pipedLine)
          { storeShell with host := storeShell.host.withFiles files } = some r := by
  have hstored : storeShell.Stored (some "7 \"ls\"\n".toList) :=
    ⟨by decide +kernel, 1, FileTree.newFileMode, by decide +kernel, rfl⟩
  have hopen : storeShell.host.world.files.openWrite storeShell.host.cwd (Bookmarks.path "/") false =
      .ok (1, storeShell.host.world.files) := by decide +kernel
  have hcomplete : Text.Complete "7 \"ls\"\n".toList := by decide
  have hread : Bookmarks.ofText "7 \"ls\"\n".toList = [⟨7, "ls"⟩] := by decide +kernel
  have hindex : ∀ b ∈ Bookmarks.ofText "7 \"ls\"\n".toList, b.index ≠ Bookmark.maxIndex := by
    rw [hread]
    decide
  have hnew : ∀ b ∈ Bookmarks.ofText "7 \"ls\"\n".toList, b.command ≠ pipedLine := by
    rw [hread]
    decide
  have hnewline : '\n' ∉ pipedLine.toList := by decide
  have hquote : '"' ∉ pipedLine.toList := by decide
  have hflag : pipedLine ∉ ["-l", "-d", "-i"] := by decide
  have hhead : (Pipeline.parse pipedLine).head.name ≠ Builtin.bookmark.name := by decide +kernel
  obtain ⟨index, files, hsaved, -, hlt, hload, hreplay⟩ := replay_eq_execute (Machine.kernel fun _ => none) hstored
    ⟨_, hopen⟩ hcomplete hindex hnew hnewline hquote hflag hhead
  have hseven : 7 < index := hlt ⟨7, "ls"⟩ (by rw [Option.getD_some, hread]; exact List.mem_cons_self)
  exact ⟨hstored, hcomplete, hread, hnewline, hquote, hflag, hhead, index, files, hseven, hsaved, (hreplay _ hload).1⟩

/-- A shell whose records are to be kept in a directory that is missing. -/
def homelessShell : Shell Machine := { shellOn [] with config := { name := "sh", dataDir := "/none" } }

/-- There is no store, nothing is against the line, and it cannot be saved. -/
theorem bookmark_without_directory :
    homelessShell.Stored none ∧ Text.Complete [] ∧ Bookmarks.ofText [] = [] ∧
    '\n' ∉ "ls".toList ∧ '"' ∉ "ls".toList ∧ "ls" ∉ ["-l", "-d", "-i"] ∧
    (Pipeline.parse "ls").head.name ≠ Builtin.bookmark.name ∧
    (homelessShell.execute (Machine.kernel fun _ => none) (Pipeline.parse ("bookmark \"" ++ "ls" ++ "\""))).map (·.1) =
      some (.done 1) := by
  refine ⟨⟨?_, ?_⟩, ?_, ?_, ?_, ?_, ?_, ?_, ?_⟩ <;> decide +kernel

end Shell

end LineShell
