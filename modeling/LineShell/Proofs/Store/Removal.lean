import LineShell.Proofs.Files.Renamed
import LineShell.Proofs.Store.Bookmarks

/-!
# Removing from any store

A store may hold lines that are no records, or records that are written otherwise than a record is. What is read of it
can be written and read again (`ofText_toText_filter`), and what was written beside the store takes its place at once.
So a removal leaves just the other bookmarks, or the store as it was (`remove_rewrites`), whatever links lead to the
store or to the file beside it, if these are two files. In a tree where no more than that can go wrong (`Kept`), the next
removal can rely on the same (`Kept.remove`). In any other tree a store is never left with other bookmarks than that,
though it may be lost (`holds_of_remove`).
-/

namespace LineShell

/-! ## Reading what was read -/

namespace Bookmarks

variable {t t₁ t' : FileTree} {cwd f i : NodeId} {dataDir : String} {x x' : Option (List Char)} {text text' : List Char}
  {bs : List Bookmark} {b : Bookmark} {index : Nat} {bytes content : Bytes} {result : Except IoError Bool}

theorem mem_of_mem_withoutQuotes {c : Char} {cs : List Char} (h : c ∈ Bookmark.withoutQuotes cs) : c ∈ cs := by
  unfold Bookmark.withoutQuotes at h
  split at h
  · unfold Text.dropLast? at h
    split at h
    · exact List.mem_cons_of_mem _ (List.mem_of_mem_dropLast h)
    · exact h
  · exact h

theorem newline_not_mem_command (h : b ∈ ofText text) : '\n' ∉ b.command.toList := by
  obtain ⟨line, hline, hread⟩ := List.mem_filterMap.1 h
  unfold Bookmark.ofLine? at hread
  simp only [bind, Option.bind_eq_some_iff, Option.some.injEq] at hread
  obtain ⟨⟨front, behind⟩, hsplit, index, -, rfl⟩ := hread
  have hnewline := Text.newline_not_mem_of_mem_lines hline
  rw [Text.splitAt?_eq_some hsplit] at hnewline
  rw [String.toList_ofList]
  exact fun hmem => hnewline (List.mem_append_right _ (List.mem_cons_of_mem _ (mem_of_mem_withoutQuotes hmem)))

/-- Any of the bookmarks of any text are read back from the text that is written for them. -/
theorem ofText_toText_filter (text : List Char) (p : Bookmark → Bool) :
    ofText (toText ((ofText text).filter p)) = (ofText text).filter p := by
  have hmem : ∀ b ∈ (ofText text).filter p, b ∈ ofText text := fun b => List.mem_of_mem_filter
  rw [ofText_toText fun b hb => newline_not_mem_command (hmem b hb), List.filter_eq_self]
  exact fun b hb => decide_eq_true (index_le_of_mem (hmem b hb))

/-! ## The file beside the store -/

theorem isEntry_store : Path.IsEntry "bookmarktxt" :=
  ⟨by decide, by decide, by decide, by decide +kernel⟩

theorem isEntry_draft : Path.IsEntry "bookmarktxt.tmp" :=
  ⟨by decide, by decide, by decide, by decide +kernel⟩

theorem draftPath_eq (dataDir : String) : draftPath dataDir = Path.join dataDir "bookmarktxt.tmp" := by
  unfold draftPath path Path.join
  split
  · rfl
  · split
    · rw [String.append_assoc]
      rfl
    · rw [String.append_assoc]
      rfl

theorem exists_text_of_mem (h : ∃ b ∈ ofText (x.getD []), b.index = index) : ∃ text, x = some text := by
  cases x with
  | none =>
    obtain ⟨b, hb, -⟩ := h
    cases hb
  | some text => exact ⟨text, rfl⟩

/-! ## Stores that texts are kept in -/

/-- The store holds `x`. What is written beside the store stays there, and if there is a link, it leads to another place
than the store: a link to the null device would lose the bookmarks, and a link to the store would lead to itself as soon
as it has the store's name. -/
structure Kept (t : FileTree) (cwd : NodeId) (dataDir : String) (x : Option (List Char)) : Prop where
  holds : Store.Holds t cwd (path dataDir) x
  retains : t.Retains cwd (draftPath dataDir)
  apart : t.EndsInLink (t.resolve cwd (draftPath dataDir) true) → t.Apart cwd (draftPath dataDir) (path dataDir)

theorem Kept.of_regular (hholds : Store.Holds t cwd (path dataDir) x) (hdraft : t.Regular cwd (draftPath dataDir)) :
    Kept t cwd dataDir x :=
  ⟨hholds, hdraft.retains, fun hlink => absurd hlink hdraft.not_endsInLink⟩

theorem Kept.addLine {record : List Char} (h : Kept t cwd dataDir x)
    (hadd : Store.addLine t cwd (path dataDir) record = .ok t') :
    Kept t' cwd dataDir (some (x.getD [] ++ (record ++ ['\n']))) := by
  obtain ⟨hholds, i, content, hwrites⟩ := h.holds.addLine hadd
  obtain ⟨f, t₁, content', hopen, rfl⟩ := Store.exists_of_addLine hadd
  refine ⟨hholds, h.retains.of_writes hwrites, fun hlink => ?_⟩
  have hapart := h.apart (.of_alike hwrites.alike hlink)
  exact (hapart.symm.of_openWrite h.holds.retains h.retains hopen content').symm

/-- What was written beside a store is found there, and the store is still there. -/
theorem Kept.writeFile (h : Kept t cwd dataDir (some text))
    (hwrite : t.writeFile cwd (draftPath dataDir) (Utf8.encode text') = .ok t₁) :
    (∃ y, Kept t₁ cwd dataDir (some y)) ∧
      ∃ i mode, t₁.locate cwd (draftPath dataDir) = .ok i ∧ t₁.node? i = some (.file (Utf8.encode text') mode) := by
  rcases FileTree.writeFile_cases hwrite with ⟨-, i, hi, hwrites, -⟩ | ⟨-, i, hi, hother, hdi, -⟩
  · obtain ⟨mode, hfile⟩ := hwrites.file
    obtain ⟨y, hy⟩ : ∃ y, Store.Holds t₁ cwd (path dataDir) (some y) := by
      rcases h.holds.writes hwrites with hy | hy
      · exact ⟨_, hy⟩
      · exact ⟨_, hy⟩
    refine ⟨⟨y, hy, h.retains.of_writes hwrites, fun hlink => ?_⟩, i, mode, hi, hfile⟩
    have hapart := h.apart (.of_alike hwrites.alike hlink)
    unfold FileTree.writeFile at hwrite
    obtain ⟨⟨f, t₂⟩, hopen, hcontent⟩ := exists_of_bind hwrite
    cases hcontent
    exact hapart.of_openWrite h.retains h.holds.retains hopen _
  · obtain ⟨spot, hspot, hnode, -⟩ := FileTree.locate_iff_resolve.1 hi
    rcases h.retains spot hspot i hnode with hfile | hdirectory
    · exact absurd hfile hother
    · cases hdi.symm.trans hdirectory

/-- The other bookmarks take the place of all. A removal fails only where the system does. -/
theorem Kept.remove (h : Kept t cwd dataDir x) (hremove : Bookmarks.remove t cwd dataDir index = (result, t')) :
    match result with
    | .ok false => t' = t ∧ ∀ b ∈ ofText (x.getD []), b.index ≠ index
    | .ok true => (∃ b ∈ ofText (x.getD []), b.index = index) ∧
        Kept t' cwd dataDir (some (toText ((ofText (x.getD [])).filter (·.index ≠ index))))
    | .error e => ∃ n, e = .system n := by
  rcases remove_cases (load_eq h.holds) hremove with
    ⟨hmissing, rfl, rfl⟩ | ⟨hthere, ⟨n, rfl, rfl⟩ | ⟨t₁, hwrite, ⟨n, rfl, rfl⟩ | ⟨rfl, hrename⟩⟩⟩
  · exact ⟨rfl, hmissing⟩
  · exact ⟨n, rfl⟩
  · exact ⟨n, rfl⟩
  obtain ⟨text, rfl⟩ := exists_text_of_mem hthere
  obtain ⟨⟨y, hkept₁⟩, i, mode, hi, hfile⟩ := h.writeFile hwrite
  obtain ⟨hnul, j, mode', hj, hfile'⟩ := hkept₁.holds
  have hdi : t₁.isDirectory i = false := FileTree.IsFile.not_isDirectory ⟨_, mode, hfile⟩
  have hdj : t₁.isDirectory j = false := FileTree.IsFile.not_isDirectory ⟨_, mode', hfile'⟩
  have hne : t₁.EndsInLink (t₁.resolve cwd (draftPath dataDir) true) → i ≠ j := by
    rintro hlink rfl
    exact (hkept₁.apart hlink).locate_ne hi hj
  rw [draftPath_eq] at hi hne hrename
  obtain ⟨hstore, hnodes, hdraft⟩ :=
    FileTree.locate_rename isEntry_draft isEntry_store (by decide) hi hj hne hdi hdj hrename
  rw [← draftPath_eq] at hne hdraft
  have hholds : Store.Holds t' cwd (path dataDir) (some (toText ((ofText text).filter (·.index ≠ index)))) :=
    ⟨hnul, i, mode, hstore, (hnodes i hdi).trans hfile⟩
  rcases hdraft with hgone | ⟨hsame, rfl⟩
  · -- where nothing is left, nothing is a link
    refine ⟨hthere, hholds, fun spot hspot k hk => ?_, ?_⟩
    · cases (hgone false spot hspot).symm.trans hk
    · rintro ⟨spot, k, target, hspot, hk, -⟩
      cases (hgone true spot hspot).symm.trans hk
  · exact ⟨hthere, hholds, hkept₁.retains, fun hlink => absurd hsame (hne hlink)⟩

/-! ## Removing -/

/-- If the store is a file when the draft has its name, it is the draft. -/
theorem node?_of_rename (hi : t.locate cwd (draftPath dataDir) = .ok i) (hdi : t.isDirectory i = false)
    (hf : t.locate cwd (path dataDir) = .ok f) (hdf : t.isDirectory f = false)
    (hrename : t.rename cwd (draftPath dataDir) (path dataDir) = .ok t')
    (hx' : Store.Holds t' cwd (path dataDir) (some text')) :
    ∃ mode, t.node? i = some (.file (Utf8.encode text') mode) := by
  obtain ⟨-, k, mode, hk, hfile⟩ := hx'
  rw [draftPath_eq] at hi hrename
  obtain ⟨rfl, hnode⟩ := FileTree.eq_of_locate_rename isEntry_draft isEntry_store (by decide) hi hf hdi hdf hrename hk
    (FileTree.IsFile.not_isDirectory ⟨_, mode, hfile⟩)
  exact ⟨mode, hnode.symm.trans hfile⟩

/-- Whatever links there are, a store holds the other bookmarks after a removal, or is there no more; if it failed, it
may also hold what it held. -/
theorem holds_of_remove (hx : Store.Holds t cwd (path dataDir) x)
    (hremove : Bookmarks.remove t cwd dataDir index = (result, t')) :
    match result with
    | .ok true => ∀ text', Store.Holds t' cwd (path dataDir) (some text') →
        text' = toText ((ofText (x.getD [])).filter (·.index ≠ index))
    | .ok false => t' = t
    | .error _ => Store.Holds t' cwd (path dataDir) x ∨
        Store.Holds t' cwd (path dataDir) (some (toText ((ofText (x.getD [])).filter (·.index ≠ index)))) := by
  rcases remove_cases (load_eq hx) hremove with
    ⟨-, rfl, rfl⟩ | ⟨hthere, ⟨n, rfl, rfl⟩ | ⟨t₁, hwrite, hend⟩⟩
  · rfl
  · exact Or.inl hx
  obtain ⟨text, rfl⟩ := exists_text_of_mem hthere
  obtain ⟨f, hf, hisFile⟩ := hx.exists_file
  rcases FileTree.writeFile_cases hwrite with ⟨-, i, hi, hwrites, -⟩ | ⟨rfl, i, hi, hother, hdi, -⟩
  · rcases hend with ⟨n, rfl, rfl⟩ | ⟨rfl, hrename⟩
    · exact hx.writes hwrites
    · intro text' hx'
      obtain ⟨mode, hwritten⟩ := hwrites.file
      obtain ⟨mode', hread⟩ := node?_of_rename hi (FileTree.IsFile.not_isDirectory ⟨_, mode, hwritten⟩)
        (hwrites.locate hf) (hwrites.isFile hisFile).not_isDirectory hrename hx'
      rw [hwritten, Option.some.injEq, Node.file.injEq] at hread
      have hdecode := Utf8.decode?_encode text'
      rw [← hread.1, Utf8.decode?_encode] at hdecode
      exact (Option.some.inj hdecode).symm
  · rcases hend with ⟨n, rfl, rfl⟩ | ⟨rfl, hrename⟩
    · exact Or.inl hx
    · -- what keeps nothing is no text
      intro text' hx'
      obtain ⟨mode, hread⟩ := node?_of_rename hi hdi hf hisFile.not_isDirectory hrename hx'
      exact absurd ⟨_, mode, hread⟩ hother

/-- A store with a bookmark in it is a file that is read as a text. -/
theorem exists_of_load (hload : load t cwd dataDir = .ok bs) (hb : b ∈ bs) : Path.hasNul (path dataDir) = false ∧
    ∃ f text, t.locate cwd (path dataDir) = .ok f ∧ t.isDirectory f = false ∧ t.node? f ≠ none ∧ bs = ofText text := by
  obtain ⟨x, hread, hbs⟩ := exists_of_bind hload
  cases hbs
  unfold Store.read? at hread
  split at hread
  · cases hread
  rename_i hnul
  refine ⟨by simpa using hnul, ?_⟩
  split at hread
  · -- no file, no bookmark
    split at hread
    · cases hread
      cases hb
    · cases hread
  · rename_i bytes hfile
    split at hread
    · rename_i text hdecode
      cases hread
      obtain ⟨f, hlocate, hcontent⟩ := exists_of_bind hfile
      refine ⟨f, text, hlocate, ?_, fun hnone => ?_, rfl⟩
      · by_contra hdirectory
        obtain ⟨above, entries, hnode⟩ := FileTree.isDirectory_iff.1 (by simpa using hdirectory)
        simp [FileTree.contentOf, hnode] at hcontent
      · have hempty : bytes = [] := by simpa [FileTree.contentOf, hnone] using hcontent.symm
        obtain rfl : text = [] := Option.some.inj (hdecode.symm.trans (hempty ▸ Utf8.decode?_encode []))
        cases hb
    · cases hread

theorem load_of_readFile (hnul : Path.hasNul (path dataDir) = false)
    (hread : t.readFile cwd (path dataDir) = .ok (Utf8.encode text)) : load t cwd dataDir = .ok (ofText text) := by
  simp [load, Store.read?, hnul, hread, Utf8.decode?_encode, bind, Except.bind]

theorem remove_of_absent (hload : load t cwd dataDir = .ok bs) (h : ∀ b ∈ bs, b.index ≠ index) :
    Bookmarks.remove t cwd dataDir index = (.ok false, t) := by
  have hall : bs.filter (·.index ≠ index) = bs := List.filter_eq_self.2 fun b hb => decide_eq_true (h b hb)
  unfold Bookmarks.remove
  rw [hload]
  dsimp only
  rw [hall, if_pos rfl]

/-- **Removing from any store.** Let the file beside the store be no link to it. If a removal says that there was such a
bookmark, the others are loaded afterwards, in their order, and another removal finds none; a file beside the store that
keeps nothing has taken all of them away. If it says that there was none, nothing changed. If it fails, the
store has the bytes that it had. -/
theorem remove_rewrites (hlink : ∀ i, t.locate cwd (draftPath dataDir) = .ok i → t.locate cwd (path dataDir) ≠ .ok i)
    (hremove : Bookmarks.remove t cwd dataDir index = (result, t')) :
    match result with
    | .ok true => ∃ bs, load t cwd dataDir = .ok bs ∧ (∃ b ∈ bs, b.index = index) ∧
        ((∀ i, t.locate cwd (draftPath dataDir) = .ok i → t.IsFile i) →
          load t' cwd dataDir = .ok (bs.filter (·.index ≠ index))) ∧
        ((∃ i, t.locate cwd (draftPath dataDir) = .ok i ∧ ¬ t.IsFile i) → load t' cwd dataDir = .ok []) ∧
        Bookmarks.remove t' cwd dataDir index = (.ok false, t')
    | .ok false => ∃ bs, load t cwd dataDir = .ok bs ∧ (∀ b ∈ bs, b.index ≠ index) ∧ t' = t
    | .error _ => t'.readFile cwd (path dataDir) = t.readFile cwd (path dataDir) := by
  cases hload : load t cwd dataDir with
  | error e =>
    unfold Bookmarks.remove at hremove
    rw [hload] at hremove
    cases hremove
    rfl
  | ok bs =>
    rcases remove_cases hload hremove with
      ⟨hmissing, rfl, rfl⟩ | ⟨⟨b, hb, hindex⟩, ⟨n, rfl, rfl⟩ | ⟨t₁, hwrite, hend⟩⟩
    · exact ⟨bs, rfl, hmissing, rfl⟩
    · rfl
    obtain ⟨hnul, f, text, hf, hdf, hnf, rfl⟩ := exists_of_load hload hb
    obtain ⟨hf₁, hkept, i, hi, hne, hdi, hcontent⟩ :=
      FileTree.writeFile_beside hwrite hf hdf hnf fun hdraft => hlink f hdraft hf
    rcases hend with ⟨n, rfl, rfl⟩ | ⟨rfl, hrename⟩
    · rw [FileTree.readFile_of_locate hf₁, FileTree.readFile_of_locate hf]
      exact FileTree.contentOf_congr hkept
    rw [draftPath_eq] at hi hrename
    have hdf₁ : t₁.isDirectory f = false := by
      rw [FileTree.isDirectory, hkept]
      exact hdf
    obtain ⟨hstore, hnodes, -⟩ := FileTree.locate_rename isEntry_draft isEntry_store (by decide) hi hf₁ (fun _ => hne.symm) hdi hdf₁ hrename
    have hread : t'.readFile cwd (path dataDir) = t₁.contentOf i :=
      (FileTree.readFile_of_locate hstore).trans (FileTree.contentOf_congr (hnodes i hdi))
    refine ⟨_, rfl, ⟨b, hb, hindex⟩, ?_⟩
    rcases hcontent with ⟨hfiles, hcontent⟩ | ⟨hkeepsNothing, hcontent⟩
    · have hload' := load_of_readFile hnul (hread.trans hcontent)
      rw [ofText_toText_filter] at hload'
      refine ⟨fun _ => hload', ?_, remove_of_absent hload' fun b hb => ?_⟩
      · rintro ⟨k, hk, hother⟩
        exact absurd (hfiles k hk) hother
      · simpa using (List.mem_filter.1 hb).2
    · have hload' : load t' cwd dataDir = .ok (ofText []) := load_of_readFile hnul (hread.trans hcontent)
      obtain ⟨k, hk, hother⟩ := hkeepsNothing
      exact ⟨fun hfiles => absurd (hfiles k hk) hother, fun _ => hload',
        remove_of_absent hload' fun b hb => absurd hb List.not_mem_nil⟩

/-- The store and the file beside it are links, one to a file in another directory and one to nothing yet. The lines of
the store have signs, zeros, single quotes and carriage returns, and the last one is not ended. -/
def linkedStore : FileTree where
  nodes := #[.directory 0 [("home", 1), ("var", 4)],
    .directory 0 [("bookmarktxt", 2), ("bookmarktxt.tmp", 3)],
    .link "../var/store", .link "../var/store.new",
    .directory 0 [("store", 5)],
    .file (Utf8.ofString "+7 a\r\n007 \"b\nno record\n1 \"c\"x\r\n2 d\r\r\n3 \"") 0o644]

theorem remove_rewrites_linked :
    (∀ i, linkedStore.locate FileTree.root (draftPath "/home") = .ok i →
      linkedStore.locate FileTree.root (path "/home") ≠ .ok i) ∧
    load linkedStore FileTree.root "/home" =
      .ok [⟨7, "a"⟩, ⟨7, "\"b"⟩, ⟨1, "\"c\"x"⟩, ⟨2, "d\r"⟩, ⟨3, "\""⟩] ∧
    ∃ t', Bookmarks.remove linkedStore FileTree.root "/home" 7 = (.ok true, t') ∧
      load t' FileTree.root "/home" = .ok [⟨1, "\"c\"x"⟩, ⟨2, "d\r"⟩, ⟨3, "\""⟩] ∧
      Bookmarks.remove t' FileTree.root "/home" 7 = (.ok false, t') := by
  have hdraft : linkedStore.locate FileTree.root (draftPath "/home") = .error .noEntry := by decide +kernel
  have hlink : ∀ i, linkedStore.locate FileTree.root (draftPath "/home") = .ok i →
      linkedStore.locate FileTree.root (path "/home") ≠ .ok i := by
    intro i hi
    cases hdraft.symm.trans hi
  have hload : load linkedStore FileTree.root "/home" =
      .ok [⟨7, "a"⟩, ⟨7, "\"b"⟩, ⟨1, "\"c\"x"⟩, ⟨2, "d\r"⟩, ⟨3, "\""⟩] := by decide +kernel
  have hremove : Bookmarks.remove linkedStore FileTree.root "/home" 7 =
      (.ok true, (Bookmarks.remove linkedStore FileTree.root "/home" 7).2) := by
    refine Prod.ext ?_ rfl
    decide +kernel
  obtain ⟨bs, hbs, -, hfile, -, hagain⟩ := remove_rewrites hlink hremove
  cases hload.symm.trans hbs
  refine ⟨hlink, hload, _, hremove, hfile fun i hi => ?_, hagain⟩
  cases hdraft.symm.trans hi

/-- A file beside the store that is a link to the null device. -/
def nullDraft : FileTree where
  nodes := #[.directory 0 [("bookmarktxt", 1), ("bookmarktxt.tmp", 2), ("dev", 3)],
    .file (Utf8.ofString "0 \"a\"\n1 \"b\"\n") 0o644, .link "/dev/null", .directory 0 [("null", 4)], .null]

/-- The device takes what is written, and is the store afterwards: the other bookmark is gone. -/
theorem remove_beside_null :
    (∀ i, nullDraft.locate FileTree.root (draftPath "/") = .ok i →
      nullDraft.locate FileTree.root (path "/") ≠ .ok i) ∧
    load nullDraft FileTree.root "/" = .ok [⟨0, "a"⟩, ⟨1, "b"⟩] ∧
    (Bookmarks.remove nullDraft FileTree.root "/" 0).1 = .ok true ∧
    load (Bookmarks.remove nullDraft FileTree.root "/" 0).2 FileTree.root "/" ≠
      .ok ([⟨0, "a"⟩, ⟨1, "b"⟩].filter (·.index ≠ 0)) := by
  have hdraft : nullDraft.locate FileTree.root (draftPath "/") = .ok 4 := by decide +kernel
  have hstore : nullDraft.locate FileTree.root (path "/") = .ok 1 := by decide +kernel
  refine ⟨fun i hi => ?_, by decide +kernel, by decide +kernel, by decide +kernel⟩
  cases hdraft.symm.trans hi
  rw [hstore]
  decide

end Bookmarks

end LineShell
