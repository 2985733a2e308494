import LineShell.Store.Bookmarks
import LineShell.Proofs.Store.Text
import LineShell.Proofs.Text.Lines
import LineShell.Proofs.Text.Number

/-!
# Reading back stored bookmarks

A record is read back as the bookmark that was written (`ofLine?_record`), and a text of records as the bookmarks
of these records (`ofText_toText`). `save_spec` says what a store holds after a bookmark was saved, and what the answer
was, and `remove_cases` what a removal does.
-/

namespace LineShell

/-! ## Records -/

namespace Bookmark

variable {b : Bookmark} {front : List Char}

theorem withoutQuotes_quoted (command : List Char) : withoutQuotes ('"' :: (command ++ ['"'])) = command := by
  simp [withoutQuotes, Text.dropLast?]

theorem record_eq (b : Bookmark) :
    b.record = Number.digits b.index ++ ' ' :: '"' :: (b.command.toList ++ ['"']) := by
  simp [record]

/-- A line is read by what stands in front of its first blank and behind it. -/
theorem ofLine?_blank (h : ' ' ∉ front) (behind : List Char) : ofLine? (front ++ ' ' :: behind) =
    (readIndex? front).map fun index => ⟨index, String.ofList (withoutQuotes behind)⟩ := by
  rw [ofLine?, Text.splitAt?_append h]
  simp only [bind, Option.bind]
  cases readIndex? front <;> rfl

/-- A record with something in front of its index. -/
theorem ofLine?_append_record (h : ' ' ∉ front) (b : Bookmark) : ofLine? (front ++ b.record) =
    (readIndex? (front ++ Number.digits b.index)).map fun index => ⟨index, b.command⟩ := by
  have hblank : ' ' ∉ front ++ Number.digits b.index := by
    rw [List.mem_append, not_or]
    exact ⟨h, Number.not_mem_digits rfl⟩
  rw [record_eq, ← List.append_assoc, ofLine?_blank hblank, withoutQuotes_quoted, String.ofList_toList]

/-- A record is read back, if its index is not too high. -/
theorem ofLine?_record (b : Bookmark) : ofLine? b.record = if b.index ≤ maxIndex then some b else none := by
  have hnothing : ' ' ∉ ([] : List Char) := List.not_mem_nil
  have h := ofLine?_append_record hnothing b
  rw [List.nil_append, List.nil_append, readIndex?, Number.read?_digits] at h
  rw [h]
  split <;> rfl

theorem newline_not_mem_record (h : '\n' ∉ b.command.toList) : '\n' ∉ b.record := by
  have hdigits : '\n' ∉ Number.digits b.index := Number.not_mem_digits rfl
  simp [record, hdigits, h]

theorem getLast?_record (front : List Char) (b : Bookmark) : (front ++ b.record).getLast? = some '"' := by
  rw [record, ← List.append_assoc, List.getLast?_concat]

end Bookmark

/-! ## Texts of records -/

namespace Bookmarks

variable {t t' : FileTree} {cwd : NodeId} {dataDir command : String} {x : Option (List Char)}
  {text front line : List Char} {bs : List Bookmark} {b : Bookmark} {saved : Option Nat} {index bound : Nat}

theorem ofText_append (h : Text.Complete front) (text : List Char) :
    ofText (front ++ text) = ofText front ++ ofText text := by
  rw [ofText, Text.lines_append h, List.filterMap_append]
  rfl

theorem ofText_openLine (h : '\n' ∉ line) : ofText line = (Bookmark.ofLine? line).toList := by
  by_cases hline : line = []
  · rw [hline]
    rfl
  · rw [ofText, Text.lines_of_not_mem h, if_neg hline]
    cases hbookmark : Bookmark.ofLine? line <;> simp [hbookmark]

theorem ofText_line (h : '\n' ∉ line) (hreturn : line.getLast? ≠ some '\r') :
    ofText (line ++ ['\n']) = (Bookmark.ofLine? line).toList := by
  rw [ofText, Text.lines_concat h hreturn]
  cases hbookmark : Bookmark.ofLine? line <;> simp [hbookmark]

/-- A record behind complete lines is one more bookmark. -/
theorem ofText_append_record (htext : Text.Complete text) (hcommand : '\n' ∉ b.command.toList) :
    ofText (text ++ (b.record ++ ['\n'])) = ofText text ++ if b.index ≤ Bookmark.maxIndex then [b] else [] := by
  have hlast : b.record.getLast? ≠ some '\r' := by
    have h := Bookmark.getLast?_record [] b
    rw [List.nil_append] at h
    rw [h]
    decide
  rw [ofText_append htext, ofText_line (Bookmark.newline_not_mem_record hcommand) hlast, Bookmark.ofLine?_record]
  split <;> rfl

theorem toText_concat (bs : List Bookmark) (b : Bookmark) : toText (bs ++ [b]) = toText bs ++ (b.record ++ ['\n']) := by
  simp [toText]

theorem complete_toText (bs : List Bookmark) : Text.Complete (toText bs) := by
  rcases List.eq_nil_or_concat bs with rfl | ⟨init, b, rfl⟩
  · exact Text.complete_nil
  · rw [List.concat_eq_append, toText_concat, ← List.append_assoc]
    exact Text.complete_concat _

/-- The text of some bookmarks is read back as these bookmarks, but for those with an index that is too high. -/
theorem ofText_toText (h : ∀ b ∈ bs, '\n' ∉ b.command.toList) :
    ofText (toText bs) = bs.filter (·.index ≤ Bookmark.maxIndex) := by
  induction bs using List.reverseRecOn with
  | nil => rfl
  | append_singleton bs b ih =>
    have hbs : ∀ b ∈ bs, '\n' ∉ b.command.toList := fun b hb => h b (List.mem_append_left _ hb)
    have hb : '\n' ∉ b.command.toList := h b (List.mem_append_right _ List.mem_cons_self)
    rw [toText_concat, ofText_append_record (complete_toText bs) hb, ih hbs, List.filter_append]
    congr 1
    by_cases hindex : b.index ≤ Bookmark.maxIndex <;> simp [hindex]

/-! ## The next index -/

theorem index_le_of_mem (h : b ∈ ofText text) : b.index ≤ Bookmark.maxIndex := by
  obtain ⟨line, -, hread⟩ := List.mem_filterMap.1 h
  unfold Bookmark.ofLine? at hread
  simp only [bind, Option.bind_eq_some_iff, Option.some.injEq] at hread
  obtain ⟨⟨front, behind⟩, -, index, hindex, rfl⟩ := hread
  exact Number.le_of_read? hindex

/-- The next index is the least one above all. -/
theorem nextIndex_le_iff : nextIndex bs ≤ bound ↔ ∀ b ∈ bs, b.index < bound := by
  have hfold : ∀ n, bs.foldl (fun n b => max n (b.index + 1)) n ≤ bound ↔ n ≤ bound ∧ ∀ b ∈ bs, b.index < bound := by
    induction bs with
    | nil => simp
    | cons b bs ih =>
      intro n
      rw [List.foldl_cons, ih, List.forall_mem_cons, ← and_assoc, Nat.max_le]
      rfl
  rw [nextIndex, hfold]
  simp

theorem lt_nextIndex (h : b ∈ bs) : b.index < nextIndex bs := nextIndex_le_iff.1 (Nat.le_refl _) b h

/-! ## Saving and removing -/

theorem load_eq (h : Store.Holds t cwd (path dataDir) x) : load t cwd dataDir = .ok (ofText (x.getD [])) := by
  simp [load, h.read?, bind, Except.bind]

/-- A command that is there already changes nothing; another one is added with the next index. -/
theorem save_spec (h : Store.Holds t cwd (path dataDir) x) (hsave : save t cwd dataDir command = .ok (saved, t')) :
    match saved with
    | none => t' = t ∧ ∃ b ∈ ofText (x.getD []), b.command = command
    | some index => index = nextIndex (ofText (x.getD [])) ∧ (∀ b ∈ ofText (x.getD []), b.command ≠ command) ∧
        Store.addLine t cwd (path dataDir) (Bookmark.record ⟨index, command⟩) = .ok t' ∧
        Store.Holds t' cwd (path dataDir) (some (x.getD [] ++ (Bookmark.record ⟨index, command⟩ ++ ['\n']))) := by
  unfold save at hsave
  rw [load_eq h] at hsave
  dsimp only [bind, Except.bind] at hsave
  split at hsave
  · rename_i hthere
    cases hsave
    exact ⟨rfl, by simpa using hthere⟩
  · rename_i hnew
    obtain ⟨t₁, hadd, hsave⟩ := exists_of_bind hsave
    cases hsave
    exact ⟨rfl, by simpa using hnew, hadd, (h.addLine hadd).1⟩

/-- A new command is saved if the store can be opened for it. -/
theorem exists_save (h : Store.Holds t cwd (path dataDir) x)
    (hopen : ∃ opened, t.openWrite cwd (path dataDir) false = .ok opened)
    (hnew : ∀ b ∈ ofText (x.getD []), b.command ≠ command) :
    ∃ t', save t cwd dataDir command = .ok (some (nextIndex (ofText (x.getD []))), t') := by
  obtain ⟨t', hadd⟩ := Store.exists_addLine h.hasNul hopen
    (Bookmark.record ⟨nextIndex (ofText (x.getD [])), command⟩)
  have hany : (ofText (x.getD [])).any (·.command = command) = false := by simpa using hnew
  refine ⟨t', ?_⟩
  simp [save, load_eq h, hany, hadd, bind, Except.bind]

/-- Saving fails only where the system does. -/
theorem save_error {e : IoError} (h : Store.Holds t cwd (path dataDir) x)
    (hsave : save t cwd dataDir command = .error e) : ∃ n, e = .system n := by
  unfold save at hsave
  rw [load_eq h] at hsave
  dsimp only [bind, Except.bind] at hsave
  split at hsave
  · cases hsave
  · split at hsave
    · rename_i hadd
      cases hsave
      exact Store.addLine_error h.hasNul hadd
    · cases hsave

/-- What a removal does: nothing, if there is no such bookmark; else it writes the others to the draft, and gives the
draft the name of the store. -/
theorem remove_cases {result : Except IoError Bool} (hload : load t cwd dataDir = .ok bs)
    (hremove : Bookmarks.remove t cwd dataDir index = (result, t')) :
    (∀ b ∈ bs, b.index ≠ index) ∧ result = .ok false ∧ t' = t ∨ (∃ b ∈ bs, b.index = index) ∧
      ((∃ n, result = .error (.system n) ∧ t' = t) ∨ ∃ t₁,
        t.writeFile cwd (draftPath dataDir) (Utf8.encode (toText (bs.filter (·.index ≠ index)))) = .ok t₁ ∧
          ((∃ n, result = .error (.system n) ∧ t' = t₁) ∨
            result = .ok true ∧ t₁.rename cwd (draftPath dataDir) (path dataDir) = .ok t')) := by
  unfold Bookmarks.remove at hremove
  rw [hload] at hremove
  dsimp only at hremove
  split at hremove
  · rename_i hall
    cases hremove
    rw [List.length_filter_eq_length_iff] at hall
    exact Or.inl ⟨by simpa using hall, rfl, rfl⟩
  rename_i hsome
  rw [List.length_filter_eq_length_iff] at hsome
  refine Or.inr ⟨by simpa using hsome, ?_⟩
  split at hremove
  · rename_i n _
    cases hremove
    exact Or.inl ⟨n, rfl, rfl⟩
  rename_i t₁ hwrite
  refine Or.inr ⟨t₁, hwrite, ?_⟩
  split at hremove
  · rename_i n _
    cases hremove
    exact Or.inl ⟨n, rfl, rfl⟩
  · rename_i hrename
    cases hremove
    exact Or.inr ⟨rfl, hrename⟩

/-- A root directory with files in it. -/
def treeOf (files : List (String × String)) : FileTree where
  nodes := ⟨.directory 0 ((files.map Prod.fst).zipIdx 1) ::
    files.map fun file => .file (Utf8.encode file.2.toList) FileTree.newFileMode⟩

end Bookmarks

end LineShell
