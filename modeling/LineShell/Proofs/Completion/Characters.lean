import LineShell.Proofs.Completion.Candidates

/-!
# Characters of a completed line

Completing makes up no characters but the blank behind a name and the slash behind a directory. Every other
one is a character of the line, or of the name of a builtin or a file (`mem_of_mem_completed`).
-/

namespace LineShell

variable {t : FileTree} {cwd : NodeId} {searchPath : Option String} {listing : Completion.Listing}
  {commands : String → List String} {before word : List Char} {names : List String} {name line : String} {c : Char}

/-- The character is one of the name of a file. -/
def FileTree.Mentions (t : FileTree) (c : Char) : Prop := ∃ i, ∃ entry ∈ t.entries i, c ∈ entry.1.toList

/-! ## Names that are found -/

theorem FileTree.mentions_of_listing {directory : String} {entry : String × Bool} (h : entry ∈ t.listing cwd directory)
    (hc : c ∈ entry.1.toList) : t.Mentions c := by
  unfold FileTree.listing at h
  split at h
  · cases h
  · split at h
    · cases h
    · next i _ =>
      obtain ⟨found, hfound, rfl⟩ := List.mem_map.1 h
      exact ⟨i, found, hfound, hc⟩

theorem FileTree.mentions_of_executables {stem : List Char} {directory : String}
    (h : name ∈ Search.executables t cwd stem directory) (hc : c ∈ name.toList) : t.Mentions c := by
  unfold Search.executables at h
  split at h
  · cases h
  · split at h
    · cases h
    · next i _ =>
      obtain ⟨found, hfound, rfl⟩ := List.mem_map.1 (List.mem_of_mem_filter h)
      exact ⟨i, found, hfound, hc⟩

theorem FileTree.mentions_of_named {stem : String} (h : name ∈ Search.named t cwd searchPath stem)
    (hc : c ∈ name.toList) : t.Mentions c := by
  cases searchPath with
  | none => cases h
  | some path =>
    rw [Search.named, Search.namedIn, Text.mem_sortedUnique, List.mem_flatMap] at h
    obtain ⟨directory, -, hname⟩ := h
    exact mentions_of_executables hname hc

namespace Completion

/-! ## What is put in -/

/-- What a word is extended to has only characters of the word and of its candidates, and a blank perhaps. -/
theorem mem_of_mem_extend (h : c ∈ extend word names) : c ∈ word ∨ c = ' ' ∨ ∃ name ∈ names, c ∈ name.toList := by
  match names with
  | [] => exact .inl h
  | [candidate] =>
    simp only [extend] at h
    split at h
    · exact .inr (.inr ⟨candidate, List.mem_cons_self, h⟩)
    · rcases List.mem_append.1 h with h | h
      · exact .inr (.inr ⟨candidate, List.mem_cons_self, h⟩)
      · exact .inr (.inl (List.mem_singleton.1 h))
  | first :: second :: names =>
    have hfirst : first ∈ first :: second :: names := List.mem_cons_self
    exact .inr (.inr ⟨first, hfirst, (commonStart_begins hfirst).subset h⟩)

theorem mem_of_mem_files (h : name ∈ files listing word) (hc : c ∈ name.toList) :
    c ∈ word ∨ c = '/' ∨ ∃ directory, ∃ entry ∈ listing directory, c ∈ entry.1.toList := by
  simp only [files, List.mem_filterMap] at h
  obtain ⟨entry, hentry, hname⟩ := h
  split at hname
  · cases hname
    rw [String.toList_append, String.toList_append, String.toList_ofList, List.mem_append, List.mem_append] at hc
    rcases hc with (hc | hc) | hc
    · refine .inl ?_
      rw [← splitLast_eq word]
      exact List.mem_append_left _ hc
    · exact .inr (.inr ⟨_, entry, hentry, hc⟩)
    · split at hc
      · exact .inr (.inl (by simpa using hc))
      · cases hc
  · cases hname

/-- Where a character comes from that is in a candidate. -/
theorem mem_of_mem_candidates (h : name ∈ candidatesOf (t.listing cwd) (Search.named t cwd searchPath) before word)
    (hc : c ∈ name.toList) : c ∈ word ∨ c = '/' ∨ (∃ b ∈ Builtin.names, c ∈ b.toList) ∨ t.Mentions c := by
  rw [candidatesOf, Text.mem_sortedUnique] at h
  split at h
  · rcases List.mem_append.1 h with h | h
    · exact .inr (.inr (.inl ⟨name, List.mem_of_mem_filter h, hc⟩))
    · exact .inr (.inr (.inr (FileTree.mentions_of_named h hc)))
  · rcases mem_of_mem_files h hc with hc | hc | ⟨directory, entry, hentry, hc⟩
    · exact .inl hc
    · exact .inr (.inl hc)
    · exact .inr (.inr (.inr (FileTree.mentions_of_listing hentry hc)))

theorem cutLastWord_subset (text : List Char) : (cutLastWord text).1 ⊆ text ∧ (cutLastWord text).2 ⊆ text := by
  have hline : (if text.getLast? = some '?' then text.dropLast else text) ⊆ text := by
    split
    · exact List.dropLast_subset _
    · exact List.Subset.refl _
  refine ⟨fun x hx => hline (List.mem_of_mem_take hx), fun x hx => hline ?_⟩
  exact List.mem_reverse.1 ((List.takeWhile_prefix _).subset (List.mem_reverse.1 hx))

/-- **Where the characters of a completed line come from.** -/
theorem mem_of_mem_completed
    (h : c ∈ (complete (t.listing cwd) (Search.named t cwd searchPath) line).line.toList) :
    c ∈ line.toList ∨ c = ' ' ∨ c = '/' ∨ (∃ b ∈ Builtin.names, c ∈ b.toList) ∨ t.Mentions c := by
  obtain ⟨hbefore, hword⟩ := cutLastWord_subset line.toList
  simp only [complete, String.toList_ofList, List.mem_append] at h
  rcases h with h | h
  · exact .inl (hbefore h)
  · rcases mem_of_mem_extend h with h | h | ⟨name, hname, hc⟩
    · exact .inl (hword h)
    · exact .inr (.inl h)
    · rcases mem_of_mem_candidates hname hc with hc | hc | hc
      · exact .inl (hword hc)
      · exact .inr (.inr (.inl hc))
      · exact .inr (.inr (.inr hc))

end Completion

end LineShell
