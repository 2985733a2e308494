import LineShell.Proofs.Store.Bookmarks

/-!
# Saving behind a line that is not ended

A record is added to whatever the store holds. If the last line of the store is not ended, the record is read as
the rest of that line, and only zeros there leave both what they were: `load_save_iff` says when the bookmarks that
are loaded after saving are those loaded before and the new one.
-/

namespace LineShell

namespace Bookmark

variable {b : Bookmark} {line : List Char}

theorem ofLine?_eq_none (h : ' ' ∉ line) : ofLine? line = none := by
  rw [ofLine?, Text.splitAt?_of_not_mem h]
  rfl

theorem blank_mem_unsigned (h : ' ' ∈ line) : ' ' ∈ Number.unsigned line := by
  unfold Number.unsigned
  split
  · exact List.mem_of_ne_of_mem (by decide) h
  · exact h

/-- A record behind a line without an end adds a bookmark exactly when only zeros, and maybe a sign, are in front
of its index. -/
theorem ofLine?_behind_iff (hindex : b.index ≤ maxIndex) :
    (ofLine? (line ++ b.record)).toList = (ofLine? line).toList ++ [b] ↔ ∀ c ∈ Number.unsigned line, c = '0' := by
  by_cases hblank : ' ' ∈ line
  · -- the line has its own index, if any, and takes the record as part of its command
    obtain ⟨before, behind, rfl, hbefore⟩ := List.eq_append_cons_of_mem hblank
    rw [List.append_assoc, List.cons_append, ofLine?_blank hbefore, ofLine?_blank hbefore]
    refine iff_of_false (fun h => ?_) fun h => absurd (h ' ' (blank_mem_unsigned hblank)) (by decide)
    have hlength := congrArg List.length h
    cases hread : readIndex? before <;> simp [hread] at hlength
  · rw [ofLine?_append_record hblank, ofLine?_eq_none hblank, ← Number.read?_append_digits_iff hindex, readIndex?]
    cases Number.read? maxIndex (line ++ Number.digits b.index) with
    | none => simp
    | some index =>
      simp only [Option.map_some, Option.toList_some, Option.toList_none, List.nil_append, List.cons.injEq, and_true,
        Option.some.injEq]
      constructor
      · intro h
        exact congrArg Bookmark.index h
      · rintro rfl
        rfl

end Bookmark

namespace Bookmarks

variable {t t' : FileTree} {cwd : NodeId} {dataDir command : String} {x : Option (List Char)} {text : List Char}
  {b : Bookmark} {saved : Option Nat}

/-- When a record behind a text is one more bookmark. -/
theorem ofText_append_record_iff (hindex : b.index ≤ Bookmark.maxIndex) (hnewline : '\n' ∉ b.command.toList)
    (text : List Char) : ofText (text ++ (b.record ++ ['\n'])) = ofText text ++ [b] ↔
      ∀ c ∈ Number.unsigned (Text.openLine text), c = '0' := by
  obtain ⟨front, htext, hfront⟩ := Text.exists_complete text
  have hopen := Text.not_mem_openLine text
  generalize Text.openLine text = line at htext hopen ⊢
  subst htext
  have hline : '\n' ∉ line ++ b.record := by
    rw [List.mem_append, not_or]
    exact ⟨hopen, Bookmark.newline_not_mem_record hnewline⟩
  have hlast : (line ++ b.record).getLast? ≠ some '\r' := by
    rw [Bookmark.getLast?_record]
    decide
  rw [List.append_assoc, ← List.append_assoc line, ofText_append hfront, ofText_append hfront, ofText_line hline hlast,
    ofText_openLine hopen, List.append_assoc, List.append_cancel_left_eq]
  exact Bookmark.ofLine?_behind_iff hindex

/-- Saving a command that is stored changes nothing. A new command takes an index above all, and is loaded together
with what was loaded before exactly when the line that is not ended, if there is one, has nothing but zeros behind
a sign. -/
theorem load_save_iff (hholds : Store.Holds t cwd (path dataDir) x)
    (hindex : ∀ b ∈ ofText (x.getD []), b.index < Bookmark.maxIndex) (hnewline : '\n' ∉ command.toList)
    (hsave : save t cwd dataDir command = .ok (saved, t')) :
    load t cwd dataDir = .ok (ofText (x.getD [])) ∧
    match saved with
    | none => t' = t ∧ ∃ b ∈ ofText (x.getD []), b.command = command
    | some index =>
      (∀ b ∈ ofText (x.getD []), b.index < index ∧ b.command ≠ command) ∧ (ofText (x.getD []) = [] → index = 0) ∧
        (load t' cwd dataDir = .ok (ofText (x.getD []) ++ [⟨index, command⟩]) ↔
          ∀ c ∈ Number.unsigned (Text.openLine (x.getD [])), c = '0') := by
  have hspec := save_spec hholds hsave
  refine ⟨load_eq hholds, ?_⟩
  cases saved with
  | none => exact hspec
  | some index =>
    obtain ⟨rfl, hnew, -, hholds'⟩ := hspec
    have hbound : nextIndex (ofText (x.getD [])) ≤ Bookmark.maxIndex := nextIndex_le_iff.2 hindex
    refine ⟨fun b hb => ⟨lt_nextIndex hb, hnew b hb⟩, fun hnone => by rw [hnone]; rfl, ?_⟩
    rw [load_eq hholds', Except.ok.injEq]
    exact ofText_append_record_iff hbound hnewline _

def cutTree : FileTree := treeOf [("bookmarktxt", "0 \"a\"")]

def grownTree : FileTree := treeOf [("bookmarktxt", "0 \"a\"1 \"b\"\n")]

/-- Behind a store that was cut off at the end of its record, the next record becomes a part of that one. -/
theorem load_save_iff_cut :
    Store.Holds cutTree FileTree.root (path "/") (some "0 \"a\"".toList) ∧
    (∀ b ∈ ofText "0 \"a\"".toList, b.index < Bookmark.maxIndex) ∧ '\n' ∉ "b".toList ∧
    save cutTree FileTree.root "/" "b" = .ok (some 1, grownTree) ∧
    load cutTree FileTree.root "/" = .ok [⟨0, "a"⟩] ∧
    load grownTree FileTree.root "/" ≠ .ok [⟨0, "a"⟩, ⟨1, "b"⟩] ∧
    load grownTree FileTree.root "/" = .ok [⟨0, "a\"1 \"b"⟩] := by
  have hholds : Store.Holds cutTree FileTree.root (path "/") (some "0 \"a\"".toList) :=
    ⟨by decide +kernel, 1, FileTree.newFileMode, by decide +kernel, rfl⟩
  have hread : ofText "0 \"a\"".toList = [⟨0, "a"⟩] := by decide +kernel
  have hindex : ∀ b ∈ ofText "0 \"a\"".toList, b.index < Bookmark.maxIndex := by
    rw [hread]
    decide
  have hnewline : '\n' ∉ "b".toList := by decide
  have hsave : save cutTree FileTree.root "/" "b" = .ok (some 1, grownTree) := by
    decide +kernel
  obtain ⟨hload, -, -, hiff⟩ := load_save_iff hholds hindex hnewline hsave
  rw [Option.getD_some, hread] at hload hiff
  refine ⟨hholds, hindex, hnewline, hsave, hload, fun h => ?_, by decide +kernel⟩
  have hquote : '"' ∈ Number.unsigned (Text.openLine "0 \"a\"".toList) := by decide +kernel
  exact absurd (hiff.1 h _ hquote) (by decide)

end Bookmarks

end LineShell
