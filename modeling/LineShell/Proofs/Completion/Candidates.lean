import LineShell.Completion
import LineShell.Proofs.Text.Order
import Mathlib.Data.List.Infix
import Mathlib.Data.List.TakeWhile

/-!
# What a word could become

Every candidate begins with the word (`prefix_of_mem_candidates`), and so does what the word is
extended to (`prefix_extend`). If all candidates go on with the same character, the word with that
character behind it has the same candidates (`candidates_append`).
-/

namespace LineShell

namespace Text

theorem beginsWith_iff {stem : List Char} {text : String} : beginsWith stem text = true ↔ stem <+: text.toList := by
  unfold beginsWith
  exact List.isPrefixOf_iff_prefix

end Text

namespace Completion

variable {listing : Listing} {commands : String → List String} {before word : List Char}

/-! ## What names agree in -/

theorem agreement_left (a b : List Char) : agreement a b <+: a := by
  induction a generalizing b with
  | nil => simp [agreement]
  | cons x a ih =>
    cases b with
    | nil => simp [agreement]
    | cons y b =>
      simp only [agreement]
      split
      · exact List.cons_prefix_cons.2 ⟨rfl, ih b⟩
      · exact List.nil_prefix

theorem agreement_right (a b : List Char) : agreement a b <+: b := by
  induction a generalizing b with
  | nil => simp [agreement]
  | cons x a ih =>
    cases b with
    | nil => simp [agreement]
    | cons y b =>
      simp only [agreement]
      split
      · rename_i hxy
        exact List.cons_prefix_cons.2 ⟨hxy, ih b⟩
      · exact List.nil_prefix

theorem prefix_agreement {stem a b : List Char} (ha : stem <+: a) (hb : stem <+: b) : stem <+: agreement a b := by
  induction stem generalizing a b with
  | nil => exact List.nil_prefix
  | cons x stem ih =>
    obtain ⟨a, rfl⟩ := ha
    obtain ⟨b, rfl⟩ := hb
    simp only [List.cons_append, agreement, if_true]
    exact List.cons_prefix_cons.2 ⟨rfl, ih ⟨a, rfl⟩ ⟨b, rfl⟩⟩

theorem foldl_agreement (names : List String) (start : List Char) :
    (names.foldl (fun stem name => agreement stem name.toList) start <+: start) ∧
      ∀ name ∈ names, names.foldl (fun stem name => agreement stem name.toList) start <+: name.toList := by
  induction names generalizing start with
  | nil => simp
  | cons name names ih =>
    obtain ⟨hstart, hall⟩ := ih (agreement start name.toList)
    exact ⟨hstart.trans (agreement_left _ _),
      List.forall_mem_cons.2 ⟨hstart.trans (agreement_right _ _), hall⟩⟩

theorem commonStart_begins {names : List String} {name : String} (h : name ∈ names) :
    commonStart names <+: name.toList := by
  cases names with
  | nil => cases h
  | cons first names =>
    obtain ⟨hfirst, hall⟩ := foldl_agreement names first.toList
    rcases List.mem_cons.1 h with rfl | h
    · exact hfirst
    · exact hall name h

theorem prefix_commonStart {names : List String} {stem : List Char} (hne : names ≠ [])
    (h : ∀ name ∈ names, stem <+: name.toList) : stem <+: commonStart names := by
  cases names with
  | nil => exact absurd rfl hne
  | cons first names =>
    obtain ⟨hfirst, hall⟩ := List.forall_mem_cons.1 h
    simp only [commonStart]
    clear h hne
    generalize first.toList = start at hfirst
    induction names generalizing start with
    | nil => exact hfirst
    | cons name names ih =>
      obtain ⟨hname, hall⟩ := List.forall_mem_cons.1 hall
      exact ih hall _ (prefix_agreement hfirst hname)

/-! ## What a word is extended to -/

theorem prefix_extend {names : List String} (h : ∀ name ∈ names, word <+: name.toList) :
    word <+: extend word names := by
  match names with
  | [] => exact List.prefix_rfl
  | [c] =>
    have hc := h c List.mem_cons_self
    simp only [extend]
    split
    · exact hc
    · exact hc.trans (List.prefix_append _ _)
  | a :: b :: names => exact prefix_commonStart (by simp) h

/-- If the word is extended by a character that is no blank, all candidates go on with it. -/
theorem prefix_of_extend {names : List String} {x : Char} (hx : x ≠ ' ')
    (hall : ∀ name ∈ names, word <+: name.toList) (h : word ++ [x] <+: extend word names) :
    names ≠ [] ∧ ∀ name ∈ names, word ++ [x] <+: name.toList := by
  match names with
  | [] =>
    have := h.length_le
    simp only [extend, List.length_append, List.length_singleton] at this
    omega
  | [c] =>
    refine ⟨by simp, fun name hname => ?_⟩
    rw [List.mem_singleton] at hname
    subst hname
    simp only [extend] at h
    split at h
    · exact h
    · -- the blank behind the candidate is another character
      obtain ⟨rest, hrest⟩ := hall name List.mem_cons_self
      rw [← hrest, List.append_assoc, List.prefix_append_right_inj] at h
      rw [← hrest, List.prefix_append_right_inj]
      cases rest with
      | nil => simp [hx] at h
      | cons y rest => simpa using h
  | a :: b :: names =>
    exact ⟨by simp, fun name hname => h.trans (commonStart_begins hname)⟩

/-- A word that has candidates is forgotten. -/
theorem extend_congr {names : List String} (hne : names ≠ []) (word word' : List Char) :
    extend word names = extend word' names := by
  match names with
  | [] => exact absurd rfl hne
  | [_] => rfl
  | _ :: _ :: _ => rfl

/-! ## The end of a text -/

/-- What a text ends in, as far as `p` holds, and what is in front of it. -/
theorem take_append_run (p : Char → Bool) (text : List Char) :
    text.take (text.length - (text.reverse.takeWhile p).reverse.length) ++ (text.reverse.takeWhile p).reverse =
      text := by
  have hsplit : text = (text.reverse.dropWhile p).reverse ++ (text.reverse.takeWhile p).reverse := by
    rw [← List.reverse_append, List.takeWhile_append_dropWhile, List.reverse_reverse]
  have hlength := congrArg List.length hsplit
  rw [List.length_append] at hlength
  conv_rhs => rw [hsplit]
  rw [hlength, Nat.add_sub_cancel]
  conv_lhs => rw [hsplit]
  simp

theorem run_append {p : Char → Bool} {x : Char} (text : List Char) (hx : p x = true) :
    ((text ++ [x]).reverse.takeWhile p).reverse = (text.reverse.takeWhile p).reverse ++ [x] := by
  simp [hx]

theorem take_run_append {p : Char → Bool} {x : Char} (text : List Char) (hx : p x = true) :
    (text ++ [x]).take ((text ++ [x]).length - ((text ++ [x]).reverse.takeWhile p).reverse.length) =
      text.take (text.length - (text.reverse.takeWhile p).reverse.length) := by
  rw [run_append text hx]
  simp only [List.length_append, List.length_singleton, Nat.add_sub_add_right]
  exact List.take_append_of_le_length (Nat.sub_le _ _)

theorem splitLast_eq (path : List Char) : (Path.splitLast path).1 ++ (Path.splitLast path).2 = path :=
  take_append_run (· ≠ '/') path

theorem splitLast_append {x : Char} (path : List Char) (hx : x ≠ '/') :
    Path.splitLast (path ++ [x]) = ((Path.splitLast path).1, (Path.splitLast path).2 ++ [x]) := by
  have hx' : decide (x ≠ '/') = true := by simpa using hx
  exact Prod.ext (take_run_append path hx') (run_append path hx')

/-! ## Candidates -/

/-- Commands are listed by the beginning of their names. -/
structure Lists (commands : String → List String) : Prop where
  begins : ∀ stem, ∀ name ∈ commands stem, stem.toList <+: name.toList
  /-- If all names go on with the same character, the longer beginning lists them too. -/
  narrow : ∀ (stem : List Char) (x : Char),
    (∀ name ∈ commands (String.ofList stem), stem ++ [x] <+: name.toList) →
    commands (String.ofList (stem ++ [x])) = commands (String.ofList stem)

theorem mem_executables {t : FileTree} {cwd : NodeId} {stem : List Char} {directory name : String}
    (h : name ∈ Search.executables t cwd stem directory) : stem <+: name.toList := by
  unfold Search.executables at h
  split at h
  · cases h
  · split at h
    · cases h
    · rw [List.mem_filter, Bool.and_eq_true, Text.beginsWith_iff] at h
      exact h.2.1

theorem executables_append {t : FileTree} {cwd : NodeId} {stem : List Char} {directory : String} {x : Char}
    (h : ∀ name ∈ Search.executables t cwd stem directory, stem ++ [x] <+: name.toList) :
    Search.executables t cwd (stem ++ [x]) directory = Search.executables t cwd stem directory := by
  unfold Search.executables at h ⊢
  split
  · rfl
  · split
    · rfl
    · rename_i hnul _ i hlocate
      rw [if_neg hnul, hlocate] at h
      refine List.filter_congr fun name hname => ?_
      by_cases hlong : Text.beginsWith (stem ++ [x]) name = true
      · rw [hlong, Text.beginsWith_iff.2 ((List.prefix_append _ _).trans (Text.beginsWith_iff.1 hlong))]
      · rw [Bool.eq_iff_iff]
        refine ⟨fun hkept => absurd (Bool.and_eq_true_iff.1 hkept).1 hlong, fun hkept => ?_⟩
        exact absurd (Text.beginsWith_iff.2 (h name (List.mem_filter.2 ⟨hname, hkept⟩))) hlong

/-- The search path lists commands by the beginning of their names. -/
theorem lists_named (t : FileTree) (cwd : NodeId) (searchPath : Option String) :
    Lists (Search.named t cwd searchPath) where
  begins stem name h := by
    cases searchPath with
    | none => cases h
    | some path =>
      rw [Search.named, Search.namedIn, Text.mem_sortedUnique, List.mem_flatMap] at h
      obtain ⟨directory, -, hname⟩ := h
      exact mem_executables hname
  narrow stem x h := by
    cases searchPath with
    | none => rfl
    | some path =>
      simp only [Search.named, Search.namedIn, Text.mem_sortedUnique, String.toList_ofList] at h ⊢
      congr 1
      refine List.flatMap_congr fun directory hdirectory => executables_append fun name hname => ?_
      exact h name (List.mem_flatMap.2 ⟨directory, hdirectory, hname⟩)

theorem prefix_of_mem_files {name : String} (h : name ∈ files listing word) : word <+: name.toList := by
  simp only [files, List.mem_filterMap] at h
  obtain ⟨⟨entry, isDirectory⟩, -, hname⟩ := h
  split at hname
  · rename_i hbegins
    cases hname
    rw [Bool.and_eq_true, Text.beginsWith_iff] at hbegins
    have := (List.prefix_append_right_inj (Path.splitLast word).1).2 hbegins.1
    rw [splitLast_eq] at this
    simpa using this.trans (List.prefix_append _ _)
  · cases hname

/-- If all files go on with the same character, the word with that character behind it stands for
the same files. -/
theorem files_append {x : Char} (hslash : x ≠ '/') (hdot : x ≠ '.')
    (h : ∀ name ∈ files listing word, word ++ [x] <+: name.toList) :
    files listing (word ++ [x]) = files listing word := by
  simp only [files, splitLast_append word hslash]
  refine List.filterMap_congr fun (entry, isDirectory) hentry => ?_
  have hhidden : isHidden ((Path.splitLast word).2 ++ [x]) = isHidden (Path.splitLast word).2 := by
    cases (Path.splitLast word).2 <;> simp [isHidden, hdot]
  dsimp only
  rw [hhidden]
  by_cases hlong : Text.beginsWith ((Path.splitLast word).2 ++ [x]) entry = true
  · have hshort : Text.beginsWith (Path.splitLast word).2 entry = true :=
      Text.beginsWith_iff.2 ((List.prefix_append _ _).trans (Text.beginsWith_iff.1 hlong))
    rw [hlong, hshort]
  · rw [if_neg (by simp [hlong]), if_neg]
    intro hkept
    -- the entry would be a file that goes on with another character
    have hmem : String.ofList (Path.splitLast word).1 ++ entry ++ (if isDirectory then "/" else "") ∈
        files listing word := by
      simp only [files, List.mem_filterMap]
      exact ⟨(entry, isDirectory), hentry, by rw [if_pos hkept]⟩
    have hgoes := h _ hmem
    rw [Bool.and_eq_true, Text.beginsWith_iff] at hkept
    obtain ⟨rest, hrest⟩ := hkept.1
    simp only [String.toList_append, String.toList_ofList, ← hrest] at hgoes
    conv at hgoes => lhs; rw [← splitLast_eq word]
    simp only [List.append_assoc, List.prefix_append_right_inj] at hgoes
    cases rest with
    | nil => cases isDirectory <;> simp [hslash] at hgoes
    | cons y rest =>
      obtain rfl : x = y := by simpa using hgoes
      exact hlong (Text.beginsWith_iff.2 ⟨rest, by rw [← hrest]; simp⟩)

theorem isCommandPosition_append {x : Char} (hslash : x ≠ '/') :
    isCommandPosition before (word ++ [x]) = isCommandPosition before word := by
  simp [isCommandPosition, hslash.symm]

theorem begins_of_mem_candidates (hcommands : ∀ name ∈ commands (String.ofList word), word <+: name.toList) {name : String}
    (h : name ∈ candidatesOf listing commands before word) : word <+: name.toList := by
  rw [candidatesOf, Text.mem_sortedUnique] at h
  split at h
  · rcases List.mem_append.1 h with h | h
    · exact Text.beginsWith_iff.1 (List.mem_filter.1 h).2
    · exact hcommands name h
  · exact prefix_of_mem_files h

theorem prefix_of_mem_candidates (hlists : Lists commands) {name : String}
    (h : name ∈ candidatesOf listing commands before word) : word <+: name.toList :=
  begins_of_mem_candidates (fun name hname => by simpa using hlists.begins _ name hname) h

/-- If all candidates go on with the same character, the word with that character behind it has the
same ones. -/
theorem candidates_append (hlists : Lists commands) {x : Char} (hslash : x ≠ '/') (hdot : x ≠ '.')
    (h : ∀ name ∈ candidatesOf listing commands before word, word ++ [x] <+: name.toList) :
    candidatesOf listing commands before (word ++ [x]) = candidatesOf listing commands before word := by
  simp only [candidatesOf, Text.mem_sortedUnique] at h
  simp only [candidatesOf, isCommandPosition_append hslash]
  split at h
  · rename_i hcommand
    rw [if_pos hcommand, if_pos hcommand, hlists.narrow word x fun name hname => h name (List.mem_append_right _ hname)]
    congr 2
    refine List.filter_congr fun name hname => ?_
    rw [Bool.eq_iff_iff, Text.beginsWith_iff, Text.beginsWith_iff]
    refine ⟨fun hlong => (List.prefix_append _ _).trans hlong, fun hshort => ?_⟩
    exact h name (List.mem_append_left _ (List.mem_filter.2 ⟨hname, Text.beginsWith_iff.2 hshort⟩))
  · rename_i hfile
    rw [if_neg hfile, if_neg hfile, files_append hslash hdot h]

/-! ## The completed line -/

/-- The completed line, as characters. -/
def completed (listing : Listing) (commands : String → List String) (line : List Char) : List Char :=
  (complete listing commands (String.ofList line)).line.toList

theorem completed_eq (line : List Char) :
    completed listing commands line = (cutLastWord line).1 ++
      extend (cutLastWord line).2 (candidatesOf listing commands (cutLastWord line).1 (cutLastWord line).2) := by
  simp [completed, complete]

theorem cutLastWord_mark (text : List Char) :
    cutLastWord (text ++ ['?']) =
      (text.take (text.length - (text.reverse.takeWhile (!isBlank ·)).reverse.length),
        (text.reverse.takeWhile (!isBlank ·)).reverse) := by
  simp [cutLastWord]

theorem cutLastWord_plain {line : List Char} (h : line.getLast? ≠ some '?') :
    cutLastWord line =
      (line.take (line.length - (line.reverse.takeWhile (!isBlank ·)).reverse.length),
        (line.reverse.takeWhile (!isBlank ·)).reverse) := by
  simp only [cutLastWord, if_neg h]

/-- A word that goes on with the mark is cut off at the same place. -/
theorem cutLastWord_mark_mark (text : List Char) :
    cutLastWord (text ++ ['?'] ++ ['?']) =
      ((cutLastWord (text ++ ['?'])).1, (cutLastWord (text ++ ['?'])).2 ++ ['?']) := by
  have hmark : (!isBlank '?') = true := by decide
  rw [cutLastWord_mark, cutLastWord_mark]
  exact Prod.ext (take_run_append text hmark) (run_append text hmark)

/-- Behind a blank there is no word, whether it is marked or not. -/
theorem cutLastWord_blank (text : List Char) {b : Char} (hb : isBlank b = true) :
    cutLastWord (text ++ [b]) = (text ++ [b], []) ∧ cutLastWord (text ++ [b] ++ ['?']) = (text ++ [b], []) := by
  have hplain : (text ++ [b]).getLast? ≠ some '?' := by
    rw [List.getLast?_concat]
    rintro ⟨⟩
    exact absurd hb (by decide)
  rw [cutLastWord_plain hplain, cutLastWord_mark]
  simp [hb]

/-- Completing takes nothing away from a line but the mark. -/
theorem prefix_completed_mark (hlists : Lists commands) (text : List Char) :
    text <+: completed listing commands (text ++ ['?']) := by
  rw [completed_eq, cutLastWord_mark]
  conv => lhs; rw [← take_append_run (!isBlank ·) text]
  rw [List.prefix_append_right_inj]
  exact prefix_extend fun name => prefix_of_mem_candidates hlists

theorem prefix_completed_plain (hlists : Lists commands) {line : List Char} (h : line.getLast? ≠ some '?') :
    line <+: completed listing commands line := by
  rw [completed_eq, cutLastWord_plain h]
  conv => lhs; rw [← take_append_run (!isBlank ·) line]
  rw [List.prefix_append_right_inj]
  exact prefix_extend fun name => prefix_of_mem_candidates hlists

/-- A marked line that is only added to is completed in the same way with another mark behind it. -/
theorem completed_mark_mark (hlists : Lists commands) {text : List Char}
    (h : text ++ ['?'] <+: completed listing commands (text ++ ['?'])) :
    completed listing commands (text ++ ['?'] ++ ['?']) = completed listing commands (text ++ ['?']) := by
  rw [completed_eq, cutLastWord_mark_mark, completed_eq]
  rw [completed_eq] at h
  have htext : (cutLastWord (text ++ ['?'])).1 ++ (cutLastWord (text ++ ['?'])).2 = text := by
    rw [cutLastWord_mark]
    exact take_append_run (!isBlank ·) text
  generalize cutLastWord (text ++ ['?']) = cut at h htext ⊢
  obtain ⟨before, word⟩ := cut
  simp only at h htext ⊢
  rw [← htext, List.append_assoc, List.prefix_append_right_inj] at h
  -- all candidates go on with the mark, so it takes none of them away
  obtain ⟨hne, hgoes⟩ := prefix_of_extend (by decide) (fun _ => prefix_of_mem_candidates hlists) h
  rw [candidates_append hlists (by decide) (by decide) hgoes, extend_congr hne]

theorem completed_blank_mark {text : List Char} {b : Char} (hb : isBlank b = true) :
    completed listing commands (text ++ [b] ++ ['?']) = completed listing commands (text ++ [b]) := by
  obtain ⟨hplain, hmark⟩ := cutLastWord_blank text hb
  rw [completed_eq, completed_eq, hplain, hmark]

end Completion

end LineShell
