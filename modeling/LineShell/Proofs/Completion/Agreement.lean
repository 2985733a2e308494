import LineShell.Proofs.Completion.LastWord
import LineShell.Proofs.Text.Boundaries

/-!
# What several candidates agree in

How far texts agree can be counted in bytes, one text after the other (`commonBytes`). The count ends between two
characters of every text, and in front of it stands their common start (`take_commonBytes`). Where a word has several
candidates it becomes the longest text that all of them begin with (`completed_as_agreed`).
-/

namespace LineShell.Completion

variable {listing : Listing} {commands : String → List String} {first : String} {names : List String}
  {stem text other : List Char} {line : String}

/-! ## The longest common start -/

theorem prefix_commonStart_iff (hne : names ≠ []) : stem <+: commonStart names ↔ ∀ name ∈ names, stem <+: name.toList :=
  ⟨fun h _ hname => h.trans (commonStart_begins hname), prefix_commonStart hne⟩

/-! ## Counting bytes -/

/-- The bytes in which all texts agree with the first one. -/
def commonBytes (first : String) (names : List String) : Nat :=
  names.foldl (fun n name => min (Utf8.encode (agreement first.toList name.toList)).length n)
    (Utf8.ofString first).length

/-- What is left of a text that agrees with another one is the shorter one of two beginnings. -/
theorem length_encode_agreement (h : stem <+: text) (other : List Char) : (Utf8.encode (agreement stem other)).length =
    min (Utf8.encode (agreement text other)).length (Utf8.encode stem).length := by
  have hpart : agreement stem other <+: agreement text other :=
    prefix_agreement ((agreement_left stem other).trans h) (agreement_right stem other)
  rcases List.prefix_or_prefix_of_prefix (agreement_left text other) h with hshort | hlong
  · have hsame : agreement stem other = agreement text other :=
      hpart.eq_of_length_le (prefix_agreement hshort (agreement_right text other)).length_le
    rw [hsame, Nat.min_eq_left (Utf8.encode_mono hshort).length_le]
  · have hsame : agreement stem other = stem :=
      (agreement_left stem other).eq_of_length_le
        (prefix_agreement List.prefix_rfl (hlong.trans (agreement_right text other))).length_le
    rw [hsame, Nat.min_eq_right (Utf8.encode_mono hlong).length_le]

theorem length_encode_commonStart (first : String) (names : List String) :
    (Utf8.encode (commonStart (first :: names))).length = commonBytes first names := by
  -- along the names, with what the first ones agree in
  have hfold : ∀ stem, stem <+: first.toList →
      (Utf8.encode (names.foldl (fun stem name => agreement stem name.toList) stem)).length =
        names.foldl (fun n name => min (Utf8.encode (agreement first.toList name.toList)).length n)
          (Utf8.encode stem).length := by
    induction names with
    | nil => exact fun stem _ => rfl
    | cons name names ih =>
      intro stem hstem
      rw [List.foldl_cons, List.foldl_cons, ih _ ((agreement_left _ _).trans hstem), length_encode_agreement hstem]
  exact hfold first.toList List.prefix_rfl

/-- The bytes that are counted are those of whole characters, the common start. -/
theorem take_commonBytes (first : String) (names : List String) :
    (Utf8.ofString first).take (commonBytes first names) = Utf8.encode (commonStart (first :: names)) := by
  have hbegins : Utf8.encode (commonStart (first :: names)) <+: Utf8.ofString first :=
    Utf8.encode_mono (commonStart_begins List.mem_cons_self)
  rw [← length_encode_commonStart]
  exact (List.prefix_iff_eq_take.1 hbegins).symm

/-! ## The completed line -/

/-- **Several candidates.** The last word of the line becomes the longest text that all candidates begin with: they
begin with it, it begins with the word, and among the texts that have one character more there is none that all of them
begin with. Its bytes are those that are counted in the candidates, and the count ends between two characters of each. -/
theorem completed_as_agreed (hcommands : ∀ stem, ∀ name ∈ commands stem, stem.toList <+: name.toList)
    (hmany : 2 ≤ (complete listing commands line).candidates.length) :
    ∃ before word start, EndsIn line.toList before word ∧ (∀ c ∈ word, isBlank c = false) ∧
      (∀ c ∈ before.getLast?, isBlank c = true) ∧
      (complete listing commands line).line = String.ofList (before ++ start) ∧ word <+: start ∧
      (∀ name ∈ (complete listing commands line).candidates, start <+: name.toList) ∧
      (∀ longer : List Char, longer.length = start.length + 1 →
        ∃ name ∈ (complete listing commands line).candidates, ¬ longer <+: name.toList) ∧
      ∃ first names, (complete listing commands line).candidates = first :: names ∧
        (Utf8.ofString first).take (commonBytes first names) = Utf8.encode start ∧
        ∀ name ∈ (complete listing commands line).candidates, Utf8.IsBoundary name.toList (commonBytes first names) := by
  obtain ⟨before, word, hline, hword, hbefore⟩ := exists_endsIn line.toList
  have hcut := cutLastWord_run hline hword hbefore
  have hbegins : ∀ name ∈ candidatesOf listing commands before word, word <+: name.toList :=
    fun name => begins_of_mem_candidates fun name hname => by simpa using hcommands _ name hname
  simp only [complete, hcut] at hmany ⊢
  generalize candidatesOf listing commands before word = names at hmany hbegins ⊢
  obtain - | ⟨first, - | ⟨second, names⟩⟩ := names
  · cases hmany
  · simp at hmany
  have hne : first :: second :: names ≠ [] := List.cons_ne_nil _ _
  refine ⟨before, word, commonStart (first :: second :: names), hline, hword, hbefore, rfl,
    (prefix_commonStart_iff hne).2 hbegins, fun name => commonStart_begins, fun longer hlength => ?_,
    first, second :: names, rfl, take_commonBytes _ _, fun name hname => ?_⟩
  · by_contra hall
    simp only [not_exists, not_and, not_not] at hall
    have hle := ((prefix_commonStart_iff hne).2 hall).length_le
    omega
  · exact ⟨_, commonStart_begins hname, length_encode_commonStart _ _⟩

/-- Names of which one begins another, and of which two have characters with the same first byte. -/
def sampleCommands (stem : String) : List String := ["dérive", "dé", "dèche"].filter (Text.beginsWith stem.toList)

theorem completed_as_agreed_accents :
    (∀ stem, ∀ name ∈ sampleCommands stem, stem.toList <+: name.toList) ∧
      (complete (fun _ => []) sampleCommands "ls | d?").candidates = ["dèche", "dé", "dérive"] ∧
      ∃ before word start, EndsIn "ls | d?".toList before word ∧ word <+: start ∧
        (complete (fun _ => []) sampleCommands "ls | d?").line = String.ofList (before ++ start) ∧
        (Utf8.ofString "dèche").take 1 = Utf8.encode start := by
  have hcommands : ∀ stem, ∀ name ∈ sampleCommands stem, stem.toList <+: name.toList :=
    fun stem name hname => Text.beginsWith_iff.1 (List.mem_filter.1 hname).2
  have hcandidates : (complete (fun _ => []) sampleCommands "ls | d?").candidates = ["dèche", "dé", "dérive"] := by
    have hlisted : Builtin.names.filter (Text.beginsWith ['d']) ++ sampleCommands (String.ofList ['d']) =
        ["dérive", "dé", "dèche"] := by decide +kernel
    have hcut : cutLastWord "ls | d?".toList = ("ls | ".toList, ['d']) := by decide
    have hposition : isCommandPosition "ls | ".toList ['d'] = true := by decide
    simp only [complete, hcut, candidatesOf, hposition, if_true, hlisted]
    exact Text.sortedUnique_eq_iff.2 ⟨by decide +kernel, fun name => by simp [or_comm, or_left_comm]⟩
  obtain ⟨before, word, start, hline, -, -, hcompleted, hbegins, -, -, first, names, hnames, htake, -⟩ :=
    @completed_as_agreed (fun _ => []) sampleCommands "ls | d?" hcommands (by rw [hcandidates]; decide)
  rw [hcandidates] at hnames
  cases hnames
  have hcount : commonBytes "dèche" ["dé", "dérive"] = 1 := by decide +kernel
  rw [hcount] at htake
  exact ⟨hcommands, hcandidates, before, word, start, hline, hbegins, hcompleted, htake⟩

end LineShell.Completion
