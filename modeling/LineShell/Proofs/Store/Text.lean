import LineShell.Store.Text
import LineShell.Proofs.Files.Apart

/-!
# What a store holds

A store holds a text, or there is no such file (`Holds`). Adding a record puts one more line behind what the store
holds, whatever that is (`Holds.addLine`).
-/

namespace LineShell

variable {t t' : FileTree} {cwd i : NodeId} {path : String} {x : Option (List Char)} {text text' record : List Char}
  {spot : FileTree.Spot}

namespace FileTree

/-- Where there is no file, a path that leads somewhere ends under a vacant name. -/
theorem node_of_readFile (h : t.readFile cwd path = .error .noEntry) (hspot : t.resolve cwd path = .ok spot) :
    spot.node = none := by
  by_contra hne
  obtain ⟨i, hi⟩ := Option.ne_none_iff_exists'.1 hne
  simp only [readFile, locate, hspot, hi, bind, Except.bind] at h
  split at h
  · rename_i hlocate
    split at hlocate
    · cases hlocate
      cases h
    · cases hlocate
  · unfold contentOf at h
    split at h <;> cases h

end FileTree

namespace Store

/-- What a store holds: a text, or nothing because there is no such file. -/
def Holds (t : FileTree) (cwd : NodeId) (path : String) : Option (List Char) → Prop
  | none => Path.hasNul path = false ∧ t.readFile cwd path = .error .noEntry
  | some text => Path.hasNul path = false ∧ ∃ i mode, t.locate cwd path = .ok i ∧
      t.node? i = some (.file (Utf8.encode text) mode)

theorem Holds.hasNul (h : Holds t cwd path x) : Path.hasNul path = false := by
  cases x with
  | none => exact h.1
  | some text => exact h.1

theorem Holds.readFile (h : Holds t cwd path (some text)) : t.readFile cwd path = .ok (Utf8.encode text) := by
  obtain ⟨-, i, mode, hlocate, hnode⟩ := h
  simp [FileTree.readFile, FileTree.contentOf, hlocate, hnode, bind, Except.bind]

theorem Holds.read? (h : Holds t cwd path x) : read? t cwd path = .ok x := by
  cases x with
  | none =>
    obtain ⟨hnul, hmissing⟩ := h
    simp [Store.read?, hnul, hmissing, IoError.isMissing]
  | some text => simp [Store.read?, h.hasNul, h.readFile, Utf8.decode?_encode]

theorem Holds.unique {y : Option (List Char)} (h : Holds t cwd path x) (h' : Holds t cwd path y) : x = y :=
  Except.ok.inj (h.read?.symm.trans h'.read?)

theorem Holds.exists_file (h : Holds t cwd path (some text)) : ∃ i, t.locate cwd path = .ok i ∧ t.IsFile i := by
  obtain ⟨-, i, mode, hlocate, hnode⟩ := h
  exact ⟨i, hlocate, _, mode, hnode⟩

/-- Where the path of a store leads that is there. -/
theorem Holds.exists_spot (h : Holds t cwd path (some text)) : ∃ spot i mode,
    t.resolve cwd path = .ok spot ∧ spot.node = some i ∧ spot.slash = false ∧
      t.node? i = some (.file (Utf8.encode text) mode) := by
  obtain ⟨-, i, mode, hlocate, hnode⟩ := h
  obtain ⟨spot, hspot, hi, hslash⟩ := FileTree.locate_iff_resolve.1 hlocate
  refine ⟨spot, i, mode, hspot, hi, ?_, hnode⟩
  by_contra hne
  have hdirectory := hslash (by simpa using hne)
  rw [FileTree.IsFile.not_isDirectory ⟨_, mode, hnode⟩] at hdirectory
  cases hdirectory

/-- A path to a store leads to a regular file or to a vacant name. -/
theorem Holds.plain (h : Holds t cwd path x) (hspot : t.resolve cwd path = .ok spot) : t.Plain spot.node := by
  cases x with
  | none =>
    rw [FileTree.node_of_readFile h.2 hspot]
    exact fun i hi => nomatch hi
  | some text =>
    obtain ⟨spot', i, mode, hspot', hi, -, hnode⟩ := h.exists_spot
    obtain rfl := Except.ok.inj (hspot.symm.trans hspot')
    rintro j hj
    obtain rfl := Option.some.inj (hi.symm.trans hj)
    exact ⟨_, mode, hnode⟩

theorem Holds.retains (h : Holds t cwd path x) : t.Retains cwd path :=
  fun _ hspot i hi => Or.inl (h.plain hspot i hi)

/-- A store is found under its path as the file that was written. -/
theorem Holds.of_writes (hnul : Path.hasNul path = false) (hwrites : t.Writes i (Utf8.encode text) t')
    (hspot : t'.resolve cwd path = .ok { spot with node := some i }) (hslash : spot.slash = false) :
    Holds t' cwd path (some text) := by
  obtain ⟨mode, hfile⟩ := hwrites.file
  exact ⟨hnul, i, mode, FileTree.locate_of_resolve hspot rfl hslash, hfile⟩

theorem addLine_error {e : IoError} (hnul : Path.hasNul path = false) (hadd : addLine t cwd path record = .error e) :
    ∃ n, e = .system n := by
  unfold Store.addLine at hadd
  rw [hnul, if_neg Bool.false_ne_true] at hadd
  cases happend : t.appendFile cwd path (Utf8.encode (record ++ ['\n'])) with
  | error n =>
    rw [happend] at hadd
    cases hadd
    exact ⟨n, rfl⟩
  | ok t₁ => simp [happend, Except.mapError] at hadd

/-- A record is added to what was opened under the path. -/
theorem exists_of_addLine (hadd : addLine t cwd path record = .ok t') :
    ∃ i t₁ content, t.openWrite cwd path false = .ok (i, t₁) ∧ t' = t₁.setContent i content := by
  unfold Store.addLine at hadd
  split at hadd
  · cases hadd
  cases happend : t.appendFile cwd path (Utf8.encode (record ++ ['\n'])) with
  | error e => simp [happend, Except.mapError] at hadd
  | ok t₂ =>
    rw [happend] at hadd
    cases hadd
    unfold FileTree.appendFile at happend
    obtain ⟨⟨i, t₁⟩, hopen, hcontent⟩ := exists_of_bind happend
    exact ⟨i, t₁, _, hopen, (Except.ok.inj hcontent).symm⟩

/-- A record is added to a file that can be opened for it. -/
theorem exists_addLine (hnul : Path.hasNul path = false) (hopen : ∃ opened, t.openWrite cwd path false = .ok opened)
    (record : List Char) : ∃ t', addLine t cwd path record = .ok t' := by
  obtain ⟨⟨i, t₁⟩, hopen⟩ := hopen
  unfold Store.addLine FileTree.appendFile
  rw [hnul, if_neg Bool.false_ne_true, hopen]
  exact ⟨_, rfl⟩

/-- A record is added behind what the store holds. -/
theorem Holds.addLine (h : Holds t cwd path x) (hadd : addLine t cwd path record = .ok t') :
    Holds t' cwd path (some (x.getD [] ++ (record ++ ['\n']))) ∧ ∃ i content, t.Writes i content t' := by
  have hnul := h.hasNul
  unfold Store.addLine at hadd
  rw [hnul, if_neg Bool.false_ne_true] at hadd
  cases happend : t.appendFile cwd path (Utf8.encode (record ++ ['\n'])) with
  | error e => simp [happend, Except.mapError] at hadd
  | ok t₁ =>
    rw [happend] at hadd
    cases hadd
    obtain ⟨spot, i, content, hspot, hslash, hwrites, hspot', hheld⟩ :=
      FileTree.appendFile_spec (fun _ => h.plain) happend
    have hcontent : content = Utf8.encode (x.getD []) := by
      cases x with
      | none =>
        have hnode := FileTree.node_of_readFile h.2 hspot
        rcases hheld with ⟨-, rfl⟩ | ⟨hi, -⟩
        · rfl
        · simp [hnode] at hi
      | some text =>
        obtain ⟨spot₁, j, mode, hspot₁, hj, -, hfile⟩ := h.exists_spot
        obtain rfl := Except.ok.inj (hspot.symm.trans hspot₁)
        rcases hheld with ⟨hnone, -⟩ | ⟨hi, mode', hfile'⟩
        · simp [hnone] at hj
        · obtain rfl := Option.some.inj (hi.symm.trans hj)
          rw [hfile] at hfile'
          cases hfile'
          rfl
    rw [hcontent, ← Utf8.encode_append] at hwrites
    exact ⟨Holds.of_writes hnul hwrites hspot' hslash, i, _, hwrites⟩

/-- Writing a file leaves a store alone, unless the store is that file. -/
theorem Holds.writes (h : Holds t cwd path (some text)) (hwrites : t.Writes i (Utf8.encode text') t') :
    Holds t' cwd path (some text) ∨ Holds t' cwd path (some text') := by
  have hnul := h.hasNul
  obtain ⟨-, j, mode, hj, hfile⟩ := h
  have hlocate := hwrites.locate hj
  by_cases hji : j = i
  · obtain ⟨mode', hfile'⟩ := hwrites.file
    exact Or.inr ⟨hnul, j, mode', hlocate, hji ▸ hfile'⟩
  · exact Or.inl ⟨hnul, j, mode, hlocate, hwrites.others j hji _ mode hfile⟩

end Store

end LineShell
