import LineShell.Proofs.Files.Alike

/-!
# Files under a path

What is found under a path after a file was written there (`appendFile_spec`, `writeFile_spec`), which leaves all paths
leading where they led. What opening, writing and renaming can come to at all is said once (`openWrite_cases`,
`writeFile_cases`, `rename_cases`).
-/

namespace LineShell.FileTree

variable {t t' t'' : FileTree} {truncate : Bool} {cwd directory i j : NodeId} {name name' path : String}
  {entries : List (String × NodeId)} {n : Node} {spot : Spot} {content content' more : Bytes} {mode : Nat}

/-! ## Nodes and names -/

/-- Directories and links stay, and files hold what they held; only names differ. -/
structure Keeps (t t' : FileTree) : Prop extends SameKinds t t' where
  file : ∀ i content mode, t.node? i = some (.file content mode) → t'.node? i = some (.file content mode)

theorem Keeps.trans (h : t.Keeps t') (h' : t'.Keeps t'') : t.Keeps t'' where
  toSameKinds := h.toSameKinds.trans h'.toSameKinds
  file i content mode hi := h'.file i content mode (h.file i content mode hi)

theorem node?_set_of_ne (h : j ≠ i) : (t.set i n).node? j = t.node? j := by
  simp [node?, FileTree.set, h.symm]

theorem node?_set_self (h : t.node? i ≠ none) : (t.set i n).node? i = some n := by
  have hsize : i < t.nodes.size := by simpa [node?] using h
  simp [node?, FileTree.set, hsize]

theorem node?_setEntries_self (h : t.isDirectory directory = true) :
    (t.setEntries directory entries).node? directory = some (.directory (t.parent directory) entries) := by
  obtain ⟨above, old, hnode⟩ := isDirectory_iff.1 h
  exact node?_set_self (by simp [hnode])

theorem entries_setEntries (h : t.isDirectory directory = true) (j : NodeId) :
    (t.setEntries directory entries).entries j = if j = directory then entries else t.entries j := by
  by_cases hj : j = directory
  · rw [hj, if_pos rfl, FileTree.entries, node?_setEntries_self h]
  · rw [if_neg hj, FileTree.entries, setEntries, node?_set_of_ne hj, FileTree.entries]

/-- What is no directory stays when the names in one change. -/
theorem node?_setEntries_of_not (h : t.isDirectory directory = true) (hj : t.isDirectory j = false) :
    (t.setEntries directory entries).node? j = t.node? j := by
  refine node?_set_of_ne fun heq => ?_
  rw [heq, h] at hj
  cases hj

/-- Names may come and go in a directory. -/
theorem Keeps.setEntries (h : t.isDirectory directory = true) : t.Keeps (t.setEntries directory entries) := by
  obtain ⟨above, old, hnode⟩ := isDirectory_iff.1 h
  have hself : (t.setEntries directory entries).node? directory = some (.directory (t.parent directory) entries) :=
    node?_setEntries_self h
  have hother : ∀ j, j ≠ directory → (t.setEntries directory entries).node? j = t.node? j :=
    fun j hj => node?_set_of_ne hj
  refine ⟨⟨fun j => ?_, fun j => ?_, fun j target => ?_⟩, fun j content mode hfile => ?_⟩
  all_goals by_cases hj : j = directory
  · simp [isDirectory, hj, hself, hnode]
  · simp [isDirectory, hother j hj]
  · simp [FileTree.parent, hj, hself, hnode]
  · simp [FileTree.parent, hother j hj]
  · simp [hj, hself, hnode]
  · simp [hother j hj]
  · simp [hj, hnode] at hfile
  · rw [hother j hj, hfile]

theorem lookup_filter_ne (entries : List (String × NodeId)) (name name' : String) :
    (entries.filter (·.1 ≠ name)).lookup name' = if name' = name then none else entries.lookup name' := by
  induction entries with
  | nil => simp
  | cons entry entries ih =>
    obtain ⟨key, i⟩ := entry
    by_cases hkey : key = name
    · by_cases hname : name' = name
      · simp [hkey, hname] at ih ⊢
        exact ih
      · have hne : (name' == name) = false := by simpa using hname
        simp [hkey, hname, List.lookup_cons, hne] at ih ⊢
        exact ih
    · by_cases hname : name' = key
      · simp [hkey, hname]
      · have hne : (name' == key) = false := by simpa using hname
        simp [hkey, List.lookup_cons, hne] at ih ⊢
        exact ih

theorem find_detach (h : t.isDirectory directory = true) (name : String) (j : NodeId) (name' : String) :
    (t.detach directory name).find j name' = if j = directory ∧ name' = name then none else t.find j name' := by
  rw [find, detach, entries_setEntries h]
  by_cases hj : j = directory
  · simp only [hj, if_true, true_and, lookup_filter_ne]
    rfl
  · simp only [hj, if_false, false_and]
    rfl

/-- A name that is vacant is given to a node. -/
theorem find_attach (h : t.isDirectory directory = true) (hvacant : t.find directory name = none) (i j : NodeId)
    (name' : String) : (t.setEntries directory (t.entries directory ++ [(name, i)])).find j name' =
      if j = directory ∧ name' = name then some i else t.find j name' := by
  rw [find, entries_setEntries h]
  by_cases hj : j = directory
  · subst hj
    by_cases hname : name' = name
    · subst hname
      have hlookup : (t.entries j).lookup name' = none := hvacant
      simp [List.lookup_append, hlookup]
    · have hne : (name' == name) = false := by simpa using hname
      simp [List.lookup_append, List.lookup_cons, hne, hname, find]
  · simp [hj, find]

theorem node?_addNameless (t : FileTree) (n : Node) (j : NodeId) :
    (t.addNameless n).2.node? j = if j = t.nodes.size then some n else t.node? j := by
  simp [node?, addNameless, Array.getElem?_push]

theorem node?_size (t : FileTree) : t.node? t.nodes.size = none := by simp [node?]

theorem entries_addFile (t : FileTree) (j : NodeId) :
    (t.addNameless (.file content mode)).2.entries j = t.entries j := by
  rw [FileTree.entries, node?_addNameless, FileTree.entries]
  by_cases hj : j = t.nodes.size
  · simp [hj, node?_size]
  · rw [if_neg hj]

theorem Keeps.addFile (t : FileTree) (content : Bytes) (mode : Nat) :
    t.Keeps (t.addNameless (.file content mode)).2 := by
  have hnode := node?_addNameless t (.file content mode)
  refine ⟨⟨fun j => ?_, fun j => ?_, fun j target => ?_⟩, fun j content mode hfile => ?_⟩
  all_goals by_cases hj : j = t.nodes.size
  · simp [isDirectory, hj, hnode, node?_size]
  · simp [isDirectory, hj, hnode]
  · simp [FileTree.parent, hj, hnode, node?_size]
  · simp [FileTree.parent, hj, hnode]
  · simp [hj, hnode, node?_size]
  · simp [hj, hnode]
  · simp [hj, node?_size] at hfile
  · simp [hj, hnode, hfile]

/-! ## Writing -/

/-- The file `i` has a new content, or is a new file; other files hold what they held. -/
structure Writes (t : FileTree) (i : NodeId) (content : Bytes) (t' : FileTree) : Prop extends SameKinds t t' where
  file : ∃ mode, t'.node? i = some (.file content mode)
  others : ∀ j, j ≠ i → ∀ content mode, t.node? j = some (.file content mode) → t'.node? j = some (.file content mode)
  find : ∀ j name, t'.find j name = t.find j name ∨ t.find j name = none ∧ t'.find j name = some i

theorem Writes.alike (h : t.Writes i content t') : t.Alike t' := by
  refine ⟨h.toSameKinds, fun j name => (h.find j name).imp_right ?_⟩
  rintro ⟨hnone, hnew⟩
  rw [hnone, hnew]
  refine ⟨fun k hk => (nomatch hk), fun k hk => ?_⟩
  cases hk
  exact ⟨content, h.file⟩

theorem Writes.isFile (h : t.Writes i content t') (hj : t.IsFile j) : t'.IsFile j := by
  by_cases hji : j = i
  · obtain ⟨mode, hi⟩ := h.file
    exact ⟨content, mode, hji ▸ hi⟩
  · obtain ⟨content', mode, hj⟩ := hj
    exact ⟨content', mode, h.others j hji content' mode hj⟩

/-- What was found under a path is found there when a file was written. -/
theorem Writes.locate (h : t.Writes i content t') (hj : t.locate cwd path = .ok j) : t'.locate cwd path = .ok j := by
  obtain ⟨spot, hspot, hnode, hslash⟩ := locate_iff_resolve.1 hj
  refine locate_iff_resolve.2 ⟨spot.on t', resolve_alike h.alike hspot, ?_, fun hon => ?_⟩
  · cases hname : spot.name with
    | none => simp [Spot.on, hname, hnode]
    | some name =>
      have hfound : t.find spot.directory name = some j := by
        rw [← Spot.on_node hname, on_of_resolve hspot, hnode]
      rw [Spot.on_node hname]
      rcases h.find spot.directory name with hfind | ⟨hnone, -⟩
      · rw [hfind, hfound]
      · simp [hnone] at hfound
  · rw [h.directory]
    exact hslash hon

theorem find_addFile (t : FileTree) (content : Bytes) (mode : Nat) (j : NodeId) (name : String) :
    (t.addNameless (.file content mode)).2.find j name = t.find j name := by
  rw [FileTree.find, entries_addFile, FileTree.find]

/-- A new file is found under its name, and nothing else under another one. -/
theorem find_add (hdirectory : t.isDirectory directory = true) (hvacant : t.find directory name = none)
    (content : Bytes) (mode : Nat) (j : NodeId) (name' : String) :
    (t.add directory name (.file content mode)).2.find j name' =
      if j = directory ∧ name' = name then some t.nodes.size else t.find j name' := by
  have hdirectory₁ : (t.addNameless (.file content mode)).2.isDirectory directory = true := by
    rw [(Keeps.addFile t content mode).directory, hdirectory]
  have hvacant₁ := (find_addFile t content mode directory name).trans hvacant
  exact (find_attach hdirectory₁ hvacant₁ t.nodes.size j name').trans (by rw [find_addFile])

theorem Writes.add (hdirectory : t.isDirectory directory = true) (hvacant : t.find directory name = none)
    (content : Bytes) (mode : Nat) :
    t.Writes t.nodes.size content (t.add directory name (.file content mode)).2 := by
  have hadded := Keeps.addFile t content mode
  have hdirectory₁ : (t.addNameless (.file content mode)).2.isDirectory directory = true := by
    rw [hadded.directory, hdirectory]
  have hnamed : (t.addNameless (.file content mode)).2.Keeps (t.add directory name (.file content mode)).2 :=
    Keeps.setEntries hdirectory₁
  have hall := hadded.trans hnamed
  have hnew := (node?_addNameless t (.file content mode) t.nodes.size).trans (if_pos rfl)
  refine ⟨hall.toSameKinds, ⟨mode, hnamed.file _ _ _ hnew⟩, fun j _ => hall.file j, fun j name' => ?_⟩
  rw [find_add hdirectory hvacant]
  by_cases hname : j = directory ∧ name' = name
  · rw [if_pos hname, hname.1, hname.2]
    exact Or.inr ⟨hvacant, rfl⟩
  · exact Or.inl (if_neg hname)

theorem Writes.set (h : t.node? i = some (.file content' mode)) (content : Bytes) :
    t.Writes i content (t.setContent i content) ∧
      ∀ j name, (t.setContent i content).find j name = t.find j name := by
  have hset : t.setContent i content = t.set i (.file content mode) := by simp [setContent, h]
  have hself : (t.setContent i content).node? i = some (.file content mode) := by
    rw [hset]
    exact node?_set_self (by simp [h])
  have hother : ∀ j, j ≠ i → (t.setContent i content).node? j = t.node? j := by
    intro j hj
    rw [hset, node?_set_of_ne hj]
  have hfind : ∀ j name, (t.setContent i content).find j name = t.find j name := by
    intro j name
    by_cases hj : j = i
    · simp [FileTree.find, FileTree.entries, hj, hself, h]
    · simp [FileTree.find, FileTree.entries, hother j hj]
  refine ⟨⟨⟨fun j => ?_, fun j => ?_, fun j target => ?_⟩, ⟨mode, hself⟩,
    fun j hj _ _ hfile => (hother j hj).trans hfile, fun j name => Or.inl (hfind j name)⟩, hfind⟩
  all_goals by_cases hj : j = i
  · simp [isDirectory, hj, hself, h]
  · simp [isDirectory, hother j hj]
  · simp [FileTree.parent, hj, hself, h]
  · simp [FileTree.parent, hother j hj]
  · simp [hj, hself, h]
  · simp [hother j hj]

theorem Writes.setContent (h : t.Writes i content t') (content' : Bytes) :
    t.Writes i content' (t'.setContent i content') := by
  obtain ⟨mode, hnode⟩ := h.file
  obtain ⟨hset, hfind⟩ := Writes.set hnode content'
  refine ⟨h.toSameKinds.trans hset.toSameKinds, hset.file, fun j hj content mode hfile =>
    hset.others j hj content mode (h.others j hj content mode hfile), fun j name => ?_⟩
  rw [hfind]
  exact h.find j name

theorem resolve_setContent (h : t.resolve cwd path = .ok spot) (hfile : t.node? i = some (.file content mode))
    (content' : Bytes) : (t.setContent i content').resolve cwd path = .ok spot := by
  obtain ⟨hset, hfind⟩ := Writes.set hfile content'
  have hon : spot.on (t.setContent i content') = spot.on t := by simp only [Spot.on, hfind]
  rw [resolve_alike hset.alike h, hon, on_of_resolve h]

theorem setContent_of_not_isFile (h : ¬ t.IsFile i) (content : Bytes) : t.setContent i content = t := by
  unfold setContent
  split
  · rename_i hnode
    exact absurd ⟨_, _, hnode⟩ h
  · rfl

theorem find_setContent (t : FileTree) (i : NodeId) (content : Bytes) (j : NodeId) (name : String) :
    (t.setContent i content).find j name = t.find j name := by
  by_cases hfile : t.IsFile i
  · obtain ⟨content', mode, hnode⟩ := hfile
    exact (Writes.set hnode content).2 j name
  · rw [setContent_of_not_isFile hfile]

/-- What is opened for writing is added under a vacant name, or is there. -/
theorem openWrite_cases (h : t.openWrite cwd path truncate = .ok (i, t')) :
    ∃ spot name, t.resolve cwd path = .ok spot ∧ spot.name = some name ∧ spot.slash = false ∧
      (spot.node = none ∧ i = t.nodes.size ∧ t' = (t.add spot.directory name (.file [] newFileMode)).2 ∨
        spot.node = some i ∧ (t.IsFile i ∨ t.isDirectory i = false ∧ t.contentOf i = .ok []) ∧
          t' = if truncate then t.setContent i [] else t) := by
  unfold openWrite at h
  obtain ⟨spot, hspot, h⟩ := exists_of_bind h
  split at h
  · cases h
  rename_i name hname
  split at h
  · cases h
  rename_i hslash
  refine ⟨spot, name, hspot, hname, by simpa using hslash, ?_⟩
  split at h
  · rename_i hnode
    split at h
    · have hadd := Except.ok.inj h
      exact Or.inl ⟨hnode, (congrArg Prod.fst hadd).symm, (congrArg Prod.snd hadd).symm⟩
    · cases h
  · rename_i k hnode
    cases hk : t.node? k with
    | none =>
      rw [hk] at h
      cases h
      exact Or.inr ⟨hnode, Or.inr ⟨by simp [isDirectory, hk], by simp [contentOf, hk]⟩, rfl⟩
    | some n =>
      rw [hk] at h
      cases n with
      | directory | program => cases h
      | file content mode =>
        cases h
        exact Or.inr ⟨hnode, Or.inl ⟨content, mode, hk⟩, rfl⟩
      | link | null =>
        cases h
        exact Or.inr ⟨hnode, Or.inr ⟨by simp [isDirectory, hk], by simp [contentOf, hk]⟩, rfl⟩

/-- A file that is opened for writing is found under its path; it is a new node, or holds what it held if it is
not truncated. -/
theorem openWrite_spec (hplain : ∀ spot, t.resolve cwd path = .ok spot → t.Plain spot.node)
    (h : t.openWrite cwd path truncate = .ok (i, t')) :
    ∃ spot content, t.resolve cwd path = .ok spot ∧ spot.slash = false ∧ t.Writes i content t' ∧
      t'.resolve cwd path = .ok { spot with node := some i } ∧
      (spot.node = none ∧ t.node? i = none ∧ content = [] ∨
        spot.node = some i ∧ (truncate = false → ∃ mode, t.node? i = some (.file content mode))) := by
  obtain ⟨spot, name, hspot, hname, hslash, ⟨hnode, rfl, rfl⟩ | ⟨hnode, -, rfl⟩⟩ := openWrite_cases h
  · obtain ⟨-, hdirectory⟩ := resolve_named hspot name hname
    have hfound : t.find spot.directory name = spot.node := by rw [← Spot.on_node hname, on_of_resolve hspot]
    have hvacant := hfound.trans hnode
    have hwrites := Writes.add hdirectory hvacant [] newFileMode
    have hnew := (find_add hdirectory hvacant [] newFileMode spot.directory name).trans (if_pos ⟨rfl, rfl⟩)
    refine ⟨spot, [], hspot, hslash, hwrites, ?_, Or.inl ⟨hnode, node?_size t, rfl⟩⟩
    rw [resolve_alike hwrites.alike hspot]
    simp only [Spot.on, hname, hnew]
  · obtain ⟨content, mode, hfile⟩ := hplain spot hspot i hnode
    have hkeep : ({ spot with node := some i } : Spot) = spot := by rw [← hnode]
    cases truncate with
    | true =>
      refine ⟨spot, [], hspot, hslash, (Writes.set hfile []).1, ?_,
        Or.inr ⟨hnode, fun hfalse => Bool.noConfusion hfalse⟩⟩
      rw [hkeep]
      exact resolve_setContent hspot hfile []
    | false =>
      refine ⟨spot, content, hspot, hslash, ⟨(Alike.refl t).toSameKinds, ⟨mode, hfile⟩, fun _ _ _ _ h => h,
        fun _ _ => Or.inl rfl⟩, ?_, Or.inr ⟨hnode, fun _ => ⟨mode, hfile⟩⟩⟩
      rw [hkeep]
      exact hspot

/-- Opening for writing gives something a name only where the path ends. -/
theorem find_openWrite (hspot : t.resolve cwd path = .ok spot) (h : t.openWrite cwd path truncate = .ok (i, t'))
    (j : NodeId) (name' : String) :
    t'.find j name' = t.find j name' ∨ j = spot.directory ∧ spot.name = some name' := by
  obtain ⟨spot', name, hspot', hname, -, hcase⟩ := openWrite_cases h
  obtain rfl := Except.ok.inj (hspot.symm.trans hspot')
  rcases hcase with ⟨hnode, rfl, rfl⟩ | ⟨-, -, rfl⟩
  · obtain ⟨-, hdirectory⟩ := resolve_named hspot name hname
    have hfound : t.find spot.directory name = spot.node := by rw [← Spot.on_node hname, on_of_resolve hspot]
    rw [find_add hdirectory (hfound.trans hnode)]
    split
    · rename_i hnew
      exact Or.inr ⟨hnew.1, hname.trans (congrArg some hnew.2.symm)⟩
    · exact Or.inl rfl
  · refine Or.inl ?_
    split
    · exact find_setContent t i [] j name'
    · rfl

theorem writeFile_spec (hplain : ∀ spot, t.resolve cwd path = .ok spot → t.Plain spot.node)
    (h : t.writeFile cwd path content = .ok t') :
    ∃ spot i, t.resolve cwd path = .ok spot ∧ spot.slash = false ∧ t.Writes i content t' ∧
      t'.resolve cwd path = .ok { spot with node := some i } ∧ (t.node? i = none ∨ spot.node = some i) := by
  unfold writeFile at h
  obtain ⟨⟨i, t₁⟩, hopen, h⟩ := exists_of_bind h
  cases h
  obtain ⟨spot, content₁, hspot, hslash, hwrites, hspot₁, hnode⟩ := openWrite_spec hplain hopen
  obtain ⟨mode, hfile⟩ := hwrites.file
  exact ⟨spot, i, hspot, hslash, hwrites.setContent content, resolve_setContent hspot₁ hfile content,
    hnode.imp (·.2.1) And.left⟩

theorem node?_setContent_of_ne (h : j ≠ i) : (t.setContent i content).node? j = t.node? j := by
  unfold setContent
  split
  · exact node?_set_of_ne h
  · rfl

/-- What is written is found under the path, in a new file or in the one that was there, or what is there keeps
nothing. -/
theorem writeFile_cases (h : t.writeFile cwd path content = .ok t') :
    (∀ i, t.locate cwd path = .ok i → t.IsFile i) ∧ (∃ i, t'.locate cwd path = .ok i ∧ t.Writes i content t' ∧
      (t.node? i = none ∨ t.locate cwd path = .ok i)) ∨
    t' = t ∧ ∃ i, t.locate cwd path = .ok i ∧ ¬ t.IsFile i ∧ t.isDirectory i = false ∧ t.contentOf i = .ok [] := by
  by_cases hplain : ∀ spot, t.resolve cwd path = .ok spot → t.Plain spot.node
  · obtain ⟨spot, i, hspot, hslash, hwrites, hspot', hnode⟩ := writeFile_spec hplain h
    refine Or.inl ⟨fun j hj => ?_, i, locate_of_resolve hspot' rfl hslash, hwrites,
      hnode.imp_right fun hi => locate_of_resolve hspot hi hslash⟩
    obtain ⟨spot₁, hspot₁, hnode₁, -⟩ := locate_iff_resolve.1 hj
    exact hplain spot₁ hspot₁ j hnode₁
  · simp only [not_forall, Plain] at hplain
    obtain ⟨spot, hspot, j, hj, hfile⟩ := hplain
    unfold writeFile at h
    obtain ⟨⟨i, t₁⟩, hopen, h⟩ := exists_of_bind h
    cases h
    obtain ⟨spot', name, hspot', -, hslash, hnode⟩ := openWrite_cases hopen
    obtain rfl := Except.ok.inj (hspot.symm.trans hspot')
    rcases hnode with ⟨hnone, -⟩ | ⟨hi, hkind, rfl⟩
    · cases hnone.symm.trans hj
    · obtain rfl := Option.some.inj (hi.symm.trans hj)
      obtain ⟨hdirectory, hcontent⟩ := hkind.resolve_left hfile
      refine Or.inr ⟨?_, i, locate_of_resolve hspot hi hslash, hfile, hdirectory, hcontent⟩
      rw [if_pos rfl, setContent_of_not_isFile hfile, setContent_of_not_isFile hfile]

/-- Writing a file leaves everything but directories and that file as it was. -/
theorem node?_writeFile (hwrite : t.writeFile cwd path content = .ok t') (hj : t.isDirectory j = false)
    (hnode : t.node? j ≠ none) (hpath : t.locate cwd path ≠ .ok j) : t'.node? j = t.node? j := by
  unfold writeFile at hwrite
  obtain ⟨⟨i, t₁⟩, hopen, hwrite⟩ := exists_of_bind hwrite
  cases hwrite
  obtain ⟨spot, name, hspot, hname, hslash, ⟨-, rfl, rfl⟩ | ⟨hi, -, rfl⟩⟩ := openWrite_cases hopen
  · obtain ⟨-, hdirectory⟩ := resolve_named hspot name hname
    -- the new file has a number of its own
    have hnew : j ≠ t.nodes.size := fun heq => hnode (heq ▸ node?_size t)
    have hadded := Keeps.addFile t [] newFileMode
    rw [node?_setContent_of_ne hnew, add, node?_setEntries_of_not, node?_addNameless, if_neg hnew]
    · rw [hadded.directory, hdirectory]
    · rw [hadded.directory, hj]
  · have hne : j ≠ i := fun heq => hpath (locate_of_resolve hspot (heq ▸ hi) hslash)
    rw [node?_setContent_of_ne hne, if_pos rfl, node?_setContent_of_ne hne]

theorem appendFile_spec (hplain : ∀ spot, t.resolve cwd path = .ok spot → t.Plain spot.node)
    (h : t.appendFile cwd path more = .ok t') :
    ∃ spot i content, t.resolve cwd path = .ok spot ∧ spot.slash = false ∧ t.Writes i (content ++ more) t' ∧
      t'.resolve cwd path = .ok { spot with node := some i } ∧
      (spot.node = none ∧ content = [] ∨ spot.node = some i ∧ ∃ mode, t.node? i = some (.file content mode)) := by
  unfold appendFile at h
  obtain ⟨⟨i, t₁⟩, hopen, h⟩ := exists_of_bind h
  cases h
  obtain ⟨spot, content, hspot, hslash, hwrites, hspot₁, hnode⟩ := openWrite_spec hplain hopen
  obtain ⟨mode, hfile⟩ := hwrites.file
  have hcontent : (t₁.contentOf i).toOption.getD [] = content := by simp [contentOf, hfile, Except.toOption]
  rw [hcontent]
  exact ⟨spot, i, content, hspot, hslash, hwrites.setContent _, resolve_setContent hspot₁ hfile _,
    hnode.imp (And.imp_right And.right) (And.imp_right fun hheld => hheld rfl)⟩

/-! ## Taking a place -/

/-- One name is taken away, and another is given to a node. -/
def move (t : FileTree) (directory : NodeId) (name : String) (directory' : NodeId) (name' : String) (i : NodeId) :
    FileTree :=
  let t := (t.detach directory name).detach directory' name'
  t.setEntries directory' (t.entries directory' ++ [(name', i)])

theorem move_spec {directory' : NodeId} (hdirectory : t.isDirectory directory = true)
    (hdirectory' : t.isDirectory directory' = true) (name name' : String) (i : NodeId) :
    t.Keeps (t.move directory name directory' name' i) ∧
      (∀ j, t.isDirectory j = false → (t.move directory name directory' name' i).node? j = t.node? j) ∧
      ∀ j name'', (t.move directory name directory' name' i).find j name'' =
        if j = directory' ∧ name'' = name' then some i
        else if j = directory ∧ name'' = name then none
        else t.find j name'' := by
  have hfirst : t.Keeps (t.detach directory name) := Keeps.setEntries hdirectory
  have hfind := find_detach hdirectory name
  have hdirectory₁ : (t.detach directory name).isDirectory directory' = true := by
    rw [hfirst.directory, hdirectory']
  have hsecond : (t.detach directory name).Keeps ((t.detach directory name).detach directory' name') :=
    Keeps.setEntries hdirectory₁
  have hfind₁ := find_detach hdirectory₁ name'
  have hkeeps := hfirst.trans hsecond
  have hdirectory₂ : ((t.detach directory name).detach directory' name').isDirectory directory' = true := by
    rw [hkeeps.directory, hdirectory']
  have hvacant : ((t.detach directory name).detach directory' name').find directory' name' = none := by
    rw [hfind₁, if_pos ⟨rfl, rfl⟩]
  refine ⟨hkeeps.trans (Keeps.setEntries hdirectory₂), fun j hj => ?_, fun j name'' => ?_⟩
  · rw [move, node?_setEntries_of_not hdirectory₂ (by rw [hkeeps.directory, hj]), detach,
      node?_setEntries_of_not hdirectory₁ (by rw [hfirst.directory, hj]), detach,
      node?_setEntries_of_not hdirectory hj]
  · refine (find_attach hdirectory₂ hvacant i j name'').trans ?_
    rw [hfind₁, hfind]
    split
    · rfl
    · rfl

/-- What becomes of a file or a link that is renamed: nothing if it has the name already, else it is moved. -/
theorem rename_cases {source target : String} {old new : Spot} (hold : t.resolve cwd source true = .ok old)
    (hnew : t.resolve cwd target true = .ok new) (hi : old.node = some i)
    (hfile : t.isDirectory i = false) (h : t.rename cwd source target = .ok t') :
    new.node = some i ∧ t' = t ∨ ∃ oldName newName, old.name = some oldName ∧ new.name = some newName ∧
      t.isDirectory old.directory = true ∧ t.isDirectory new.directory = true ∧
      t' = t.move old.directory oldName new.directory newName i := by
  unfold rename at h
  obtain ⟨old', hold', h⟩ := exists_of_bind h
  obtain rfl := Except.ok.inj (hold.symm.trans hold')
  obtain ⟨new', hnew', h⟩ := exists_of_bind h
  obtain rfl := Except.ok.inj (hnew.symm.trans hnew')
  split at h
  · rename_i oldName k newName hname hk hname'
    obtain rfl := Option.some.inj (hi.symm.trans hk)
    obtain ⟨-, hdirectory⟩ := resolve_named hold oldName hname
    obtain ⟨-, hdirectory'⟩ := resolve_named hnew newName hname'
    split at h
    · cases h
    split at h
    · rename_i hsame
      cases h
      exact Or.inl ⟨hsame, rfl⟩
    split at h
    · cases h
    dsimp only at h
    split at h
    · cases h
    · refine Or.inr ⟨oldName, newName, hname, hname', hdirectory, hdirectory', ?_⟩
      have hmoved := (move_spec hdirectory hdirectory' oldName newName i).1.directory i
      rw [hfile] at hmoved
      rw [← Except.ok.inj h]
      -- what is no directory has none above it that would have to change
      split
      · rename_i above entries hnode
        cases (isDirectory_iff.2 ⟨above, entries, hnode⟩).symm.trans hmoved
      · rfl
  · cases h
  · cases h

end LineShell.FileTree
