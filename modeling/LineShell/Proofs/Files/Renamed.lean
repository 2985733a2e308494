import LineShell.Proofs.Files.Content

/-!
# A name that takes the place of another one

Two names in one directory lead to files, and what has the first name is given the second one. Then the second name
leads where the first one led (`locate_rename`), whether the names are those of files or of links, unless a link leads
across the name that is taken; and it leads to no other file in any case (`eq_of_locate_rename`). What leads to one of
the files does not pass the names before it comes there (`Leads.last`), so that it still leads there when the names
have changed (`Leads.of_find`). What is written under one path leaves the file under another path as it was
(`writeFile_beside`).
-/

namespace LineShell

/-- Can there be an entry of that name that a path comes to? -/
structure Path.IsEntry (name : String) : Prop where
  isName : IsName name
  ne_dot : name ≠ "."
  ne_dots : name ≠ ".."
  short : size name ≤ maxNameBytes

namespace FileTree

variable {t t' : FileTree} {cwd here d i j k : NodeId} {name name' directory path path' : String} {names : List String}
  {slash slash' : Bool} {n m m' : Nat} {content : Bytes}

/-! ## The name of an entry -/

theorem hop_entry (hname : Path.IsEntry name) (hd : t.isDirectory d = true) :
    t.hop d name = .ok (t.arrive (t.find d name)) := by
  rw [hop_eq, hd, if_neg (by simp), if_neg hname.ne_dot, if_neg hname.ne_dots, if_neg (Nat.not_lt.2 hname.short)]

namespace Leads

/-- A name that leads to a file is that of a file or of a link. -/
theorem exists_entry (hname : Path.IsEntry name) (h : t.Leads d [name] false n i) (hi : t.isDirectory i = false) :
    ∃ x, t.find d name = some x ∧ t.isDirectory x = false := by
  have hhop := hop_entry hname h.isDirectory
  cases hfind : t.find d name with
  | none =>
    rw [hfind] at hhop
    cases h with
    | step hfound hnext =>
      cases hhop.symm.trans hfound
      cases hnext
    | link hfound => cases hhop.symm.trans hfound
  | some x =>
    refine ⟨x, rfl, ?_⟩
    by_contra hne
    obtain ⟨above, entries, hnode⟩ := isDirectory_iff.1 (Bool.not_eq_false _ ▸ hne)
    have harrive : t.arrive (some x) = .node x := by simp [arrive, hnode]
    rw [hfind, harrive] at hhop
    cases h with
    | step hfound hnext hrest =>
      cases hhop.symm.trans hfound
      cases hnext
      cases hrest
      exact hne hi
    | link hfound => cases hhop.symm.trans hfound

/-- Only from a link a name leads across links. -/
theorem exists_link (h : t.Leads d [name] slash n i) (hn : 0 < n) :
    ∃ x target, t.find d name = some x ∧ t.node? x = some (.link target) := by
  cases h with
  | step _ _ hrest =>
    cases hrest
    cases hn
  | link hhop => exact ⟨_, _, hop_finds hhop⟩

theorem find_ne_none (hname : Path.IsEntry name) (h : t.Leads d (name :: names) slash n i) : t.find d name ≠ none := by
  intro hnone
  have hvacant := hop_entry hname h.isDirectory
  rw [hnone] at hvacant
  cases h with
  | step hhop hnext =>
    cases hvacant.symm.trans hhop
    cases hnext
  | link hhop => cases hvacant.symm.trans hhop

/-- Behind a name that leads to a file nothing follows. -/
theorem last (h : t.Leads d [name] slash n i) (hi : t.isDirectory i = false)
    (h' : t.Leads d (name :: names) slash' m j) : names = [] ∧ m = n ∧ j = i := by
  cases names with
  | nil =>
    obtain ⟨rfl, rfl⟩ := h.unique h'
    exact ⟨rfl, rfl, rfl⟩
  | cons next names =>
    have hsplit : t.Leads d ([name] ++ next :: names) slash' m j := h'
    obtain ⟨k, _, _, -, hk, hname, -⟩ := hsplit.split (List.cons_ne_nil next names)
    obtain ⟨-, rfl⟩ := h.unique (hname slash)
    rw [hi] at hk
    cases hk

/-- What leads somewhere without passing a name that changed leads there still. -/
theorem of_find {Changed : NodeId → String → Prop} (hkinds : t.SameKinds t')
    (hfind : ∀ i name, t'.find i name = t.find i name ∨ Changed i name) (h : t.Leads here names slash n i)
    (hpass : ∀ here name names slash m, Changed here name → m ≤ n → ¬ t.Leads here (name :: names) slash m i) :
    t'.Leads here names slash n i := by
  induction h with
  | here hend => exact .here fun hslash => (hkinds.directory _).trans (hend hslash)
  | @step i j k name names slash n found hhop hnext hrest ih =>
    rcases hfind i name with hsame | hchanged
    · exact .step ((hkinds.hop hsame).trans hhop) hnext (ih hpass)
    · exact absurd (.step hhop hnext hrest) (hpass _ _ _ _ _ hchanged (Nat.le_refl _))
  | @link i j k name target names slash n hhop hrest ih =>
    rcases hfind i name with hsame | hchanged
    · exact .link ((hkinds.hop hsame).trans hhop) (ih fun here name names slash m hchanged hm =>
        hpass here name names slash m hchanged (Nat.le_succ_of_le hm))
    · exact absurd (.link hhop hrest) (hpass _ _ _ _ _ hchanged (Nat.le_refl _))

/-- Another name for the same entry leads to the same, if what a link leads to does. -/
theorem of_hop (h : t.Leads d [name] false n i) (hhop : t'.hop d name' = t.hop d name)
    (hlink : ∀ here names slash m, m < n → t.Leads here names slash m i → t'.Leads here names slash m i) :
    t'.Leads d [name'] false n i := by
  cases h with
  | step hfound hnext hrest =>
    cases hrest
    exact .step (hhop.trans hfound) hnext (.here fun hslash => nomatch hslash)
  | link hfound hrest => exact .link (hhop.trans hfound) (hlink _ _ _ _ (Nat.lt_succ_self _) hrest)

end Leads

/-! ## Paths into a directory -/

theorem arrive_some (t : FileTree) (i : NodeId) :
    t.arrive (some i) = .node i ∨ ∃ target, t.arrive (some i) = .link i target := by
  unfold arrive
  dsimp only
  split
  · exact Or.inr ⟨_, rfl⟩
  · exact Or.inl rfl

/-- The path of a name in a directory goes on from there. -/
theorem resolve_join (keep : Bool) (hname : Path.IsEntry name) (hempty : (Path.join directory name).toList ≠ [])
    (hsize : Path.size (Path.join directory name) ≤ Path.maxBytes)
    (hleads : t.Leads (if (Path.ofString directory).absolute then root else cwd) (Path.ofString directory).names
      slash n d) (hn : n ≤ maxLinks) :
    t.resolve cwd (Path.join directory name) keep = t.walkLinks keep (maxLinks - n) d [name] false := by
  unfold resolve
  rw [if_neg (by simpa using hempty), if_neg (Nat.not_lt.2 hsize), Path.ofString_join directory hname.isName]
  exact hleads.walkLinks_append (List.cons_ne_nil name []) hn false

/-- A name under which there is nothing ends the path, and so does a link that is not followed. -/
theorem walkLinks_entry {links : Nat} (hname : Path.IsEntry name) (hd : t.isDirectory d = true)
    (hend : keep = true ∨ t.find d name = none) :
    t.walkLinks keep links d [name] false = .ok ⟨d, some name, t.find d name, false⟩ := by
  rw [walkLinks_cons, hop_entry hname hd]
  cases hfind : t.find d name with
  | none => rfl
  | some x =>
    obtain rfl := hend.resolve_right (by simp [hfind])
    rcases arrive_some t x with harrive | ⟨target, harrive⟩
    · rw [harrive]
      rfl
    · rw [harrive]
      rfl

/-! ## Renaming -/

theorem find_move (hd : t.isDirectory d = true) (name name' : String) (x here : NodeId) (other : String) :
    (t.move d name d name' x).find here other = t.find here other ∨ here = d ∧ (other = name ∨ other = name') := by
  obtain ⟨-, -, hfind⟩ := move_spec hd hd name name' x
  rw [hfind]
  split
  · rename_i hnew
    exact Or.inr ⟨hnew.1, Or.inr hnew.2⟩
  split
  · rename_i hgone
    exact Or.inr ⟨hgone.1, Or.inl hgone.2⟩
  · exact Or.inl rfl

/-- The new name is to a walk what the old one was, and the old one is gone. -/
theorem move_entry (hname : Path.IsEntry name) (hname' : Path.IsEntry name') (hnames : name ≠ name')
    (hd : t.isDirectory d = true) {x : NodeId} (hx : t.find d name = some x) :
    (t.move d name d name' x).hop d name' = t.hop d name ∧ (t.move d name d name' x).find d name = none := by
  obtain ⟨hkeeps, -, hfind⟩ := move_spec hd hd name name' x
  constructor
  · rw [hop_entry hname' ((hkeeps.directory d).trans hd), hop_entry hname hd, hfind, if_pos ⟨rfl, rfl⟩, hx,
      hkeeps.arrive]
  · rw [hfind, if_neg fun heq => hnames heq.2, if_pos ⟨rfl, rfl⟩]

/-- What leads neither to the file whose name is taken nor, across as many links as its name, to the one that takes it
leads there still. -/
theorem Leads.move (hlast : t.Leads d [name] false m i) (hlast' : t.Leads d [name'] false m' j)
    (hdi : t.isDirectory i = false) (hdj : t.isDirectory j = false) (x : NodeId)
    (h : t.Leads here names slash n k) (hi : k ≠ i ∨ n < m) (hj : k ≠ j) :
    (t.move d name d name' x).Leads here names slash n k := by
  have hd := hlast.isDirectory
  refine h.of_find (move_spec hd hd name name' x).1.toSameKinds (find_move hd name name' x) ?_
  rintro _ other names slash n' ⟨rfl, rfl | rfl⟩ hn hpass
  · obtain ⟨-, rfl, rfl⟩ := hlast.last hdi hpass
    rcases hi with hi | hi
    · exact hi rfl
    · omega
  · obtain ⟨-, -, rfl⟩ := hlast'.last hdj hpass
    exact hj rfl

/-- What renaming makes of two files in a directory: nothing if they have one entry, else the entry of the first is
moved. The way to the directory stays. -/
theorem rename_join (hname : Path.IsEntry name) (hname' : Path.IsEntry name')
    (hi : t.locate cwd (Path.join directory name) = .ok i) (hj : t.locate cwd (Path.join directory name') = .ok j)
    (hdi : t.isDirectory i = false) (hdj : t.isDirectory j = false)
    (h : t.rename cwd (Path.join directory name) (Path.join directory name') = .ok t') :
    ∃ d n m m' x, t.isDirectory d = true ∧ n + m ≤ maxLinks ∧ t.Leads d [name] false m i ∧
      t.Leads d [name'] false m' j ∧ t.find d name = some x ∧
      t.resolve cwd (Path.join directory name) true = .ok ⟨d, some name, some x, false⟩ ∧
      (∀ slash, t'.Leads (if (Path.ofString directory).absolute then root else cwd) (Path.ofString directory).names
        slash n d) ∧
      (i = j ∧ t' = t ∨ t' = t.move d name d name' x) := by
  obtain ⟨hempty, hsize, d, n, m, hlinks, hd, hfront, hlast⟩ := (locate_join_iff hname.isName).1 hi
  obtain ⟨hempty', hsize', d', n', m', -, -, hfront', hlast'⟩ := (locate_join_iff hname'.isName).1 hj
  obtain ⟨rfl, rfl⟩ := (hfront false).unique (hfront' false)
  have hn : n ≤ maxLinks := (Nat.le_add_right n m).trans hlinks
  obtain ⟨x, hx, hdx⟩ := hlast.exists_entry hname hdi
  have hold := (resolve_join true hname hempty hsize (hfront false) hn).trans (walkLinks_entry hname hd (.inl rfl))
  have hnew := (resolve_join true hname' hempty' hsize' (hfront false) hn).trans
    (walkLinks_entry hname' hd (.inl rfl))
  refine ⟨d, n, m, m', x, hd, hlinks, hlast, hlast', hx, hx ▸ hold, ?_⟩
  rcases rename_cases hold hnew hx hdx h with ⟨hsame, rfl⟩ | ⟨oldName, newName, hold', hnew', -, -, rfl⟩
  · -- two names of one node lead to one file
    have hhop : t'.hop d name' = t'.hop d name := by
      rw [hop_entry hname' hd, hop_entry hname hd, hx, show t'.find d name' = some x from hsame]
    exact ⟨hfront, Or.inl ⟨(hlast'.unique (hlast.of_hop hhop fun _ _ _ _ _ h => h)).2.symm, rfl⟩⟩
  · cases hold'
    cases hnew'
    have hdirectory : ∀ {k}, t.isDirectory k = false → d ≠ k := by
      rintro k hk rfl
      cases hk.symm.trans hd
    exact ⟨fun slash => hlast.move hlast' hdi hdj x (hfront slash) (.inl (hdirectory hdi)) (hdirectory hdj),
      Or.inr rfl⟩

/-- A name in a directory is given to what has another name there: it leads where that one led, what is no directory
stays as it is, and nothing has the other name any more. If there is a link under the other name, the two have to lead
to different files. -/
theorem locate_rename (hname : Path.IsEntry name) (hname' : Path.IsEntry name') (hnames : name ≠ name')
    (hi : t.locate cwd (Path.join directory name) = .ok i) (hj : t.locate cwd (Path.join directory name') = .ok j)
    (hne : t.EndsInLink (t.resolve cwd (Path.join directory name) true) → i ≠ j)
    (hdi : t.isDirectory i = false) (hdj : t.isDirectory j = false)
    (h : t.rename cwd (Path.join directory name) (Path.join directory name') = .ok t') :
    t'.locate cwd (Path.join directory name') = .ok i ∧
      (∀ k, t.isDirectory k = false → t'.node? k = t.node? k) ∧
      ((∀ keep spot, t'.resolve cwd (Path.join directory name) keep = .ok spot → spot.node = none) ∨
        i = j ∧ t' = t) := by
  obtain ⟨hempty, hsize, -⟩ := (locate_join_iff hname.isName).1 hi
  obtain ⟨hempty', hsize', -⟩ := (locate_join_iff hname'.isName).1 hj
  obtain ⟨d, n, m, m', x, hd, hlinks, hlast, hlast', hx, hold, hfront, ⟨rfl, rfl⟩ | rfl⟩ :=
    rename_join hname hname' hi hj hdi hdj h
  · exact ⟨hj, fun _ _ => rfl, Or.inr ⟨rfl, rfl⟩⟩
  obtain ⟨hkeeps, hnodes, -⟩ := move_spec hd hd name name' x
  obtain ⟨hhop, hgone⟩ := move_entry hname hname' hnames hd hx
  have hd' := (hkeeps.directory d).trans hd
  have hlast₁ : (t.move d name d name' x).Leads d [name'] false m i := by
    refine hlast.of_hop hhop fun here names slash k hk hrest => ?_
    -- the way on from a link comes back neither to it nor to the name that is taken
    obtain ⟨y, target, hy, hlink⟩ := hlast.exists_link (Nat.zero_lt_of_lt hk)
    exact hlast.move hlast' hdi hdj x hrest (.inr hk) (hne ⟨_, y, target, hold, hx.symm.trans hy, hlink⟩)
  refine ⟨(locate_join_iff hname'.isName).2 ⟨hempty', hsize', d, n, m, hlinks, hd', hfront, hlast₁⟩, hnodes,
    Or.inl fun keep spot hspot => ?_⟩
  have hn : n ≤ maxLinks := (Nat.le_add_right n m).trans hlinks
  rw [resolve_join keep hname hempty hsize (hfront false) hn, walkLinks_entry hname hd' (.inr hgone), hgone] at hspot
  cases hspot
  rfl

/-- If the name that was taken leads to a file afterwards, this is the one that the other name led to, whatever links
there are, and it was left as it was. -/
theorem eq_of_locate_rename (hname : Path.IsEntry name) (hname' : Path.IsEntry name') (hnames : name ≠ name')
    (hi : t.locate cwd (Path.join directory name) = .ok i) (hj : t.locate cwd (Path.join directory name') = .ok j)
    (hdi : t.isDirectory i = false) (hdj : t.isDirectory j = false)
    (h : t.rename cwd (Path.join directory name) (Path.join directory name') = .ok t')
    (hk : t'.locate cwd (Path.join directory name') = .ok k) (hdk : t'.isDirectory k = false) :
    k = i ∧ t'.node? k = t.node? k := by
  obtain ⟨d, n, m, m', x, hd, -, hlast, -, hx, -, hfront, ⟨rfl, rfl⟩ | rfl⟩ :=
    rename_join hname hname' hi hj hdi hdj h
  · exact ⟨Except.ok.inj (hk.symm.trans hj), rfl⟩
  obtain ⟨hkeeps, hnodes, -⟩ := move_spec hd hd name name' x
  obtain ⟨hhop, hgone⟩ := move_entry hname hname' hnames hd hx
  obtain ⟨-, -, d', n', m', -, hd', hfront', hlast'⟩ := (locate_join_iff hname'.isName).1 hk
  obtain ⟨-, rfl⟩ := (hfront false).unique (hfront' false)
  have hback : t.Leads d [name] false m' k := by
    refine hlast'.of_hop hhop.symm fun here names slash n hn hrest => ?_
    refine hrest.of_find hkeeps.toSameKinds.symm
      (fun here other => (find_move hd name name' x here other).imp_left Eq.symm) ?_
    -- the way on from a link passes neither a name that is gone nor the link itself again
    rintro _ other names slash m hchanged hm hpass
    obtain ⟨rfl, rfl | rfl⟩ := hchanged
    · exact hpass.find_ne_none hname hgone
    · obtain ⟨-, rfl, -⟩ := hlast'.last hdk hpass
      omega
  exact ⟨(hback.unique hlast).2, hnodes k ((hkeeps.directory k).symm.trans hdk)⟩

/-! ## Writing beside a file -/

theorem contentOf_congr (h : t'.node? i = t.node? i) : t'.contentOf i = t.contentOf i := by
  rw [contentOf, h, contentOf]

theorem readFile_of_locate (h : t.locate cwd path = .ok i) : t.readFile cwd path = t.contentOf i := by
  simp [readFile, h, bind, Except.bind]

/-- What is written under another path leaves a file as it was. It is found there, unless what is there keeps
nothing. -/
theorem writeFile_beside (hwrite : t.writeFile cwd path' content = .ok t') (hj : t.locate cwd path = .ok j)
    (hdj : t.isDirectory j = false) (hnode : t.node? j ≠ none) (hpath : t.locate cwd path' ≠ .ok j) :
    t'.locate cwd path = .ok j ∧ t'.node? j = t.node? j ∧ ∃ i, t'.locate cwd path' = .ok i ∧ j ≠ i ∧
      t'.isDirectory i = false ∧ ((∀ k, t.locate cwd path' = .ok k → t.IsFile k) ∧ t'.contentOf i = .ok content ∨
        (∃ k, t.locate cwd path' = .ok k ∧ ¬ t.IsFile k) ∧ t'.contentOf i = .ok []) := by
  have hkept := node?_writeFile hwrite hdj hnode hpath
  rcases writeFile_cases hwrite with ⟨hfiles, i, hi, hwrites, hnew⟩ | ⟨rfl, i, hi, hfile, hdi, hcontent⟩
  · obtain ⟨mode, hfile⟩ := hwrites.file
    refine ⟨hwrites.locate hj, hkept, i, hi, ?_, IsFile.not_isDirectory ⟨content, mode, hfile⟩,
      Or.inl ⟨hfiles, by simp [contentOf, hfile]⟩⟩
    rintro rfl
    exact hnew.elim hnode hpath
  · refine ⟨hj, hkept, i, hi, ?_, hdi, Or.inr ⟨⟨i, hi, hfile⟩, hcontent⟩⟩
    rintro rfl
    exact hpath hi

end FileTree

end LineShell
