import LineShell.Files.Change
import LineShell.Proofs.Files.Walk

/-!
# Sound trees

The first node of a sound tree is a directory, above every directory there is one, and what a directory
holds has a name that a path can end in. Every change that names its target by a path keeps a tree sound and
its directories in place (`Grows`), so that every tree that is made from an empty directory by such changes is
sound (`Made.sound`).
-/

namespace LineShell

variable {t t' : FileTree} {n : Node} {i j cwd here directory : NodeId} {name path : String} {keep slash : Bool}

/-- A directory stands below a directory, and its entries have names. -/
def Node.Sound (t : FileTree) : Node → Prop
  | .directory above entries => t.isDirectory above = true ∧ ∀ entry ∈ entries, Path.IsName entry.1
  | _ => True

instance (t : FileTree) (n : Node) : Decidable (n.Sound t) :=
  match n with
  | .directory .. => inferInstanceAs (Decidable (_ ∧ _))
  | .file .. | .link _ | .program _ | .null => inferInstanceAs (Decidable True)

theorem Node.Sound.mono (h : n.Sound t) (hkeeps : ∀ i, t.isDirectory i → t'.isDirectory i) : n.Sound t' := by
  cases n with
  | directory above entries => exact ⟨hkeeps above h.1, h.2⟩
  | _ => trivial

/-- A computation in parts gives what its last part gives. -/
theorem exists_of_bind {ε α β : Type} {x : Except ε α} {f : α → Except ε β} {b : β} (h : x >>= f = .ok b) :
    ∃ a, x = .ok a ∧ f a = .ok b := by
  cases x with
  | error e => cases h
  | ok a => exact ⟨a, rfl, h⟩

namespace FileTree

structure Sound (t : FileTree) : Prop where
  root : t.isDirectory root = true
  nodes : ∀ n ∈ t.nodes.toList, n.Sound t

instance (t : FileTree) : Decidable t.Sound :=
  decidable_of_iff (t.isDirectory root = true ∧ ∀ n ∈ t.nodes.toList, n.Sound t)
    ⟨fun ⟨hroot, hnodes⟩ => ⟨hroot, hnodes⟩, fun h => ⟨h.root, h.nodes⟩⟩

theorem Sound.node (h : t.Sound) (hnode : t.node? i = some n) : n.Sound t := by
  refine h.nodes n ?_
  rw [node?] at hnode
  exact Array.mem_toList_iff.2 (Array.mem_of_getElem? hnode)

theorem Sound.parent (h : t.Sound) (i : NodeId) : t.isDirectory (t.parent i) = true := by
  unfold FileTree.parent
  split
  · rename_i hnode
    exact (h.node hnode).1
  · exact h.root

theorem Sound.isName (h : t.Sound) (hentry : (name, j) ∈ t.entries i) : Path.IsName name := by
  unfold entries at hentry
  split at hentry
  · rename_i hnode
    exact (h.node hnode).2 _ hentry
  · cases hentry

theorem isDirectory_iff : t.isDirectory i = true ↔ ∃ above entries, t.node? i = some (.directory above entries) := by
  unfold isDirectory
  split
  · rename_i above entries hnode
    exact ⟨fun _ => ⟨above, entries, hnode⟩, fun _ => rfl⟩
  · rename_i hother
    exact ⟨fun h => (nomatch h), fun ⟨above, entries, hnode⟩ => absurd hnode (hother above entries)⟩

/-! ## Nodes -/

/-- The changed tree is sound, and what was a directory is one. -/
structure Grows (t t' : FileTree) : Prop where
  sound : t'.Sound
  keeps : ∀ i, t.isDirectory i = true → t'.isDirectory i = true

theorem Sound.grows (h : t.Sound) : t.Grows t := ⟨h, fun _ hi => hi⟩

theorem Grows.trans {t'' : FileTree} (h : t.Grows t') (h' : t'.Grows t'') : t.Grows t'' :=
  ⟨h'.sound, fun i hi => h'.keeps i (h.keeps i hi)⟩

/-- A directory gives way to a directory only. -/
theorem Sound.set (h : t.Sound) (hn : n.Sound t)
    (hkind : t.isDirectory i = true → ∃ above entries, n = .directory above entries) : t.Grows (t.set i n) := by
  have hkeeps : ∀ j, t.isDirectory j = true → (t.set i n).isDirectory j = true := by
    intro j hj
    obtain ⟨above, entries, hnode⟩ := isDirectory_iff.1 hj
    rw [isDirectory_iff, node?, FileTree.set, Array.getElem?_setIfInBounds]
    split
    · rename_i hij
      subst hij
      obtain ⟨above', entries', rfl⟩ := hkind hj
      have hsize : i < t.nodes.size := by
        rw [node?, Array.getElem?_eq_some_iff] at hnode
        exact hnode.1
      exact ⟨above', entries', if_pos hsize⟩
    · exact ⟨above, entries, hnode⟩
  refine ⟨⟨hkeeps _ h.root, fun n' hn' => ?_⟩, hkeeps⟩
  rw [FileTree.set, Array.toList_setIfInBounds] at hn'
  rcases List.mem_or_eq_of_mem_set hn' with hold | rfl
  · exact (h.nodes n' hold).mono hkeeps
  · exact hn.mono hkeeps

theorem Sound.setEntries (h : t.Sound) {entries : List (String × NodeId)}
    (hentries : ∀ entry ∈ entries, Path.IsName entry.1) : t.Grows (t.setEntries i entries) :=
  h.set ⟨h.parent i, hentries⟩ fun _ => ⟨_, _, rfl⟩

theorem Sound.addNameless (h : t.Sound) (hn : n.Sound t) : t.Grows (t.addNameless n).2 := by
  have hkeeps : ∀ j, t.isDirectory j = true → (t.addNameless n).2.isDirectory j = true := by
    intro j hj
    obtain ⟨above, entries, hnode⟩ := isDirectory_iff.1 hj
    refine isDirectory_iff.2 ⟨above, entries, ?_⟩
    rw [node?, Array.getElem?_eq_some_iff] at hnode
    obtain ⟨hsize, hnode⟩ := hnode
    exact (Array.getElem?_push_lt hsize).trans (congrArg some hnode)
  refine ⟨⟨hkeeps _ h.root, fun n' hn' => ?_⟩, hkeeps⟩
  rw [FileTree.addNameless, Array.toList_push, List.mem_append, List.mem_singleton] at hn'
  rcases hn' with hold | rfl
  · exact (h.nodes n' hold).mono hkeeps
  · exact hn.mono hkeeps

theorem Sound.add (h : t.Sound) (hn : n.Sound t) (hname : Path.IsName name) : t.Grows (t.add directory name n).2 := by
  have hadded := h.addNameless hn
  refine hadded.trans (hadded.sound.setEntries fun entry hentry => ?_)
  rcases List.mem_append.1 hentry with hold | hnew
  · exact hadded.sound.isName hold
  · rw [List.mem_singleton.1 hnew]
    exact hname

theorem Sound.detach (h : t.Sound) : t.Grows (t.detach directory name) :=
  h.setEntries fun _ hentry => h.isName (List.mem_of_mem_filter hentry)

/-! ## Where a path ends -/

/-- A path ends under a name in a directory, or in a directory itself. -/
def Spot.Named (t : FileTree) (spot : Spot) : Prop :=
  ∀ name, spot.name = some name → Path.IsName name ∧ t.isDirectory spot.directory = true

theorem walk_named {onLink : NodeId → List String → Bool → Except Errno Spot} {names : List String} {spot : Spot}
    (hlink : ∀ here names slash, (∀ name ∈ names, Path.IsName name) → onLink here names slash = .ok spot →
      spot.Named t)
    (hnames : ∀ name ∈ names, Path.IsName name) (h : t.walk keep onLink here slash names = .ok spot) :
    spot.Named t := by
  induction names generalizing here with
  | nil =>
    cases h
    intro name hname
    cases hname
  | cons name names ih =>
    obtain ⟨hname, hnames⟩ := List.forall_mem_cons.1 hnames
    rw [walk_cons] at h
    cases hhop : t.hop here name with
    | error e => simp [hhop] at h
    | ok found =>
      obtain ⟨hhere, -⟩ := hop_spec hhop
      have hends : ∀ node, Spot.Named t ⟨here, some name, node, slash⟩ := by
        rintro node _ ⟨⟩
        exact ⟨hname, hhere⟩
      rw [hhop] at h
      cases found with
      | near i => exact ih hnames h
      | vacant =>
        dsimp only at h
        split at h
        · cases h
          exact hends none
        · cases h
      | link i target =>
        dsimp only at h
        split at h
        · cases h
          exact hends (some i)
        · exact hlink _ _ _ (List.forall_mem_append.2 ⟨fun _ => Path.isName_of_mem_names, hnames⟩) h
      | node i =>
        dsimp only at h
        split at h
        · cases h
          exact hends (some i)
        · exact ih hnames h

theorem walkLinks_named {links : Nat} {names : List String} {spot : Spot}
    (hnames : ∀ name ∈ names, Path.IsName name) (h : t.walkLinks keep links here names slash = .ok spot) :
    spot.Named t := by
  induction links generalizing here names slash spot with
  | zero =>
    have hover : t.walk keep (fun _ _ _ => .error .tooManyLinks) here slash names = .ok spot := h
    refine walk_named (fun _ _ _ _ hlinked => ?_) hnames hover
    cases hlinked
  | succ links ih => exact walk_named (fun _ _ _ => ih) hnames h

theorem resolve_named {spot : Spot} (h : t.resolve cwd path keep = .ok spot) : spot.Named t := by
  unfold resolve at h
  split at h
  · cases h
  split at h
  · cases h
  exact walkLinks_named (fun _ => Path.isName_of_mem_names) h

/-! ## Changes -/

theorem Sound.setFile (h : t.Sound) {content content' : Bytes} {mode mode' : Nat}
    (hnode : t.node? i = some (.file content mode)) : t.Grows (t.set i (.file content' mode')) := by
  refine h.set trivial fun hi => ?_
  obtain ⟨above, entries, hdirectory⟩ := isDirectory_iff.1 hi
  rw [hnode] at hdirectory
  cases hdirectory

theorem Sound.setContent (h : t.Sound) (content : Bytes) : t.Grows (t.setContent i content) := by
  unfold FileTree.setContent
  split
  · rename_i hnode
    exact h.setFile hnode
  · exact h.grows

theorem Sound.openWrite (h : t.Sound) {truncate : Bool} (hopen : t.openWrite cwd path truncate = .ok (i, t')) :
    t.Grows t' := by
  unfold FileTree.openWrite at hopen
  obtain ⟨spot, hspot, hopen⟩ := exists_of_bind hopen
  have hnamed := resolve_named hspot
  split at hopen
  · cases hopen
  rename_i name hname
  split at hopen
  · cases hopen
  split at hopen
  · split at hopen
    · cases hopen
      exact h.add trivial (hnamed name hname).1
    · cases hopen
  · split at hopen
    · cases hopen
    · cases hopen
    · cases hopen
      split
      · exact h.setContent []
      · exact h.grows

theorem Sound.create (h : t.Sound) {n : NodeId → Node} (hn : ∀ above, t.isDirectory above = true → (n above).Sound t)
    (hcreate : t.create cwd path n = .ok t') : t.Grows t' := by
  unfold FileTree.create at hcreate
  obtain ⟨spot, hspot, hcreate⟩ := exists_of_bind hcreate
  split at hcreate
  · rename_i name hname hnode
    obtain ⟨hname, hdirectory⟩ := resolve_named hspot name hname
    split at hcreate
    · cases hcreate
      exact h.add (hn _ hdirectory) hname
    · cases hcreate
  · cases hcreate

theorem Sound.makeDirectory (h : t.Sound) (hmake : t.makeDirectory cwd path = .ok t') : t.Grows t' := by
  refine h.create (fun above habove => ?_) hmake
  exact ⟨habove, fun entry hentry => nomatch hentry⟩

theorem Sound.makeLink (h : t.Sound) {target : String} (hmake : t.makeLink cwd target path = .ok t') :
    t.Grows t' := by
  refine h.create (fun above _ => ?_) hmake
  trivial

theorem Sound.removeDirectory (h : t.Sound) (hremove : t.removeDirectory cwd path = .ok t') : t.Grows t' := by
  unfold FileTree.removeDirectory at hremove
  obtain ⟨spot, hspot, hremove⟩ := exists_of_bind hremove
  split at hremove
  · cases hremove
  · cases hremove
  · split at hremove
    · cases hremove
    split at hremove
    · cases hremove
      exact h.detach
    · cases hremove

theorem Sound.removeFile (h : t.Sound) (hremove : t.removeFile cwd path = .ok t') : t.Grows t' := by
  unfold FileTree.removeFile at hremove
  obtain ⟨spot, hspot, hremove⟩ := exists_of_bind hremove
  split at hremove
  · cases hremove
  · cases hremove
  · split at hremove
    · cases hremove
    split at hremove
    · cases hremove
    · cases hremove
      exact h.detach

theorem Sound.rename (h : t.Sound) {source target : String} (hrename : t.rename cwd source target = .ok t') :
    t.Grows t' := by
  unfold FileTree.rename at hrename
  obtain ⟨old, -, hrename⟩ := exists_of_bind hrename
  obtain ⟨new, hnew, hrename⟩ := exists_of_bind hrename
  split at hrename
  · rename_i oldName i newName _ _ hname
    obtain ⟨hname, hdirectory⟩ := resolve_named hnew newName hname
    split at hrename
    · cases hrename
    split at hrename
    · cases hrename
      exact h.grows
    split at hrename
    · cases hrename
    dsimp only at hrename
    split at hrename
    · cases hrename
    · have hdetached : t.Grows ((t.detach old.directory oldName).detach new.directory newName) :=
        h.detach.trans h.detach.sound.detach
      generalize (t.detach old.directory oldName).detach new.directory newName = t₁ at hrename hdetached
      have hmoved : t.Grows (t₁.setEntries new.directory (t₁.entries new.directory ++ [(newName, i)])) := by
        refine hdetached.trans (hdetached.sound.setEntries fun entry hentry => ?_)
        rcases List.mem_append.1 hentry with hold | hmoved
        · exact hdetached.sound.isName hold
        · rw [List.mem_singleton.1 hmoved]
          exact hname
      generalize t₁.setEntries new.directory (t₁.entries new.directory ++ [(newName, i)]) = t₂ at hrename hmoved
      cases hrename
      split
      · rename_i hnode
        have hi := hmoved.sound.node hnode
        exact hmoved.trans (hmoved.sound.set ⟨hmoved.keeps _ hdirectory, hi.2⟩ fun _ => ⟨_, _, rfl⟩)
      · exact hmoved
  · cases hrename
  · cases hrename

theorem Sound.writeFile (h : t.Sound) {content : Bytes} (hwrite : t.writeFile cwd path content = .ok t') :
    t.Grows t' := by
  unfold FileTree.writeFile at hwrite
  obtain ⟨⟨i, t₁⟩, hopen, hwrite⟩ := exists_of_bind hwrite
  cases hwrite
  have hopened := h.openWrite hopen
  exact hopened.trans (hopened.sound.setContent content)

theorem Sound.appendFile (h : t.Sound) {more : Bytes} (happend : t.appendFile cwd path more = .ok t') :
    t.Grows t' := by
  unfold FileTree.appendFile at happend
  obtain ⟨⟨i, t₁⟩, hopen, happend⟩ := exists_of_bind happend
  cases happend
  have hopened := h.openWrite hopen
  exact hopened.trans (hopened.sound.setContent _)

/-- The trees that are made from an empty directory by changes that name their target by a path. -/
inductive Made : FileTree → Prop where
  | empty : Made {}
  | openWrite {t t' : FileTree} {cwd i : NodeId} {path : String} {truncate : Bool} :
      Made t → t.openWrite cwd path truncate = .ok (i, t') → Made t'
  | writeFile {t t' : FileTree} {cwd : NodeId} {path : String} {content : Bytes} :
      Made t → t.writeFile cwd path content = .ok t' → Made t'
  | appendFile {t t' : FileTree} {cwd : NodeId} {path : String} {more : Bytes} :
      Made t → t.appendFile cwd path more = .ok t' → Made t'
  | makeDirectory {t t' : FileTree} {cwd : NodeId} {path : String} :
      Made t → t.makeDirectory cwd path = .ok t' → Made t'
  | makeLink {t t' : FileTree} {cwd : NodeId} {target path : String} :
      Made t → t.makeLink cwd target path = .ok t' → Made t'
  | removeDirectory {t t' : FileTree} {cwd : NodeId} {path : String} :
      Made t → t.removeDirectory cwd path = .ok t' → Made t'
  | removeFile {t t' : FileTree} {cwd : NodeId} {path : String} :
      Made t → t.removeFile cwd path = .ok t' → Made t'
  | rename {t t' : FileTree} {cwd : NodeId} {source target : String} :
      Made t → t.rename cwd source target = .ok t' → Made t'

theorem Made.sound (h : t.Made) : t.Sound := by
  induction h with
  | empty => decide
  | openWrite _ hopen ih => exact (ih.openWrite hopen).sound
  | writeFile _ hwrite ih => exact (ih.writeFile hwrite).sound
  | appendFile _ happend ih => exact (ih.appendFile happend).sound
  | makeDirectory _ hmake ih => exact (ih.makeDirectory hmake).sound
  | makeLink _ hmake ih => exact (ih.makeLink hmake).sound
  | removeDirectory _ hremove ih => exact (ih.removeDirectory hremove).sound
  | removeFile _ hremove ih => exact (ih.removeFile hremove).sound
  | rename _ hrename ih => exact (ih.rename hrename).sound

end FileTree

end LineShell
