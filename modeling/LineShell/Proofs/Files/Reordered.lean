import LineShell.Proofs.Files.Content
import Mathlib.Data.List.Nodup

/-!
# The order of names in directories

A tree in which directories list their names in another order (`Reordered`) is the same to whoever follows a path
(`Reordered.locate`): under a name there is one node, wherever the name stands in its directory (`find_eq_some_iff`).
-/

namespace LineShell

/-- The same node, but a directory may list its names in another order. No name stands in it twice. -/
inductive Node.Reordered : Node → Node → Prop where
  | same (n : Node) : Reordered n n
  | directory {above : NodeId} {entries entries' : List (String × NodeId)} (hnames : (entries.map Prod.fst).Nodup)
    (hperm : entries.Perm entries') : Reordered (.directory above entries) (.directory above entries')

namespace FileTree

variable {t t' : FileTree} {cwd here i : NodeId} {name path : String} {names : List String} {keep slash : Bool}
  {links : Nat}

/-- Every node is the same, but for the order of names. -/
def Reordered (t t' : FileTree) : Prop := ∀ i, Option.Rel Node.Reordered (t.node? i) (t'.node? i)

/-! ## Walks in the same directories -/

section

variable (hkinds : t.SameKinds t') (hfind : ∀ i name, t'.find i name = t.find i name)
include hkinds hfind

/-- Who finds the same under every name comes the same way. -/
theorem walkLinks_congr : t'.walkLinks keep links here names slash = t.walkLinks keep links here names slash := by
  -- along the links, and the names in front of the next one
  induction links using Nat.strongRecOn generalizing here names slash with
  | ind links ih =>
    induction names generalizing here with
    | nil => rw [walkLinks_nil, walkLinks_nil]
    | cons name names ihnames =>
      have hfollow : ∀ target, t'.follow keep links here target names slash =
          t.follow keep links here target names slash := by
        intro target
        cases links with
        | zero => rfl
        | succ links => exact ih links (Nat.lt_succ_self _)
      simp only [walkLinks_cons, hkinds.hop (hfind here name), ihnames, hfollow]

theorem locate_congr : t'.locate cwd path = t.locate cwd path := by
  have hresolve : t'.resolve cwd path = t.resolve cwd path := by
    unfold resolve
    simp only [walkLinks_congr hkinds hfind]
  simp only [locate, hresolve, hkinds.directory]

end

/-! ## Names in another order -/

theorem lookup_eq_some_iff_mem {entries : List (String × NodeId)} (h : (entries.map Prod.fst).Nodup) :
    entries.lookup name = some i ↔ (name, i) ∈ entries := by
  rw [List.lookup_eq_some_iff]
  constructor
  · rintro ⟨front, back, rfl, -⟩
    exact List.mem_append_right _ List.mem_cons_self
  · intro hmem
    obtain ⟨front, back, rfl⟩ := List.append_of_mem hmem
    refine ⟨front, back, rfl, fun entry hentry => ?_⟩
    rw [List.map_append, List.map_cons] at h
    have hkey : entry.1 ∈ front.map Prod.fst := List.mem_map_of_mem hentry
    have hne : name ≠ entry.1 := by
      rintro rfl
      exact (List.nodup_append'.1 h).2.2 hkey List.mem_cons_self
    simpa using hne

/-- One directory may list its names in another order. -/
theorem Reordered.of_perm {above : NodeId} {entries entries' : List (String × NodeId)}
    (hi : t.node? i = some (.directory above entries)) (hnames : (entries.map Prod.fst).Nodup)
    (hperm : entries.Perm entries') : t.Reordered (t.set i (.directory above entries')) := by
  intro j
  by_cases hj : j = i
  · rw [hj, hi, node?_set_self (by simp [hi])]
    exact .some (.directory hnames hperm)
  · rw [node?_set_of_ne hj]
    cases t.node? j with
    | none => exact .none
    | some n => exact .some (.same n)

namespace Reordered

variable (h : t.Reordered t')
include h

/-- A node is the same, or a directory with its names in another order. -/
theorem node_cases (i : NodeId) : t'.node? i = t.node? i ∨ ∃ above entries entries',
    t.node? i = some (.directory above entries) ∧ t'.node? i = some (.directory above entries') ∧
      (entries.map Prod.fst).Nodup ∧ entries.Perm entries' := by
  have hi := h i
  generalize t.node? i = node, t'.node? i = node' at hi
  cases hi with
  | none => exact Or.inl rfl
  | some hnode =>
    cases hnode with
    | same n => exact Or.inl rfl
    | directory hnames hperm => exact Or.inr ⟨_, _, _, rfl, rfl, hnames, hperm⟩

theorem sameKinds : t.SameKinds t' := by
  refine ⟨fun i => ?_, fun i => ?_, fun i target => ?_⟩
  all_goals rcases h.node_cases i with hsame | ⟨above, entries, entries', hnode, hnode', -⟩
  · rw [isDirectory, hsame, isDirectory]
  · rw [isDirectory, hnode', isDirectory, hnode]
  · rw [parent, hsame, parent]
  · rw [parent, hnode', parent, hnode]
  · rw [hsame]
  · simp [hnode, hnode']

theorem mem_entries (i : NodeId) (entry : String × NodeId) : entry ∈ t'.entries i ↔ entry ∈ t.entries i := by
  rcases h.node_cases i with hsame | ⟨above, entries, entries', hnode, hnode', -, hperm⟩
  · rw [FileTree.entries, hsame, FileTree.entries]
  · rw [FileTree.entries, hnode', FileTree.entries, hnode]
    exact hperm.symm.mem_iff

theorem find (i : NodeId) (name : String) : t'.find i name = t.find i name := by
  rcases h.node_cases i with hsame | ⟨above, entries, entries', hnode, hnode', hnames, hperm⟩
  · rw [FileTree.find, FileTree.entries, hsame, FileTree.find, FileTree.entries]
  · rw [FileTree.find, FileTree.entries, hnode', FileTree.find, FileTree.entries, hnode]
    refine Option.ext fun j => ?_
    rw [lookup_eq_some_iff_mem hnames, lookup_eq_some_iff_mem ((hperm.map Prod.fst).nodup_iff.1 hnames),
      hperm.mem_iff]

theorem locate (cwd : NodeId) (path : String) : t'.locate cwd path = t.locate cwd path :=
  locate_congr h.sameKinds h.find

theorem locateDirectory (cwd : NodeId) (path : String) : t'.locateDirectory cwd path = t.locateDirectory cwd path := by
  simp only [FileTree.locateDirectory, h.locate, h.sameKinds.directory]

theorem pathIsDirectory (cwd : NodeId) (path : String) : t'.pathIsDirectory cwd path = t.pathIsDirectory cwd path := by
  simp only [FileTree.pathIsDirectory, h.locate, h.sameKinds.directory]

theorem isExecutable (i : NodeId) : t'.isExecutable i = t.isExecutable i := by
  rcases h.node_cases i with hsame | ⟨above, entries, entries', hnode, hnode', -⟩
  · rw [FileTree.isExecutable, hsame, FileTree.isExecutable]
  · rw [FileTree.isExecutable, hnode', FileTree.isExecutable, hnode]

theorem pathIsExecutable (cwd : NodeId) (path : String) :
    t'.pathIsExecutable cwd path = t.pathIsExecutable cwd path := by
  simp only [FileTree.pathIsExecutable, h.locate, h.isExecutable]

end Reordered

end FileTree

end LineShell
