import LineShell.Proofs.Files.Sound

/-!
# Trees in which paths lead the same way

In two trees that have the same directories and links, and under a name the same node or a file or nothing each
(`Alike`), every path leads to the same name in the same directory (`resolve_alike`). Whether a link at the end of
a path is followed matters only if there is one (`resolve_keep`).
-/

namespace LineShell.FileTree

variable {t t' t'' : FileTree} {keep slash : Bool} {here cwd i : NodeId} {name path : String} {names : List String}
  {node : Option NodeId} {spot : Spot} {onLink onLink' : NodeId → List String → Bool → Except Errno Spot}

def IsFile (t : FileTree) (i : NodeId) : Prop := ∃ content mode, t.node? i = some (.file content mode)

/-- Nothing, or a regular file. -/
def Plain (t : FileTree) (node : Option NodeId) : Prop := ∀ i ∈ node, t.IsFile i

/-- The same nodes are directories, below the same ones, and the same are links. -/
structure SameKinds (t t' : FileTree) : Prop where
  directory : ∀ i, t'.isDirectory i = t.isDirectory i
  parent : ∀ i, t'.parent i = t.parent i
  link : ∀ i target, t'.node? i = some (.link target) ↔ t.node? i = some (.link target)

/-- Moreover, what a name leads to differs at most between files and nothing. -/
structure Alike (t t' : FileTree) : Prop extends SameKinds t t' where
  find : ∀ i name, t'.find i name = t.find i name ∨ t.Plain (t.find i name) ∧ t'.Plain (t'.find i name)

theorem SameKinds.trans (h : t.SameKinds t') (h' : t'.SameKinds t'') : t.SameKinds t'' where
  directory i := (h'.directory i).trans (h.directory i)
  parent i := (h'.parent i).trans (h.parent i)
  link i target := (h'.link i target).trans (h.link i target)

theorem SameKinds.symm (h : t.SameKinds t') : t'.SameKinds t where
  directory i := (h.directory i).symm
  parent i := (h.parent i).symm
  link i target := (h.link i target).symm

theorem Alike.refl (t : FileTree) : t.Alike t where
  directory _ := rfl
  parent _ := rfl
  link _ _ := Iff.rfl
  find _ _ := Or.inl rfl

theorem Alike.symm (h : t.Alike t') : t'.Alike t where
  toSameKinds := h.toSameKinds.symm
  find i name := (h.find i name).imp Eq.symm And.symm

theorem IsFile.not_isDirectory (h : t.IsFile i) : t.isDirectory i = false := by
  obtain ⟨content, mode, hnode⟩ := h
  simp [isDirectory, hnode]

/-! ## One name -/

/-- What the node under a name is to a walk. -/
def arrive (t : FileTree) : Option NodeId → Hop
  | none => .vacant
  | some i =>
    match t.node? i with
    | some (.link target) => .link i target
    | _ => .node i

theorem hop_eq (t : FileTree) (here : NodeId) (name : String) : t.hop here name =
    if !t.isDirectory here then .error .notDirectory
    else if name = "." then .ok (.near here)
    else if name = ".." then .ok (.near (t.parent here))
    else if Path.maxNameBytes < Path.size name then .error .nameTooLong
    else .ok (t.arrive (t.find here name)) := by
  unfold hop arrive
  cases t.find here name with
  | none => rfl
  | some i =>
    dsimp only
    cases t.node? i with
    | none => rfl
    | some n => cases n <;> rfl

/-- What is under a name, if the name is neither the directory itself nor the one above it. -/
def Hop.Finds (t : FileTree) (node : Option NodeId) : Hop → Prop
  | .near _ => True
  | .vacant => node = none
  | .link i target => node = some i ∧ t.node? i = some (.link target)
  | .node i => node = some i

theorem arrive_finds (t : FileTree) (node : Option NodeId) : (t.arrive node).Finds t node := by
  cases node with
  | none => rfl
  | some i =>
    unfold arrive
    dsimp only
    split
    · rename_i hnode
      exact ⟨rfl, hnode⟩
    · rfl

theorem hop_finds {found : Hop} (h : t.hop here name = .ok found) : found.Finds t (t.find here name) := by
  rw [hop_eq] at h
  split at h
  · cases h
  split at h
  · cases h
    trivial
  split at h
  · cases h
    trivial
  split at h
  · cases h
  · cases h
    exact arrive_finds t _

/-- What a file or nothing is to a walk. -/
def Hop.ofNode : Option NodeId → Hop
  | none => .vacant
  | some i => .node i

theorem arrive_of_plain (h : t.Plain node) : t.arrive node = .ofNode node := by
  cases node with
  | none => rfl
  | some i =>
    obtain ⟨content, mode, hnode⟩ := h i rfl
    simp [arrive, hnode, Hop.ofNode]

theorem SameKinds.arrive (h : t.SameKinds t') (node : Option NodeId) : t'.arrive node = t.arrive node := by
  cases node with
  | none => rfl
  | some i =>
    have hlink := h.link i
    unfold FileTree.arrive
    dsimp only
    split
    · rename_i target htarget
      rw [(hlink target).1 htarget]
    · rename_i hnone
      split
      · rename_i target htarget
        exact absurd ((hlink target).2 htarget) (hnone target)
      · rfl

/-- The same node under a name is the same to a walk. -/
theorem SameKinds.hop (h : t.SameKinds t') (hfind : t'.find here name = t.find here name) :
    t'.hop here name = t.hop here name := by
  rw [hop_eq, hop_eq, h.directory, h.parent, hfind, h.arrive]

/-- In trees that are alike a name leads to the same, or to a file or nothing in each. -/
theorem Alike.hop (h : t.Alike t') (here : NodeId) (name : String) :
    t'.hop here name = t.hop here name ∨
      t.Plain (t.find here name) ∧ t.hop here name = .ok (.ofNode (t.find here name)) ∧
        t'.hop here name = .ok (.ofNode (t'.find here name)) := by
  rcases h.find here name with hfind | ⟨hplain, hplain'⟩
  · exact Or.inl (h.toSameKinds.hop hfind)
  rw [hop_eq, hop_eq, h.directory, h.parent]
  split
  · exact Or.inl rfl
  split
  · exact Or.inl rfl
  split
  · exact Or.inl rfl
  split
  · exact Or.inl rfl
  · exact Or.inr ⟨hplain, by rw [arrive_of_plain hplain], by rw [arrive_of_plain hplain']⟩

/-! ## Following a path -/

/-- The end of a path in another tree. -/
def Spot.on (spot : Spot) (t : FileTree) : Spot :=
  { spot with node := match spot.name with
    | none => spot.node
    | some name => t.find spot.directory name }

theorem Spot.on_node (h : spot.name = some name) (t : FileTree) :
    (spot.on t).node = t.find spot.directory name := by
  simp [Spot.on, h]

theorem Spot.on_of_find (h : t.find here name = node) (node' : Option NodeId) (slash : Bool) :
    Spot.on ⟨here, some name, node', slash⟩ t = ⟨here, some name, node, slash⟩ := by
  rw [← h]
  rfl

/-- Where nothing or a file is found, the path ends. -/
theorem walk_ofNode (hhop : t.hop here name = .ok (.ofNode node)) :
    t.walk keep onLink here slash [name] = .ok ⟨here, some name, node, slash⟩ := by
  rw [walk_cons, hhop]
  cases node <;> rfl

theorem walk_ofNode_cons (hplain : t.Plain node) (hhop : t.hop here name = .ok (.ofNode node)) (next : String)
    (rest : List String) : t.walk keep onLink here slash (name :: next :: rest) ≠ .ok spot := by
  rw [walk_cons, hhop]
  cases node with
  | none => simp [Hop.ofNode]
  | some i =>
    have hfile := (hplain i rfl).not_isDirectory
    simp [Hop.ofNode, walk_cons, FileTree.hop, hfile]

theorem walk_alike (halike : t.Alike t')
    (hlink : ∀ here names slash spot, onLink here names slash = .ok spot →
      onLink' here names slash = .ok (spot.on t'))
    (h : t.walk keep onLink here slash names = .ok spot) :
    t'.walk keep onLink' here slash names = .ok (spot.on t') := by
  induction names generalizing here with
  | nil =>
    cases h
    rfl
  | cons name names ih =>
    rcases halike.hop here name with hsame | ⟨hplain, hhop, hhop'⟩
    · rw [walk_cons] at h ⊢
      rw [hsame]
      cases hhop : t.hop here name with
      | error e => simp [hhop] at h
      | ok found =>
        have hfinds := hop_finds (hsame.trans hhop)
        rw [hhop] at h
        cases found with
        | near i => exact ih h
        | vacant =>
          by_cases hrest : names.isEmpty
          · simp only [hrest, if_true] at h ⊢
            cases h
            rw [Spot.on_of_find hfinds]
          · simp [hrest] at h
        | link i target =>
          by_cases hkept : names.isEmpty && keep && !slash
          · simp only [hkept, if_true] at h ⊢
            cases h
            rw [Spot.on_of_find hfinds.1]
          · simp only [hkept] at h ⊢
            exact hlink _ _ _ _ h
        | node i =>
          by_cases hrest : names.isEmpty
          · simp only [hrest, if_true] at h ⊢
            cases h
            rw [Spot.on_of_find hfinds]
          · simp only [hrest] at h ⊢
            exact ih h
    · cases names with
      | nil =>
        rw [walk_ofNode hhop] at h
        cases h
        exact walk_ofNode hhop'
      | cons next rest => exact absurd h (walk_ofNode_cons hplain hhop next rest)

theorem walkLinks_alike {links : Nat} (halike : t.Alike t') (h : t.walkLinks keep links here names slash = .ok spot) :
    t'.walkLinks keep links here names slash = .ok (spot.on t') := by
  induction links generalizing here names slash spot with
  | zero =>
    refine walk_alike halike (fun _ _ _ _ hlinked => ?_) h
    cases hlinked
  | succ links ih => exact walk_alike halike (fun _ _ _ _ => ih) h

theorem resolve_eq_ok_iff : t.resolve cwd path keep = .ok spot ↔
    path.toList ≠ [] ∧ Path.size path ≤ Path.maxBytes ∧
      t.walkLinks keep maxLinks (if (Path.ofString path).absolute then root else cwd) (Path.ofString path).names
        (Path.ofString path).slash = .ok spot := by
  unfold resolve
  by_cases hempty : path.toList = []
  · simp [hempty]
  · rw [if_neg (by simpa using hempty)]
    by_cases hlong : Path.maxBytes < Path.size path
    · simp [hlong, Nat.not_le.2 hlong]
    · simp [hempty, hlong, Nat.not_lt.1 hlong]

theorem locate_iff_resolve : t.locate cwd path = .ok i ↔
    ∃ spot, t.resolve cwd path = .ok spot ∧ spot.node = some i ∧ (spot.slash = true → t.isDirectory i = true) := by
  rw [locate_eq_ok_iff]
  constructor
  · rintro ⟨hempty, hlong, spot, hwalk, hnode, hslash⟩
    exact ⟨spot, resolve_eq_ok_iff.2 ⟨hempty, hlong, hwalk⟩, hnode, hslash⟩
  · rintro ⟨spot, hspot, hnode, hslash⟩
    obtain ⟨hempty, hlong, hwalk⟩ := resolve_eq_ok_iff.1 hspot
    exact ⟨hempty, hlong, spot, hwalk, hnode, hslash⟩

theorem locate_of_resolve (h : t.resolve cwd path = .ok spot) (hnode : spot.node = some i)
    (hslash : spot.slash = false) : t.locate cwd path = .ok i :=
  locate_iff_resolve.2 ⟨spot, h, hnode, by simp [hslash]⟩

/-- A path leads where it led before; what is found there may have changed. -/
theorem resolve_alike (halike : t.Alike t') (h : t.resolve cwd path keep = .ok spot) :
    t'.resolve cwd path keep = .ok (spot.on t') := by
  obtain ⟨hempty, hlong, hwalk⟩ := resolve_eq_ok_iff.1 h
  exact resolve_eq_ok_iff.2 ⟨hempty, hlong, walkLinks_alike halike hwalk⟩

theorem on_of_resolve (h : t.resolve cwd path keep = .ok spot) : spot.on t = spot :=
  Except.ok.inj ((resolve_alike (Alike.refl t) h).symm.trans h)

/-- A path that ends in a link. -/
def EndsInLink (t : FileTree) (ending : Except Errno Spot) : Prop :=
  ∃ spot i target, ending = .ok spot ∧ spot.node = some i ∧ t.node? i = some (.link target)

theorem walk_keep
    (hlink : ∀ here names slash spot, onLink here names slash = .ok spot →
      onLink' here names slash = .ok spot ∨ t.EndsInLink (onLink' here names slash))
    (h : t.walk false onLink here slash names = .ok spot) :
    t.walk true onLink' here slash names = .ok spot ∨ t.EndsInLink (t.walk true onLink' here slash names) := by
  induction names generalizing here with
  | nil => exact Or.inl h
  | cons name names ih =>
    rw [walk_cons] at h ⊢
    cases hhop : t.hop here name with
    | error e => simp [hhop] at h
    | ok found =>
      have hfinds := hop_finds hhop
      rw [hhop] at h
      cases found with
      | near i => exact ih h
      | vacant => exact Or.inl h
      | link i target =>
        dsimp only at h ⊢
        split
        · exact Or.inr ⟨_, i, target, rfl, rfl, hfinds.2⟩
        · rw [Bool.and_false, Bool.false_and, if_neg Bool.false_ne_true] at h
          exact hlink _ _ _ _ h
      | node i =>
        by_cases hrest : names.isEmpty
        · simp only [hrest, if_true] at h ⊢
          exact Or.inl h
        · simp only [hrest] at h ⊢
          exact ih h

theorem walkLinks_keep {links : Nat} (h : t.walkLinks false links here names slash = .ok spot) :
    t.walkLinks true links here names slash = .ok spot ∨
      t.EndsInLink (t.walkLinks true links here names slash) := by
  induction links generalizing here names slash spot with
  | zero =>
    refine walk_keep (fun _ _ _ _ hlinked => ?_) h
    cases hlinked
  | succ links ih => exact walk_keep (fun _ _ _ _ => ih) h

/-- Not following a link at the end makes a difference only if there is one. -/
theorem resolve_keep (h : t.resolve cwd path = .ok spot) :
    t.resolve cwd path true = .ok spot ∨ t.EndsInLink (t.resolve cwd path true) := by
  simp only [resolve_eq_ok_iff] at h ⊢
  obtain ⟨hempty, hlong, hwalk⟩ := h
  have hresolve : t.resolve cwd path true = t.walkLinks true maxLinks
      (if (Path.ofString path).absolute then root else cwd) (Path.ofString path).names (Path.ofString path).slash := by
    rw [resolve, if_neg (by simpa using hempty), if_neg (Nat.not_lt.2 hlong)]
  rw [hresolve]
  exact (walkLinks_keep hwalk).imp_left fun hkeep => ⟨hempty, hlong, hkeep⟩

/-! ## Names that are no links -/

/-- Under the path itself there is a regular file, or nothing. -/
def Regular (t : FileTree) (cwd : NodeId) (path : String) : Prop :=
  ∀ spot, t.resolve cwd path true = .ok spot → t.Plain spot.node

theorem Regular.of_vacant (h : (t.resolve cwd path true).map (·.node) = .ok none) : t.Regular cwd path := by
  intro spot hspot i hi
  rw [hspot] at h
  obtain hnone : spot.node = none := Except.ok.inj h
  rw [hnone] at hi
  cases hi

theorem Regular.resolve (h : t.Regular cwd path) (hspot : t.resolve cwd path = .ok spot) :
    t.resolve cwd path true = .ok spot := by
  rcases resolve_keep hspot with hkeep | ⟨spot', i, target, hkeep, hi, hlink⟩
  · exact hkeep
  · obtain ⟨content, mode, hfile⟩ := h spot' hkeep i hi
    rw [hlink] at hfile
    cases hfile

end LineShell.FileTree
