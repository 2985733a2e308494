import LineShell.Files.Tree
import LineShell.Proofs.Text.Utf8

/-!
# The way to a file

Names lead from one node to another one, across links that are counted (`Leads`), and a path leads where its names lead
(`locate_iff_leads`). A path that is joined of a directory and a name leads where the directory leads, and from there
to the name (`locate_join_iff`): links are followed and counted on one way as on the two.
-/

namespace LineShell

/-! ## Names in a path -/

namespace Text

variable {sep : Char} {text : List Char}

theorem splitOn_cons (sep c : Char) (text : List Char) : splitOn sep (c :: text) =
    if c = sep then [] :: splitOn sep text else (c :: (fields sep text).1) :: (fields sep text).2 := by
  simp only [splitOn, fields]
  split <;> rfl

theorem splitOn_of_not_mem (h : sep ∉ text) : splitOn sep text = [text] := by
  induction text with
  | nil => rfl
  | cons c text ih =>
    rw [List.mem_cons, not_or] at h
    obtain ⟨hfield, hrest⟩ := List.cons_eq_cons.1 (ih h.2)
    rw [splitOn_cons, if_neg (Ne.symm h.1), hfield, hrest]

theorem not_mem_of_mem_splitOn {piece : List Char} (h : piece ∈ splitOn sep text) : sep ∉ piece := by
  induction text generalizing piece with
  | nil =>
    rw [List.mem_singleton.1 h]
    exact List.not_mem_nil
  | cons c text ih =>
    rw [splitOn_cons] at h
    split at h
    · rcases List.mem_cons.1 h with rfl | h
      · exact List.not_mem_nil
      · exact ih h
    · rename_i hc
      rcases List.mem_cons.1 h with rfl | h
      · rw [List.mem_cons, not_or]
        exact ⟨Ne.symm hc, ih List.mem_cons_self⟩
      · exact ih (List.mem_cons_of_mem _ h)

/-- The pieces of two texts with a separator between them. -/
theorem splitOn_append (front back : List Char) :
    splitOn sep (front ++ sep :: back) = splitOn sep front ++ splitOn sep back := by
  induction front with
  | nil => rw [List.nil_append, splitOn_cons, if_pos rfl]; rfl
  | cons c front ih =>
    obtain ⟨hfield, hrest⟩ := List.cons_eq_cons.1 ih
    rw [List.cons_append, splitOn_cons, splitOn_cons]
    split
    · rw [ih, List.cons_append]
    · rw [hfield, hrest, List.cons_append]
      rfl

/-- Nothing of a text is lost between its pieces. -/
theorem intercalate_splitOn (sep : Char) (text : List Char) : [sep].intercalate (splitOn sep text) = text := by
  induction text with
  | nil => rfl
  | cons c text ih =>
    rw [splitOn_cons]
    split
    · rename_i hc
      have hne : splitOn sep text ≠ [] := List.cons_ne_nil _ _
      rw [List.intercalate_cons_of_ne_nil hne, ih, hc]
      rfl
    · rw [List.intercalate_cons_cons_left]
      exact congrArg (c :: ·) ih

theorem splitOn_intercalate {pieces : List (List Char)} (hne : pieces ≠ []) (h : ∀ piece ∈ pieces, sep ∉ piece) :
    splitOn sep ([sep].intercalate pieces) = pieces := by
  induction pieces with
  | nil => exact absurd rfl hne
  | cons piece pieces ih =>
    obtain ⟨hpiece, hpieces⟩ := List.forall_mem_cons.1 h
    by_cases hlast : pieces = []
    · rw [hlast, List.intercalate_singleton, splitOn_of_not_mem hpiece]
    · rw [List.intercalate_cons_of_ne_nil hlast, List.append_assoc, List.singleton_append, splitOn_append,
        splitOn_of_not_mem hpiece, ih hlast hpieces]
      rfl

end Text

namespace Path

variable {directory name : String}

/-- Can a directory hold a node under the name? -/
def IsName (name : String) : Prop := name.toList ≠ [] ∧ '/' ∉ name.toList

instance (name : String) : Decidable (IsName name) := inferInstanceAs (Decidable (_ ∧ _))

/-- The names in a text. -/
def namesIn (text : List Char) : List String :=
  ((Text.splitOn '/' text).filter (!·.isEmpty)).map String.ofList

theorem namesIn_slash (front back : List Char) : namesIn (front ++ '/' :: back) = namesIn front ++ namesIn back := by
  rw [namesIn, Text.splitOn_append, List.filter_append, List.map_append]
  rfl

theorem namesIn_name (h : IsName name) : namesIn name.toList = [name] := by
  rw [namesIn, Text.splitOn_of_not_mem h.2]
  simp [h.1]

theorem isName_of_mem_names {path : String} (h : name ∈ (ofString path).names) : IsName name := by
  obtain ⟨piece, hpiece, rfl⟩ := List.mem_map.1 h
  obtain ⟨hmem, hne⟩ := List.mem_filter.1 hpiece
  rw [IsName, String.toList_ofList]
  exact ⟨by simpa using hne, Text.not_mem_of_mem_splitOn hmem⟩

/-- A slash stands in front of the name that is joined, if there was none. -/
theorem toList_join (hdirectory : directory.toList ≠ []) (name : String) :
    ∃ front, (directory.toList = front ++ ['/'] ∨ directory.toList = front) ∧
      (join directory name).toList = front ++ '/' :: name.toList := by
  rw [join, if_neg (by simpa using hdirectory)]
  split
  · rename_i hslash
    obtain ⟨front, hfront⟩ := List.getLast?_eq_some_iff.1 hslash
    refine ⟨front, Or.inl hfront, ?_⟩
    rw [String.toList_append, hfront, List.append_assoc]
    rfl
  · refine ⟨directory.toList, Or.inr rfl, ?_⟩
    rw [String.toList_append, String.toList_append, List.append_assoc]
    rfl

theorem prefix_join (hdirectory : directory.toList ≠ []) (name : String) :
    directory.toList <+: (join directory name).toList := by
  obtain ⟨front, hfront, hjoin⟩ := toList_join hdirectory name
  rw [hjoin]
  rcases hfront with hfront | hfront
  · exact ⟨name.toList, by rw [hfront, List.append_assoc]; rfl⟩
  · exact ⟨'/' :: name.toList, by rw [hfront]⟩

theorem head?_ne_of_isName (h : IsName name) : name.toList.head? ≠ some '/' :=
  fun hhead => h.2 (List.mem_of_head? hhead)

theorem getLast?_ne_of_isName (h : IsName name) : name.toList.getLast? ≠ some '/' :=
  fun hlast => h.2 (List.mem_of_getLast? hlast)

/-- A path that is joined has one name more. -/
theorem ofString_join (directory : String) (h : IsName name) :
    ofString (join directory name) =
      { ofString directory with names := (ofString directory).names ++ [name], slash := false } := by
  by_cases hdirectory : directory.toList = []
  · have hname : join directory name = name := by rw [join, if_pos (by simpa using hdirectory)]
    have hnames : namesIn directory.toList = [] := by
      rw [hdirectory]
      rfl
    rw [hname, ofString, ofString]
    congr 1
    · rw [hdirectory]
      exact decide_eq_false (head?_ne_of_isName h)
    · exact (namesIn_name h).trans (congrArg (· ++ [name]) hnames).symm
    · exact decide_eq_false (getLast?_ne_of_isName h)
  obtain ⟨front, hfront, hjoin⟩ := toList_join hdirectory name
  have habsolute : (join directory name).toList.head? = directory.toList.head? := by
    obtain ⟨more, hmore⟩ := prefix_join hdirectory name
    rw [← hmore, List.head?_append_of_ne_nil _ hdirectory]
  have hnames : namesIn (join directory name).toList = namesIn directory.toList ++ [name] := by
    have hempty : namesIn [] = [] := rfl
    rw [hjoin, namesIn_slash, namesIn_name h]
    rcases hfront with hfront | hfront
    · rw [hfront, namesIn_slash, hempty, List.append_nil]
    · rw [hfront]
  have hslash : (join directory name).toList.getLast? ≠ some '/' := by
    rw [hjoin, List.getLast?_append_cons, List.getLast?_cons_of_ne_nil h.1]
    exact getLast?_ne_of_isName h
  rw [ofString, ofString, habsolute]
  congr 1
  exact decide_eq_false hslash

theorem size_le_join (hdirectory : directory.toList ≠ []) (name : String) :
    size directory ≤ size (join directory name) := by
  obtain ⟨more, hmore⟩ := prefix_join hdirectory name
  rw [size, size, Utf8.ofString, Utf8.ofString, ← hmore, Utf8.encode_append, List.length_append]
  exact Nat.le_add_right _ _

theorem hasNul_of_join (hdirectory : directory.toList ≠ []) (h : hasNul (join directory name) = false) :
    hasNul directory = false := by
  obtain ⟨more, hmore⟩ := prefix_join hdirectory name
  rw [hasNul, ← hmore, List.contains_append, Bool.or_eq_false_iff] at h
  exact h.1

end Path

namespace FileTree

variable {t : FileTree} {keep slash : Bool} {links : Nat} {here i j : NodeId} {name : String}
  {names more : List String} {spot : Spot} {onLink : NodeId → List String → Bool → Except Errno Spot}

/-! ## One name -/

/-- What a name leads to from a directory. -/
inductive Hop where
  /-- The directory itself or the one above it. -/
  | near (i : NodeId)
  | vacant
  | link (i : NodeId) (target : String)
  | node (i : NodeId)

def hop (t : FileTree) (here : NodeId) (name : String) : Except Errno Hop :=
  if !t.isDirectory here then .error .notDirectory
  else if name = "." then .ok (.near here)
  else if name = ".." then .ok (.near (t.parent here))
  else if Path.maxNameBytes < Path.size name then .error .nameTooLong
  else match t.find here name with
    | none => .ok .vacant
    | some i =>
      match t.node? i with
      | some (.link target) => .ok (.link i target)
      | _ => .ok (.node i)

/-- A walk goes by what one name after the other leads to. -/
theorem walk_cons (t : FileTree) (keep : Bool) (onLink : NodeId → List String → Bool → Except Errno Spot)
    (here : NodeId) (slash : Bool) (name : String) (rest : List String) :
    t.walk keep onLink here slash (name :: rest) =
      match t.hop here name with
      | .error e => .error e
      | .ok (.near i) => t.walk keep onLink i slash rest
      | .ok .vacant => if rest.isEmpty then .ok ⟨here, some name, none, slash⟩ else .error .noEntry
      | .ok (.link i target) =>
        if rest.isEmpty && keep && !slash then .ok ⟨here, some name, some i, slash⟩
        else
          onLink (if (Path.ofString target).absolute then root else here) ((Path.ofString target).names ++ rest)
            (if rest.isEmpty then slash || (Path.ofString target).slash else slash)
      | .ok (.node i) =>
        if rest.isEmpty then .ok ⟨here, some name, some i, slash⟩ else t.walk keep onLink i slash rest := by
  rw [walk, hop]
  by_cases hdirectory : t.isDirectory here
  · by_cases hdot : name = "."
    · simp [hdirectory, hdot]
    by_cases hdots : name = ".."
    · simp [hdirectory, hdots]
    by_cases hlong : Path.maxNameBytes < Path.size name
    · simp [hdirectory, hdot, hdots, hlong]
    simp only [hdirectory, hdot, hdots, hlong, Bool.not_true, Bool.false_eq_true, if_false]
    cases t.find here name with
    | none => rfl
    | some i =>
      dsimp only
      cases t.node? i with
      | none => rfl
      | some n => cases n <;> rfl
  · simp [hdirectory]

theorem mem_entries_of_find (h : t.find here name = some i) : (name, i) ∈ t.entries here := by
  rw [find, List.lookup_eq_some_iff] at h
  obtain ⟨front, back, hentries, -⟩ := h
  rw [hentries]
  exact List.mem_append_right _ List.mem_cons_self

/-- Only a directory has something under a name. -/
theorem hop_spec {found : Hop} (h : t.hop here name = .ok found) : t.isDirectory here ∧
    match found with
    | .near i => i = here ∨ i = t.parent here
    | .vacant => True
    | .link i _ => (name, i) ∈ t.entries here
    | .node i => (name, i) ∈ t.entries here := by
  unfold hop at h
  split at h
  · cases h
  rename_i hdirectory
  refine ⟨by simpa using hdirectory, ?_⟩
  split at h
  · cases h
    exact Or.inl rfl
  split at h
  · cases h
    exact Or.inr rfl
  split at h
  · cases h
  split at h
  · cases h
    trivial
  rename_i i hfind
  split at h
  · cases h
    exact mem_entries_of_find hfind
  · cases h
    exact mem_entries_of_find hfind

/-! ## Names in a row -/

/-- Where to go on from a name, unless there is a link or nothing. -/
def Hop.next? : Hop → Option NodeId
  | .near i | .node i => some i
  | .vacant | .link .. => none

/-- Names lead from a node to another one, across so many links. Behind a slash that has to be a directory. -/
inductive Leads (t : FileTree) : NodeId → List String → Bool → Nat → NodeId → Prop where
  | here {i : NodeId} {slash : Bool} (hend : slash = true → t.isDirectory i = true) : Leads t i [] slash 0 i
  | step {i j k : NodeId} {name : String} {names : List String} {slash : Bool} {n : Nat} {found : Hop}
    (hhop : t.hop i name = .ok found) (hnext : found.next? = some j) (hrest : Leads t j names slash n k) :
    Leads t i (name :: names) slash n k
  | link {i j k : NodeId} {name target : String} {names : List String} {slash : Bool} {n : Nat}
    (hhop : t.hop i name = .ok (.link j target))
    (hrest : Leads t (if (Path.ofString target).absolute then root else i) ((Path.ofString target).names ++ names)
      (if names.isEmpty then slash || (Path.ofString target).slash else slash) n k) :
    Leads t i (name :: names) slash (n + 1) k

/-- A link is followed from the directory that it is in, unless too many were. -/
def follow (t : FileTree) (keep : Bool) (links : Nat) (here : NodeId) (target : String) (rest : List String)
    (slash : Bool) : Except Errno Spot :=
  match links with
  | 0 => .error .tooManyLinks
  | links + 1 => t.walkLinks keep links (if (Path.ofString target).absolute then root else here)
      ((Path.ofString target).names ++ rest) (if rest.isEmpty then slash || (Path.ofString target).slash else slash)

theorem walkLinks_nil (t : FileTree) (keep : Bool) (links : Nat) (here : NodeId) (slash : Bool) :
    t.walkLinks keep links here [] slash = .ok ⟨here, none, some here, slash⟩ := by
  cases links <;> rfl

theorem walkLinks_cons (t : FileTree) (keep : Bool) (links : Nat) (here : NodeId) (name : String)
    (rest : List String) (slash : Bool) : t.walkLinks keep links here (name :: rest) slash =
      match t.hop here name with
      | .error e => .error e
      | .ok (.near i) => t.walkLinks keep links i rest slash
      | .ok .vacant => if rest.isEmpty then .ok ⟨here, some name, none, slash⟩ else .error .noEntry
      | .ok (.link i target) =>
        if rest.isEmpty && keep && !slash then .ok ⟨here, some name, some i, slash⟩
        else t.follow keep links here target rest slash
      | .ok (.node i) =>
        if rest.isEmpty then .ok ⟨here, some name, some i, slash⟩ else t.walkLinks keep links i rest slash := by
  cases links with
  | zero => exact walk_cons t keep _ here slash name rest
  | succ links => exact walk_cons t keep _ here slash name rest

/-- A walk that ends somewhere comes there across some of the links that it may follow. -/
theorem leads_of_walkLinks (hwalk : t.walkLinks false links here names slash = .ok spot) (hnode : spot.node = some i)
    (hslash : spot.slash = true → t.isDirectory i = true) : ∃ n ≤ links, t.Leads here names slash n i := by
  -- along the links, and the names in front of the next one
  induction links using Nat.strongRecOn generalizing here names slash with
  | ind links ih =>
    induction names generalizing here with
    | nil =>
      rw [walkLinks_nil] at hwalk
      cases hwalk
      cases hnode
      exact ⟨0, Nat.zero_le _, .here hslash⟩
    | cons name names ihnames =>
      rw [walkLinks_cons] at hwalk
      cases hhop : t.hop here name with
      | error e => simp [hhop] at hwalk
      | ok found =>
        rw [hhop] at hwalk
        cases found with
        | near j =>
          obtain ⟨n, hn, hrest⟩ := ihnames hwalk
          exact ⟨n, hn, .step hhop rfl hrest⟩
        | vacant =>
          dsimp only at hwalk
          split at hwalk
          · cases hwalk
            cases hnode
          · cases hwalk
        | link j target =>
          dsimp only at hwalk
          rw [Bool.and_false, Bool.false_and, if_neg Bool.false_ne_true] at hwalk
          cases links with
          | zero => cases hwalk
          | succ links =>
            obtain ⟨n, hn, hrest⟩ := ih links (Nat.lt_succ_self _) hwalk
            exact ⟨n + 1, Nat.succ_le_succ hn, .link hhop hrest⟩
        | node j =>
          cases names with
          | nil =>
            cases hwalk
            cases hnode
            exact ⟨0, Nat.zero_le _, .step hhop rfl (.here hslash)⟩
          | cons next names =>
            obtain ⟨n, hn, hrest⟩ := ihnames hwalk
            exact ⟨n, hn, .step hhop rfl hrest⟩

namespace Leads

variable {n m : Nat}

theorem exists_spot (h : t.Leads here names slash n i) (hn : n ≤ links) :
    ∃ spot, t.walkLinks false links here names slash = .ok spot ∧ spot.node = some i ∧
      (spot.slash = true → t.isDirectory i = true) := by
  induction h generalizing links with
  | here hend => exact ⟨_, walkLinks_nil .., rfl, hend⟩
  | @step i j k name names slash n found hhop hnext hrest ih =>
    rw [walkLinks_cons, hhop]
    cases found with
    | near j' =>
      cases hnext
      exact ih hn
    | node j' =>
      cases hnext
      cases names with
      | nil =>
        cases hrest with
        | here hend => exact ⟨_, rfl, rfl, hend⟩
      | cons next names => exact ih hn
    | vacant | link => cases hnext
  | link hhop hrest ih =>
    obtain ⟨links, rfl⟩ : ∃ links', links = links' + 1 := Nat.exists_eq_succ_of_ne_zero (by omega)
    rw [walkLinks_cons, hhop]
    dsimp only
    rw [Bool.and_false, Bool.false_and, if_neg Bool.false_ne_true]
    exact ih (Nat.le_of_succ_le_succ hn)

/-- From one node, names lead to one node, across the same links. -/
theorem unique {slash' : Bool} (h : t.Leads here names slash n i) (h' : t.Leads here names slash' m j) :
    n = m ∧ i = j := by
  induction h generalizing slash' m with
  | here =>
    cases h'
    exact ⟨rfl, rfl⟩
  | step hhop hnext _ ih =>
    cases h' with
    | step hhop' hnext' hrest' =>
      cases hhop.symm.trans hhop'
      cases hnext.symm.trans hnext'
      exact ih hrest'
    | link hhop' =>
      cases hhop.symm.trans hhop'
      cases hnext
  | link hhop _ ih =>
    cases h' with
    | step hhop' hnext' =>
      cases hhop.symm.trans hhop'
      cases hnext'
    | link hhop' hrest' =>
      cases hhop.symm.trans hhop'
      obtain ⟨rfl, rfl⟩ := ih hrest'
      exact ⟨rfl, rfl⟩

/-- Only from a directory a name leads anywhere. -/
theorem isDirectory (h : t.Leads here (name :: names) slash n i) : t.isDirectory here = true := by
  cases h with
  | step hhop => exact (hop_spec hhop).1
  | link hhop => exact (hop_spec hhop).1

theorem isEmpty_append (hmore : more ≠ []) : (names ++ more).isEmpty = false := by
  simpa using fun _ => hmore

/-- With more names behind them, names lead to a directory, and from there the rest leads on. -/
theorem split (hmore : more ≠ []) (h : t.Leads here (names ++ more) slash n i) :
    ∃ j n₁ n₂, n = n₁ + n₂ ∧ t.isDirectory j = true ∧ (∀ slash', t.Leads here names slash' n₁ j) ∧
      t.Leads j more slash n₂ i := by
  generalize hall : names ++ more = all at h
  induction h generalizing names with
  | here => exact absurd (List.append_eq_nil_iff.1 hall).2 hmore
  | @step i j k name rest slash n found hhop hnext hrest ih =>
    cases names with
    | nil =>
      obtain rfl : more = name :: rest := hall
      have hi := (hop_spec hhop).1
      exact ⟨i, 0, n, (Nat.zero_add n).symm, hi, fun _ => .here fun _ => hi, .step hhop hnext hrest⟩
    | cons name' names =>
      rw [List.cons_append, List.cons.injEq] at hall
      obtain ⟨rfl, hall⟩ := hall
      obtain ⟨d, n₁, n₂, rfl, hd, hfront, hback⟩ := ih hall
      exact ⟨d, n₁, n₂, rfl, hd, fun slash' => .step hhop hnext (hfront slash'), hback⟩
  | @link i j k name target rest slash n hhop hrest ih =>
    cases names with
    | nil =>
      obtain rfl : more = name :: rest := hall
      have hi := (hop_spec hhop).1
      exact ⟨i, 0, n + 1, (Nat.zero_add _).symm, hi, fun _ => .here fun _ => hi, .link hhop hrest⟩
    | cons name' names =>
      rw [List.cons_append, List.cons.injEq] at hall
      obtain ⟨rfl, rfl⟩ := hall
      rw [isEmpty_append hmore] at ih
      obtain ⟨d, n₁, n₂, rfl, hd, hfront, hback⟩ := ih (List.append_assoc ..)
      exact ⟨d, n₁ + 1, n₂, by omega, hd, fun slash' => .link hhop (hfront _), hback⟩

theorem append (hmore : more ≠ []) (h : t.Leads here names slash n j) {slash' : Bool}
    (h' : t.Leads j more slash' m i) : t.Leads here (names ++ more) slash' (n + m) i := by
  induction h with
  | here => rwa [List.nil_append, Nat.zero_add]
  | step hhop hnext _ ih => exact .step hhop hnext (ih h')
  | @link i j k name target rest slash n hhop hrest ih =>
    rw [Nat.succ_add, List.cons_append]
    refine .link hhop ?_
    rw [isEmpty_append hmore, ← List.append_assoc]
    exact ih h'

/-- A walk over names comes to where they lead, and goes on from there. -/
theorem walkLinks_append (hmore : more ≠ []) (h : t.Leads here names slash n i) (hn : n ≤ links) (slash' : Bool) :
    t.walkLinks keep links here (names ++ more) slash' = t.walkLinks keep (links - n) i more slash' := by
  induction h generalizing links with
  | here => rfl
  | @step i j k name rest slash n found hhop hnext _ ih =>
    rw [List.cons_append, walkLinks_cons, hhop]
    cases found with
    | near j' =>
      cases hnext
      exact ih hn
    | node j' =>
      cases hnext
      dsimp only
      rw [isEmpty_append hmore]
      exact ih hn
    | vacant | link => cases hnext
  | @link i j k name target rest slash n hhop _ ih =>
    obtain ⟨links, rfl⟩ : ∃ links', links = links' + 1 := Nat.exists_eq_succ_of_ne_zero (by omega)
    rw [List.cons_append, walkLinks_cons, hhop]
    dsimp only
    rw [isEmpty_append hmore, Bool.false_and, Bool.false_and, if_neg Bool.false_ne_true, follow,
      isEmpty_append hmore, ← List.append_assoc]
    rw [Nat.succ_sub_succ]
    exact ih (Nat.le_of_succ_le_succ hn)

end Leads

/-! ## A file in a directory -/

variable {cwd : NodeId} {path directory : String}

theorem locate_eq_ok_iff : t.locate cwd path = .ok i ↔
    path.toList ≠ [] ∧ Path.size path ≤ Path.maxBytes ∧
      ∃ spot, t.walkLinks false maxLinks (if (Path.ofString path).absolute then root else cwd)
          (Path.ofString path).names (Path.ofString path).slash = .ok spot ∧
        spot.node = some i ∧ (spot.slash → t.isDirectory i) := by
  unfold locate resolve
  by_cases hempty : path.toList = []
  · simp [hempty, bind, Except.bind]
  by_cases hlong : Path.maxBytes < Path.size path
  · simp [hempty, hlong, Nat.not_le.2 hlong, bind, Except.bind]
  rw [if_neg (by simpa using hempty), if_neg hlong]
  cases t.walkLinks false maxLinks (if (Path.ofString path).absolute then root else cwd) (Path.ofString path).names
      (Path.ofString path).slash with
  | error e => simp [bind, Except.bind]
  | ok spot =>
    simp only [bind, Except.bind, ne_eq, hempty, not_false_eq_true, Nat.not_lt.1 hlong, Except.ok.injEq, true_and,
      exists_eq_left']
    cases spot.node with
    | none => simp
    | some k => cases spot.slash <;> cases hk : t.isDirectory k <;> grind

/-- A path leads where its names lead. -/
theorem locate_iff_leads : t.locate cwd path = .ok i ↔ path.toList ≠ [] ∧ Path.size path ≤ Path.maxBytes ∧
    ∃ n ≤ maxLinks, t.Leads (if (Path.ofString path).absolute then root else cwd) (Path.ofString path).names
      (Path.ofString path).slash n i := by
  rw [locate_eq_ok_iff]
  refine and_congr_right fun _ => and_congr_right fun _ => ⟨?_, ?_⟩
  · rintro ⟨spot, hwalk, hnode, hslash⟩
    exact leads_of_walkLinks hwalk hnode hslash
  · rintro ⟨n, hn, hleads⟩
    exact hleads.exists_spot hn

/-- The path of a name in a directory leads to the directory, and from there to where the name leads. -/
theorem locate_join_iff (hname : Path.IsName name) : t.locate cwd (Path.join directory name) = .ok i ↔
    (Path.join directory name).toList ≠ [] ∧ Path.size (Path.join directory name) ≤ Path.maxBytes ∧
      ∃ d n m, n + m ≤ maxLinks ∧ t.isDirectory d = true ∧
        (∀ slash, t.Leads (if (Path.ofString directory).absolute then root else cwd) (Path.ofString directory).names
          slash n d) ∧ t.Leads d [name] false m i := by
  rw [locate_iff_leads, Path.ofString_join directory hname]
  refine and_congr_right fun _ => and_congr_right fun _ => ⟨?_, ?_⟩
  · rintro ⟨_, hlinks, hleads⟩
    obtain ⟨d, n, m, rfl, hd, hfront, hlast⟩ := hleads.split (List.cons_ne_nil name [])
    exact ⟨d, n, m, hlinks, hd, hfront, hlast⟩
  · rintro ⟨d, n, m, hlinks, -, hfront, hlast⟩
    exact ⟨n + m, hlinks, (hfront false).append (List.cons_ne_nil name []) hlast⟩

/-- What is found under a name in a directory is the directory, the one above it or one of its entries. -/
theorem locate_join (hdirectory : directory.toList ≠ []) (hname : Path.IsName name)
    (h : t.locate cwd (Path.join directory name) = .ok j) :
    ∃ i, t.locateDirectory cwd directory = .ok i ∧ t.isDirectory i ∧
      (j = i ∨ j = t.parent i ∨ ∃ k, (name, k) ∈ t.entries i) := by
  obtain ⟨-, hsize, i, n, m, hlinks, hi, hfront, hlast⟩ := (locate_join_iff hname).1 h
  refine ⟨i, ?_, hi, ?_⟩
  · have hlocate : t.locate cwd directory = .ok i := locate_iff_leads.2
      ⟨hdirectory, (Path.size_le_join hdirectory name).trans hsize, n, (Nat.le_add_right n m).trans hlinks, hfront _⟩
    simp [locateDirectory, hlocate, hi, bind, Except.bind]
  · cases hlast with
    | link hhop => exact Or.inr (Or.inr ⟨_, (hop_spec hhop).2⟩)
    | @step _ k _ _ _ _ _ found hhop hnext hrest =>
      cases hrest
      obtain ⟨-, hfound⟩ := hop_spec hhop
      cases found with
      | near k' =>
        cases hnext
        exact hfound.imp_right Or.inl
      | node k' =>
        cases hnext
        exact Or.inr (Or.inr ⟨_, hfound⟩)
      | vacant | link => cases hnext

theorem pathIsExecutable_iff : t.pathIsExecutable cwd path = true ↔
    Path.hasNul path = false ∧ ∃ i, t.locate cwd path = .ok i ∧ t.isExecutable i = true := by
  rw [pathIsExecutable, Bool.and_eq_true, Bool.not_eq_true']
  cases t.locate cwd path <;> simp

theorem isDirectory_of_isExecutable (h : t.isExecutable i = true) : t.isDirectory i = false := by
  unfold isExecutable at h
  unfold isDirectory
  split
  · rename_i hnode
    simp [hnode] at h
  · rfl

end FileTree

end LineShell
