import LineShell.Proofs.Pipeline.Characters
import LineShell.Proofs.Shell.Printing
import LineShell.Proofs.Store.Removal
import LineShell.Shell.Execute
import LineShell.System.Machine

/-!
# How deep executions go

A builtin may execute other pipelines, and each of these goes less deep than the builtin itself, as long as no
stored command is a bookmark again (`settles_of_loaded`). The check at saving, made on the text that was given, is
good for the text that is read back, whatever was stored and removed in between: `Obtained.harmless` goes over the
calls that a store can come from. An execution on such a store ends (`execute_settles`).
-/

namespace LineShell

/-- How many executions there can be inside one another when a builtin runs. -/
def Builtin.nesting : Builtin → Nat
  | .bookmark => 2
  | .pingsweep | .short => 1
  | .cd | .exit => 0

theorem Builtin.ofName?_eq_some {name : String} {b : Builtin} (h : ofName? name = some b) : name = b.name := by
  unfold ofName? at h
  split at h <;> cases h <;> rfl

theorem Builtin.toList_ne_nil {name : String} {b : Builtin} (h : ofName? name = some b) : name.toList ≠ [] := by
  intro hnil
  rw [String.toList_eq_nil_iff.1 hnil] at h
  cases h

/-- The nesting of what its first stage names. -/
def Pipeline.nesting (p : Pipeline) : Nat :=
  match Builtin.ofName? p.head.name with
  | some b => b.nesting
  | none => 0

theorem Pipeline.nesting_le_two (p : Pipeline) : p.nesting ≤ 2 := by
  unfold nesting
  split
  · rename_i b _
    cases b <;> decide
  · exact Nat.zero_le 2

theorem Pipeline.nesting_le_one {p : Pipeline} (h : p.head.name ≠ Builtin.bookmark.name) : p.nesting ≤ 1 := by
  unfold nesting
  split
  · rename_i b hb
    have hname := Builtin.ofName?_eq_some hb
    cases b with
    | bookmark => exact absurd hname h
    | _ => decide
  · exact Nat.zero_le 1

namespace Shell

variable {κ : Type u} {k : Kernel κ} {s s' : Shell κ} {p : Pipeline} {n depth : Nat} {b : Builtin} {o : Outcome}

/-! ## Enough depth -/

/-- More than `n` levels make no difference: whatever depth is allowed, the execution comes to the same. -/
def Settles (k : Kernel κ) (n : Nat) (p : Pipeline) (s : Shell κ) : Prop :=
  ∃ r, ∀ depth, n < depth → executeWithin k depth p s = some r

theorem executeWithin_builtin (hb : Builtin.ofName? p.head.name = some b) : executeWithin k (depth + 1) p s =
    s.runBuiltin (executeWithin k depth) p.head.arguments p.isBackground b := by
  have hname := Builtin.toList_ne_nil hb
  rw [executeWithin, if_neg (by simpa using hname), hb]

/-- A builtin settles one level above what it executes. -/
theorem settles_builtin (hb : Builtin.ofName? p.head.name = some b)
    (h : ∃ r, ∀ depth, n ≤ depth → s.runBuiltin (executeWithin k depth) p.head.arguments p.isBackground b = some r) :
    Settles k n p s := by
  obtain ⟨r, hr⟩ := h
  refine ⟨r, fun depth hdepth => ?_⟩
  obtain ⟨depth, rfl⟩ := Nat.exists_eq_succ_of_ne_zero (Nat.ne_of_gt (Nat.zero_lt_of_lt hdepth))
  rw [executeWithin_builtin hb]
  exact hr depth (Nat.le_of_lt_succ hdepth)

/-- What executes nothing else settles at once. -/
theorem settles_plain (h : p.nesting = 0) (s : Shell κ) : Settles k 0 p s := by
  unfold Pipeline.nesting at h
  split at h
  · rename_i b hb
    cases b with
    | cd => exact settles_builtin hb ⟨_, fun _ _ => rfl⟩
    | exit => exact settles_builtin hb ⟨_, fun _ _ => rfl⟩
    | bookmark => cases h
    | pingsweep => cases h
    | short => cases h
  · rename_i hb
    by_cases hname : p.head.name.toList.isEmpty
    · refine ⟨(.done 0, s), fun depth hdepth => ?_⟩
      obtain ⟨depth, rfl⟩ := Nat.exists_eq_succ_of_ne_zero (Nat.ne_of_gt hdepth)
      rw [executeWithin, if_pos hname]
    · refine ⟨s.runStages k p, fun depth hdepth => ?_⟩
      obtain ⟨depth, rfl⟩ := Nat.exists_eq_succ_of_ne_zero (Nat.ne_of_gt hdepth)
      rw [executeWithin, if_neg hname, hb]

/-- A sweep executes nothing but pings. -/
theorem pingEach_settles (subnet : String) (background : Bool) (hosts : List Nat) (status : UInt8) (s : Shell κ) :
    ∃ r, ∀ depth, 0 < depth → pingEach (executeWithin k depth) subnet background hosts status s = some r := by
  induction hosts generalizing status s with
  | nil => exact ⟨_, fun _ _ => rfl⟩
  | cons host hosts ih =>
    have hnesting : (Pipeline.single { pingStage subnet host with background }).nesting = 0 := rfl
    obtain ⟨⟨o, s'⟩, hping⟩ := settles_plain (k := k) hnesting s
    cases o with
    | done status' =>
      obtain ⟨r, hr⟩ := ih status' s'
      exact ⟨r, fun depth hdepth => by rw [pingEach, hping depth hdepth]; exact hr depth hdepth⟩
    | detached =>
      obtain ⟨r, hr⟩ := ih status s'
      exact ⟨r, fun depth hdepth => by rw [pingEach, hping depth hdepth]; exact hr depth hdepth⟩
    | exit => exact ⟨_, fun depth hdepth => by rw [pingEach, hping depth hdepth]⟩

theorem short_settles (s : Shell κ) (background : Bool) (request : Shortcuts.Request) :
    ∃ r, ∀ depth, 0 < depth → s.short (executeWithin k depth) background request = some r := by
  cases request with
  | usage => exact ⟨_, fun _ _ => rfl⟩
  | set name => exact ⟨_, fun _ _ => rfl⟩
  | unknown => exact ⟨_, fun _ _ => rfl⟩
  | jump name =>
    simp only [short, jump]
    split
    · exact ⟨_, fun _ _ => rfl⟩
    · exact ⟨_, fun _ _ => rfl⟩
    · exact settles_plain rfl s

theorem pingSweep_settles (s : Shell κ) (background : Bool) (arguments : List String) :
    ∃ r, ∀ depth, 0 < depth → s.pingSweep (executeWithin k depth) background arguments = some r := by
  unfold pingSweep
  split
  · split
    · exact ⟨_, fun _ _ => rfl⟩
    · dsimp only
      split
      · exact ⟨_, fun _ _ => rfl⟩
      · exact pingEach_settles _ _ _ _ _
  · exact ⟨_, fun _ _ => rfl⟩

/-- What is no bookmark settles, whatever is stored. -/
theorem settles_of_head (h : p.head.name ≠ Builtin.bookmark.name) (s : Shell κ) : Settles k p.nesting p s := by
  cases hb : Builtin.ofName? p.head.name with
  | none =>
    have hnesting : p.nesting = 0 := by simp [Pipeline.nesting, hb]
    rw [hnesting]
    exact settles_plain hnesting s
  | some b =>
    have hnesting : p.nesting = b.nesting := by simp [Pipeline.nesting, hb]
    cases b with
    | bookmark => exact absurd (Builtin.ofName?_eq_some hb) h
    | cd => exact hnesting ▸ settles_plain hnesting s
    | exit => exact hnesting ▸ settles_plain hnesting s
    | pingsweep => exact hnesting ▸ settles_builtin hb (pingSweep_settles s _ _)
    | short => exact hnesting ▸ settles_builtin hb (short_settles s _ _)

theorem depthBound_ge (s : Shell κ) : 4 ≤ s.depthBound := by
  unfold depthBound
  split
  · exact Nat.le_add_left 4 _
  · exact Nat.le_refl 4

/-- An execution that settles below the bound comes to what it settles at. -/
theorem Settles.execute (h : Settles k n p s) (hn : n < 4) :
    ∃ r, s.execute k p = some r ∧ ∀ depth, n < depth → executeWithin k depth p s = some r := by
  obtain ⟨r, hr⟩ := h
  exact ⟨r, hr _ (Nat.lt_of_lt_of_le hn s.depthBound_ge), hr⟩

/-! ## Stored commands -/

variable {x x' : Option (List Char)} {bs : List Bookmark}

/-- A line that is no bookmark settles one level deep, left running or not. -/
theorem line_settles {p : Pipeline} (h : p.head.name ≠ Builtin.bookmark.name) (background : Bool) (s : Shell κ) :
    Settles k 1 (if background then p.setBackground true else p) s := by
  have hhead : (if background then p.setBackground true else p).head.name ≠ Builtin.bookmark.name := by
    split
    · rwa [Pipeline.setBackground, Pipeline.head_name_markLast]
    · exact h
  obtain ⟨r, hr⟩ := settles_of_head (k := k) hhead s
  exact ⟨r, fun depth hdepth => hr depth (Nat.lt_of_le_of_lt (Pipeline.nesting_le_one hhead) hdepth)⟩

theorem replay_settles (hload : Bookmarks.load s.host.world.files s.host.cwd s.config.dataDir = .ok bs)
    (hbs : ∀ b ∈ bs, (Pipeline.parse b.command).head.name ≠ Builtin.bookmark.name) (index : Nat) (background : Bool) :
    ∃ r, ∀ depth, 2 ≤ depth → s.replayBookmark (executeWithin k depth) index background = some r := by
  unfold replayBookmark
  rw [hload]
  dsimp only
  split
  · rename_i hnone
    cases hnone
  · exact ⟨_, fun _ _ => rfl⟩
  · rename_i hsome
    cases hsome
    split
    · exact ⟨_, fun _ _ => rfl⟩
    · rename_i b hfind
      exact line_settles (hbs b (List.mem_of_find?_eq_some hfind)) background s

/-- If no stored command is a bookmark, every execution settles. -/
theorem settles_of_loaded (hload : Bookmarks.load s.host.world.files s.host.cwd s.config.dataDir = .ok bs)
    (hbs : ∀ b ∈ bs, (Pipeline.parse b.command).head.name ≠ Builtin.bookmark.name) (p : Pipeline) :
    Settles k p.nesting p s := by
  by_cases hhead : p.head.name = Builtin.bookmark.name
  · have hb : Builtin.ofName? p.head.name = some .bookmark := by rw [hhead]; rfl
    have hnesting : p.nesting = 2 := by simp [Pipeline.nesting, hb, Builtin.nesting]
    rw [hnesting]
    refine settles_builtin hb ?_
    simp only [runBuiltin]
    cases Bookmarks.Request.ofArguments p.head.arguments with
    | usage => exact ⟨_, fun _ _ => rfl⟩
    | list => exact ⟨_, fun _ _ => rfl⟩
    | remove index => cases index <;> exact ⟨_, fun _ _ => rfl⟩
    | replay index =>
      cases index with
      | none => exact ⟨_, fun _ _ => rfl⟩
      | some index => exact replay_settles hload hbs index _
    | save command => exact ⟨_, fun _ _ => rfl⟩
  · exact settles_of_head hhead s

/-! ## Stores that bookmark calls leave behind -/

/-- What a call may make of the store; what a replay makes of it is not said. A store is lost if it becomes a link that
leads nowhere. -/
inductive Leaves (x : Option (List Char)) : Bookmarks.Request → Option (List Char) → Prop
  | same (request : Bookmarks.Request) : Leaves x request x
  | saved {command : String} (index : Nat) (head : (Pipeline.parse command).head.name ≠ Builtin.bookmark.name) :
      Leaves x (.save command) (some (x.getD [] ++ (Bookmark.record ⟨index, command⟩ ++ ['\n'])))
  | removed (index : Nat) : Leaves x (.remove (some index))
      (some (Bookmarks.toText ((Bookmarks.ofText (x.getD [])).filter (·.index ≠ index))))
  | lost (index : Nat) : Leaves x (.remove (some index)) none

theorem listBookmarks_leaves (hx : s.Stored x) (haside : s.listBookmarks.2.PrintsAside)
    (hx' : s.listBookmarks.2.Stored x') : Leaves x .list x' := by
  have hprinted : Printed s s.listBookmarks.2 := by
    unfold listBookmarks
    split
    · exact .emit _ (.refl s)
    · exact printed_each _ _ (.refl s)
  rw [haside.eq hx' hprinted hx]
  exact .same _

theorem removeBookmark_leaves {index : Nat} (hx : s.Stored x) (haside : (s.removeBookmark index).2.PrintsAside)
    (hx' : (s.removeBookmark index).2.Stored x') : Leaves x (.remove (some index)) x' := by
  obtain ⟨⟨result, files⟩, hremove⟩ :
    ∃ r, Bookmarks.remove s.host.world.files s.host.cwd s.config.dataDir index = r := ⟨_, rfl⟩
  have hspec := Bookmarks.holds_of_remove hx hremove
  have hprinted : Printed { s with host := s.host.withFiles files } (s.removeBookmark index).2 := by
    unfold removeBookmark
    rw [hremove]
    cases result with
    | error e => exact .emit _ (.refl _)
    | ok there =>
      cases there with
      | false => exact .print _ (.refl _)
      | true => exact .refl _
  have heq : ∀ y, Store.Holds files s.host.cwd (Bookmarks.path s.config.dataDir) y → x' = y :=
    fun y hy => haside.eq hx' hprinted hy
  cases result with
  | error e =>
    rcases hspec with hsame | hremoved
    · exact heq x hsame ▸ .same _
    · exact heq _ hremoved ▸ .removed index
  | ok there =>
    cases there with
    | false => exact heq x (hspec ▸ hx) ▸ .same _
    | true =>
      cases x' with
      | none => exact .lost index
      | some text' =>
        have hheld : Store.Holds files s.host.cwd (Bookmarks.path s.config.dataDir) (some text') := by
          unfold removeBookmark at hx'
          rw [hremove] at hx'
          exact hx'
        exact hspec text' hheld ▸ .removed index

theorem saveBookmark_eq {command : String} {saved : Option Nat} {files : FileTree}
    (hhead : (Pipeline.parse command).head.name ≠ Builtin.bookmark.name)
    (hsave : Bookmarks.save s.host.world.files s.host.cwd s.config.dataDir command = .ok (saved, files)) :
    s.saveBookmark command = (.done 0, { s with host := s.host.withFiles files }) := by
  rw [saveBookmark, if_neg hhead, hsave]

theorem saveBookmark_leaves {command : String} (hx : s.Stored x) (haside : (s.saveBookmark command).2.PrintsAside)
    (hx' : (s.saveBookmark command).2.Stored x') : Leaves x (.save command) x' := by
  unfold saveBookmark at haside hx'
  split at haside
  · rename_i hhead
    rw [if_pos hhead] at hx'
    exact haside.eq hx' (.print _ (.refl s)) hx ▸ .same _
  · rename_i hhead
    rw [if_neg hhead] at hx'
    cases hsave : Bookmarks.save s.host.world.files s.host.cwd s.config.dataDir command with
    | error e =>
      rw [hsave] at haside hx'
      exact haside.eq hx' (.emit _ (.refl s)) hx ▸ .same _
    | ok result =>
      obtain ⟨saved, files⟩ := result
      rw [hsave] at haside hx'
      have hspec := Bookmarks.save_spec hx hsave
      cases saved with
      | none =>
        obtain ⟨rfl, -⟩ := hspec
        exact haside.eq hx' (.refl _) hx ▸ .same _
      | some index =>
        obtain ⟨-, -, -, hholds⟩ := hspec
        exact haside.eq hx' (.refl _) hholds ▸ .saved index hhead

theorem bookmark_leaves {again : Again κ} {background : Bool} {request : Bookmarks.Request}
    (hx : s.Stored x) (haside : s'.PrintsAside) (hx' : s'.Stored x')
    (hreplay : ∀ index, request = .replay (some index) → x' = x)
    (h : s.bookmark again background request = some (o, s')) : Leaves x request x' := by
  cases request with
  | usage =>
    cases h
    exact haside.eq hx' (.print _ (.refl s)) hx ▸ .same _
  | list =>
    obtain rfl : s.listBookmarks.2 = s' := congrArg Prod.snd (Option.some.inj h)
    exact listBookmarks_leaves hx haside hx'
  | remove index =>
    cases index with
    | none =>
      cases h
      exact haside.eq hx' (.print _ (.refl s)) hx ▸ .same _
    | some index =>
      obtain rfl : (s.removeBookmark index).2 = s' := congrArg Prod.snd (Option.some.inj h)
      exact removeBookmark_leaves hx haside hx'
  | replay index =>
    cases index with
    | none =>
      cases h
      exact haside.eq hx' (.print _ (.refl s)) hx ▸ .same _
    | some index => exact hreplay index rfl ▸ .same _
  | save command =>
    obtain rfl : (s.saveBookmark command).2 = s' := congrArg Prod.snd (Option.some.inj h)
    exact saveBookmark_leaves hx haside hx'

/-- The stores that come from a missing one by executing lines that name `bookmark`. In between, shells may do
anything but write to the store; what a call prints does not go to the store, and a command that a call executes
leaves it alone. -/
inductive Obtained (k : Kernel κ) : Option (List Char) → Prop
  | missing : Obtained k none
  | call {s s' : Shell κ} {x x' : Option (List Char)} {line : String} {o : Outcome} (before : Obtained k x)
      (held : s.Stored x)
      (newline : '\n' ∉ line.toList)
      (head : (Pipeline.parse line).head.name = Builtin.bookmark.name)
      (executed : s.execute k (Pipeline.parse line) = some (o, s'))
      (stored : s'.Stored x')
      (aside : s'.PrintsAside)
      (replayed : ∀ index, .ofArguments (Pipeline.parse line).head.arguments = Bookmarks.Request.replay (some index) →
        x' = x) : Obtained k x'

/-- A text of records whose commands have no newline and are no bookmarks. -/
def Harmless (x : Option (List Char)) : Prop :=
  ∃ bs, x.getD [] = Bookmarks.toText bs ∧
    ∀ b ∈ bs, '\n' ∉ b.command.toList ∧ (Pipeline.parse b.command).head.name ≠ Builtin.bookmark.name

theorem Harmless.mem {b : Bookmark} (h : Harmless x) (hb : b ∈ Bookmarks.ofText (x.getD [])) :
    '\n' ∉ b.command.toList ∧ (Pipeline.parse b.command).head.name ≠ Builtin.bookmark.name := by
  obtain ⟨bs, hx, hbs⟩ := h
  rw [hx, Bookmarks.ofText_toText fun b hb => (hbs b hb).1] at hb
  exact hbs b (List.mem_of_mem_filter hb)

theorem Harmless.leaves {request : Bookmarks.Request} (h : Harmless x)
    (hnewline : ∀ command, request = .save command → '\n' ∉ command.toList) (hleaves : Leaves x request x') :
    Harmless x' := by
  cases hleaves with
  | same => exact h
  | @saved command index head =>
    obtain ⟨bs, hx, hbs⟩ := h
    refine ⟨bs ++ [⟨index, command⟩], ?_, List.forall_mem_append.2 ⟨hbs, ?_⟩⟩
    · rw [Bookmarks.toText_concat, ← hx]
      rfl
    · exact List.forall_mem_singleton.2 ⟨hnewline command rfl, head⟩
  | removed index => exact ⟨_, rfl, fun b hb => h.mem (List.mem_of_mem_filter hb)⟩
  | lost index => exact ⟨[], rfl, fun b hb => nomatch hb⟩

/-- A command that is given on a line without a newline has none either. -/
theorem newline_not_mem_saved {line command : String} (hline : '\n' ∉ line.toList)
    (h : Bookmarks.Request.ofArguments (Pipeline.parse line).head.arguments = .save command) :
    '\n' ∉ command.toList := by
  have hcommand : command = " ".intercalate (Pipeline.parse line).head.arguments := by
    unfold Bookmarks.Request.ofArguments at h
    split at h <;> cases h
    rfl
  rw [hcommand]
  intro hmem
  rcases mem_intercalate hmem with hblank | ⟨a, ha, hc⟩
  · exact absurd hblank (by decide)
  · exact hline (Pipeline.mem_of_mem_arguments ha hc)

theorem execute_bookmark (k : Kernel κ) (s : Shell κ) (head : p.head.name = Builtin.bookmark.name) :
    ∃ depth, 2 ≤ depth ∧ s.execute k p =
      s.bookmark (executeWithin k depth) p.isBackground (.ofArguments p.head.arguments) := by
  have hb : Builtin.ofName? p.head.name = some .bookmark := by rw [head]; rfl
  obtain ⟨depth, hdepth⟩ := Nat.exists_eq_add_of_le' s.depthBound_ge
  exact ⟨depth + 3, by omega, by rw [execute, hdepth, executeWithin_builtin hb]; rfl⟩

theorem Obtained.harmless (h : Obtained k x) : Harmless x := by
  induction h with
  | missing => exact ⟨[], rfl, fun b hb => nomatch hb⟩
  | @call s s' x x' line o _ held newline head executed stored aside replayed ih =>
    obtain ⟨depth, -, hexecute⟩ := execute_bookmark k s head
    rw [hexecute] at executed
    exact ih.leaves (fun command => newline_not_mem_saved newline)
      (bookmark_leaves held aside stored replayed executed)

/-- On a store that bookmark calls have left behind, no stored command is a bookmark, and every execution ends: it
goes at most two levels deep, and less where its first stage is no bookmark. -/
theorem execute_settles (hobtained : Obtained k x) (hx : s.Stored x) (p : Pipeline) :
    (∀ b ∈ Bookmarks.ofText (x.getD []), (Pipeline.parse b.command).head.name ≠ Builtin.bookmark.name) ∧
    p.nesting ≤ 2 ∧
    ∃ r, s.execute k p = some r ∧ ∀ depth, p.nesting < depth → executeWithin k depth p s = some r := by
  have hloaded : ∀ b ∈ Bookmarks.ofText (x.getD []), (Pipeline.parse b.command).head.name ≠ Builtin.bookmark.name :=
    fun b hb => (hobtained.harmless.mem hb).2
  have hnesting := p.nesting_le_two
  exact ⟨hloaded, hnesting, (settles_of_loaded hx.load hloaded p).execute (by omega)⟩

/-- A shell in the root directory of a tree with these files. -/
def shellOn (files : List (String × String)) : Shell Machine :=
  .start { name := "sh", dataDir := "/" } .shown (.start (Bookmarks.treeOf files) FileTree.root FileTree.root []) {}

def shortcutShell : Shell Machine := shellOn [("shorttxt", "d:/\n")]

def bookmarkShell : Shell Machine := shellOn [("shorttxt", "d:/\n"), ("bookmarktxt", "0 \"short jump d\"\n")]

/-- A bookmark that goes to a shortcut, and so to a directory. -/
theorem execute_settles_short :
    Obtained (Machine.kernel fun _ => none) (some "0 \"short jump d\"\n".toList) ∧
    bookmarkShell.Stored (some "0 \"short jump d\"\n".toList) ∧ (Pipeline.parse "bookmark -i 0").nesting = 2 ∧
    ∃ r, bookmarkShell.execute (Machine.kernel fun _ => none) (Pipeline.parse "bookmark -i 0") = some r ∧
      ∀ depth, 2 < depth →
        executeWithin (Machine.kernel fun _ => none) depth (Pipeline.parse "bookmark -i 0") bookmarkShell = some r := by
  have hstored : bookmarkShell.Stored (some "0 \"short jump d\"\n".toList) :=
    ⟨by decide +kernel, 2, FileTree.newFileMode, by decide +kernel, rfl⟩
  have hmissing : shortcutShell.Stored none := ⟨by decide +kernel, by decide +kernel⟩
  have hsave : Bookmarks.save shortcutShell.host.world.files shortcutShell.host.cwd "/" "short jump d" =
      .ok (some 0, bookmarkShell.host.world.files) := by decide +kernel
  have hrequest : .ofArguments (Pipeline.parse "bookmark short jump d").head.arguments =
      Bookmarks.Request.save "short jump d" := by decide +kernel
  have hhead : (Pipeline.parse "bookmark short jump d").head.name = Builtin.bookmark.name := by decide +kernel
  have hsaved : shortcutShell.execute (Machine.kernel fun _ => none) (Pipeline.parse "bookmark short jump d") =
      some (.done 0, bookmarkShell) := by
    obtain ⟨depth, -, hexecute⟩ := execute_bookmark (Machine.kernel fun _ => none) shortcutShell hhead
    rw [hexecute, hrequest, bookmark, saveBookmark_eq (by decide +kernel) hsave]
    rfl
  have hobtained : Obtained (Machine.kernel fun _ => none) (some "0 \"short jump d\"\n".toList) := by
    have haside : bookmarkShell.PrintsAside := (onStreams_start _ _ _ _ _ _ _).aside
    refine .call .missing hmissing (by decide +kernel) hhead hsaved hstored haside fun index hreplay => ?_
    rw [hrequest] at hreplay
    cases hreplay
  have hnesting : (Pipeline.parse "bookmark -i 0").nesting = 2 := by decide +kernel
  obtain ⟨-, -, r, hr, hsettled⟩ := execute_settles hobtained hstored (Pipeline.parse "bookmark -i 0")
  exact ⟨hobtained, hstored, hnesting, r, hr, hnesting ▸ hsettled⟩

end Shell

end LineShell
