import LineShell.Shell.Commands

/-!
# Builtins and the other processes

What a builtin does of its own does not depend on the other processes: with another kernel state it does the same, if
the pipelines that it executes do (`runBuiltin_mapKernel`).
-/

namespace LineShell.Shell

variable {κ : Type u} {κ' : Type v} {f : κ' → κ} {again : Again κ} {again' : Again κ'}

/-- The shell with another kernel state. -/
def mapKernel (f : κ' → κ) (s : Shell κ') : Shell κ :=
  ⟨s.config, s.editor, s.jobs, s.diagnostics, s.host, f s.kernel⟩

/-- What an execution came to, with another kernel state. -/
def onKernel (f : κ' → κ) (r : Outcome × Shell κ') : Outcome × Shell κ := (r.1, r.2.mapKernel f)

@[simp] theorem mapKernel_host (s : Shell κ') : (s.mapKernel f).host = s.host := rfl

@[simp] theorem mapKernel_config (s : Shell κ') : (s.mapKernel f).config = s.config := rfl

theorem mapKernel_print (s : Shell κ') (line : String) : (s.mapKernel f).print line = (s.print line).mapKernel f := rfl

theorem mapKernel_emit (s : Shell κ') (line : String) : (s.mapKernel f).emit line = (s.emit line).mapKernel f := by
  obtain ⟨config, editor, jobs, diagnostics, host, kernel⟩ := s
  cases diagnostics <;> rfl

theorem failOn_mapKernel (s : Shell κ') (command : String) (e : IoError) :
    (s.mapKernel f).failOn command e = onKernel f (s.failOn command e) := by
  simp only [failOn, onKernel, reportFor, report, mapKernel_emit, mapKernel_config]

theorem changeDirectory_mapKernel (s : Shell κ') (arguments : List String) :
    (s.mapKernel f).changeDirectory arguments = onKernel f (s.changeDirectory arguments) := by
  cases arguments with
  | nil => rfl
  | cons path _ =>
    simp only [changeDirectory, mapKernel_host]
    cases s.host.changeDirectory path with
    | ok host => rfl
    | error e => simp only [onKernel, reportFor, report, mapKernel_emit, mapKernel_config]

theorem listBookmarks_mapKernel (s : Shell κ') : (s.mapKernel f).listBookmarks = onKernel f s.listBookmarks := by
  simp only [listBookmarks, mapKernel_host, mapKernel_config]
  cases Bookmarks.load s.host.world.files s.host.cwd s.config.dataDir with
  | error e => exact failOn_mapKernel s _ e
  | ok bs =>
    simp only [onKernel]
    induction bs generalizing s with
    | nil => rfl
    | cons b bs ih => exact ih (s.print _)

theorem removeBookmark_mapKernel (s : Shell κ') (index : Nat) :
    (s.mapKernel f).removeBookmark index = onKernel f (s.removeBookmark index) := by
  simp only [removeBookmark, mapKernel_host, mapKernel_config]
  obtain ⟨result, files⟩ := Bookmarks.remove s.host.world.files s.host.cwd s.config.dataDir index
  cases result with
  | error e => exact failOn_mapKernel { s with host := s.host.withFiles files } _ e
  | ok found => cases found <;> rfl

theorem saveBookmark_mapKernel (s : Shell κ') (command : String) :
    (s.mapKernel f).saveBookmark command = onKernel f (s.saveBookmark command) := by
  simp only [saveBookmark, mapKernel_host, mapKernel_config]
  split
  · rfl
  · cases Bookmarks.save s.host.world.files s.host.cwd s.config.dataDir command with
    | error e => exact failOn_mapKernel s _ e
    | ok saved => rfl

theorem setShortcut_mapKernel (s : Shell κ') (name : String) :
    (s.mapKernel f).setShortcut name = onKernel f (s.setShortcut name) := by
  simp only [setShortcut, mapKernel_host, mapKernel_config]
  split
  · rfl
  · cases s.host.workingDirectory with
    | error e => exact failOn_mapKernel s _ _
    | ok directory =>
      dsimp only
      cases Shortcuts.set s.host.world.files s.host.cwd s.config.dataDir name directory with
      | error e => exact failOn_mapKernel s _ e
      | ok stored => rfl

/-- Other pipelines are executed in the same way on the other kernel. -/
def Follows (f : κ' → κ) (again : Again κ) (again' : Again κ') : Prop :=
  ∀ p s, again p (s.mapKernel f) = (again' p s).map (onKernel f)

theorem bookmark_mapKernel (hagain : Follows f again again') (s : Shell κ') (background : Bool)
    (request : Bookmarks.Request) :
    (s.mapKernel f).bookmark again background request = (s.bookmark again' background request).map (onKernel f) := by
  unfold bookmark
  split
  · rfl
  · exact congrArg some (listBookmarks_mapKernel s)
  · rfl
  · exact congrArg some (removeBookmark_mapKernel s _)
  · rfl
  · simp only [replayBookmark, mapKernel_host, mapKernel_config]
    split
    · exact congrArg some (failOn_mapKernel s _ _)
    · rfl
    · split
      · rfl
      · exact hagain _ _
  · exact congrArg some (saveBookmark_mapKernel s _)

theorem short_mapKernel (hagain : Follows f again again') (s : Shell κ') (background : Bool)
    (request : Shortcuts.Request) :
    (s.mapKernel f).short again background request = (s.short again' background request).map (onKernel f) := by
  unfold short
  split
  · rfl
  · exact congrArg some (setShortcut_mapKernel s _)
  · simp only [jump, mapKernel_host, mapKernel_config]
    split
    · exact congrArg some (failOn_mapKernel s _ _)
    · rfl
    · exact hagain _ _
  · rfl

theorem pingEach_mapKernel (hagain : Follows f again again') (subnet : String) (background : Bool) (hosts : List Nat)
    (status : UInt8) (s : Shell κ') :
    pingEach again subnet background hosts status (s.mapKernel f) =
      (pingEach again' subnet background hosts status s).map (onKernel f) := by
  induction hosts generalizing status s with
  | nil => rfl
  | cons host hosts ih =>
    rw [pingEach, pingEach, hagain]
    cases again' (.single { pingStage subnet host with background }) s with
    | none => rfl
    | some r =>
      obtain ⟨o, s'⟩ := r
      cases o with
      | done status => exact ih status s'
      | detached => exact ih status s'
      | exit => rfl

theorem pingSweep_mapKernel (hagain : Follows f again again') (s : Shell κ') (background : Bool)
    (arguments : List String) :
    (s.mapKernel f).pingSweep again background arguments =
      (s.pingSweep again' background arguments).map (onKernel f) := by
  unfold pingSweep
  split
  · split
    · rfl
    · simp only [mapKernel_host, mapKernel_print]
      by_cases hnone : (Search.resolve s.host.world.files s.host.cwd s.host.searchPath "ping").isNone = true
      · simp only [hnone, if_true, report, mapKernel_emit, mapKernel_config]
        rfl
      · simp only [hnone]
        exact pingEach_mapKernel hagain _ _ _ _ _
  · rfl

theorem runBuiltin_mapKernel (hagain : Follows f again again') (s : Shell κ') (arguments : List String)
    (background : Bool) (b : Builtin) :
    (s.mapKernel f).runBuiltin again arguments background b =
      (s.runBuiltin again' arguments background b).map (onKernel f) := by
  cases b with
  | bookmark => exact bookmark_mapKernel hagain s background _
  | cd => exact congrArg some (changeDirectory_mapKernel s arguments)
  | exit => rfl
  | pingsweep => exact pingSweep_mapKernel hagain s background arguments
  | short => exact short_mapKernel hagain s background _

end LineShell.Shell
