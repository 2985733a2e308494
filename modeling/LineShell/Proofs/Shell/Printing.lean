import LineShell.Proofs.Store.Bookmarks
import LineShell.Shell.Commands

/-!
# Printing and the store of bookmarks

A shell whose output goes to the streams of the world does not change its store by printing (`OnStreams.aside`).
If its output is sent to a file, that could be the store itself.
-/

namespace LineShell

/-- One of the two streams that the world keeps. -/
def OpenFile.IsStream (file : OpenFile) : Prop := file = .output ∨ file = .error

namespace World

variable {w w' : World} {f g : FileId} {bytes : Bytes} {file : OpenFile}

/-- Writing neither makes streams of open files nor the other way round. -/
theorem file?_of_write (h : w.write f bytes = .ok w') (hstream : file.IsStream) :
    w'.file? g = some file ↔ w.file? g = some file := by
  unfold World.write at h
  split at h
  · rename_i i mode offset hfile
    cases h
    by_cases hg : f = g
    · subst hg
      have hlt := (Array.getElem?_eq_some_iff.1 hfile).1
      rw [hfile, World.file?, Array.getElem?_setIfInBounds_self_of_lt hlt]
      rcases hstream with rfl | rfl <;> simp
    · rw [World.file?, World.file?, Array.getElem?_setIfInBounds_ne hg]
  · cases h
    rfl
  · cases h
    rfl
  · cases h
    rfl
  · cases h

/-- What goes to a stream goes to no file of the tree. -/
theorem files_of_write (h : w.write f bytes = .ok w') (hfile : w.file? f = some file) (hstream : file.IsStream) :
    w'.files = w.files := by
  unfold World.write at h
  rw [hfile] at h
  rcases hstream with rfl | rfl <;> cases h <;> rfl

end World

/-- Writing comes to nothing, or to writing to the file that the descriptor stands for. -/
theorem Host.write_cases (h : Host) (d : Descriptor) (bytes : Bytes) : h.write d bytes = h ∨
    ∃ f w, h.table.file? d = some f ∧ h.world.write f bytes = .ok w ∧ h.write d bytes = { h with world := w } := by
  unfold Host.write
  split
  · exact Or.inl rfl
  · rename_i f hfile
    split
    · rename_i w hwrite
      exact Or.inr ⟨f, w, hfile, hwrite, rfl⟩
    · exact Or.inl rfl

namespace Shell

variable {κ : Type u} {s s₀ s' : Shell κ} {x x' : Option (List Char)} {d : Descriptor} {bytes : Bytes}

/-- What the store of a shell holds. -/
def Stored (s : Shell κ) (x : Option (List Char)) : Prop :=
  Store.Holds s.host.world.files s.host.cwd (Bookmarks.path s.config.dataDir) x

theorem Stored.load (h : s.Stored x) :
    Bookmarks.load s.host.world.files s.host.cwd s.config.dataDir = .ok (Bookmarks.ofText (x.getD [])) :=
  Bookmarks.load_eq h

/-- The second shell is the first after printing. -/
inductive Printed : Shell κ → Shell κ → Prop
  | refl (s : Shell κ) : Printed s s
  | print {s s' : Shell κ} (line : String) : Printed s s' → Printed s (s'.print line)
  | emit {s s' : Shell κ} (line : String) : Printed s s' → Printed s (s'.emit line)

theorem printed_each {α : Type} (line : α → String) (xs : List α) {s s' : Shell κ} (h : Printed s s') :
    Printed s (xs.foldl (fun s x => s.print (line x)) s') := by
  induction xs generalizing s' with
  | nil => exact h
  | cons x xs ih => exact ih (h.print (line x))

/-- What the shell has printed did not go to the store. -/
def PrintsAside (s : Shell κ) : Prop := ∀ s₀ x, Printed s₀ s → s₀.Stored x → s.Stored x

theorem PrintsAside.eq (haside : s'.PrintsAside) (hx' : s'.Stored x') (hprinted : Printed s₀ s') (hx : s₀.Stored x) :
    x' = x :=
  Store.Holds.unique hx' (haside s₀ x hprinted hx)

/-- Output and diagnostics go to the streams of the world, or nowhere. -/
def OnStreams (s : Shell κ) : Prop := ∀ d ∈ [Descriptor.output, Descriptor.error], ∀ f, s.host.table.file? d = some f →
  ∃ file, s.host.world.file? f = some file ∧ file.IsStream

/-- The file tree, and the place from where a shell looks at it, are the same. -/
structure SameTree (s s' : Shell κ) : Prop where
  files : s'.host.world.files = s.host.world.files
  cwd : s'.host.cwd = s.host.cwd
  config : s'.config = s.config

theorem SameTree.refl (s : Shell κ) : SameTree s s := ⟨rfl, rfl, rfl⟩

theorem SameTree.trans {s s' s'' : Shell κ} (h : SameTree s s') (h' : SameTree s' s'') : SameTree s s'' :=
  ⟨h'.files.trans h.files, h'.cwd.trans h.cwd, h'.config.trans h.config⟩

/-- A shell that has its output on streams had it there before it wrote, and the file tree is as it was. -/
theorem OnStreams.of_write (hd : d ∈ [Descriptor.output, Descriptor.error])
    (h : OnStreams { s with host := s.host.write d bytes }) :
    s.OnStreams ∧ SameTree s { s with host := s.host.write d bytes } := by
  rcases Host.write_cases s.host d bytes with hsame | ⟨f, w, hfile, hwrite, hwritten⟩
  · rw [hsame] at h ⊢
    exact ⟨h, .refl s⟩
  · rw [hwritten] at h ⊢
    have hbefore : s.OnStreams := by
      intro d' hd' g hg
      obtain ⟨file, hopen, hstream⟩ := h d' hd' g hg
      exact ⟨file, (World.file?_of_write hwrite hstream).1 hopen, hstream⟩
    obtain ⟨file, hopen, hstream⟩ := hbefore d hd f hfile
    exact ⟨hbefore, World.files_of_write hwrite hopen hstream, rfl, rfl⟩

theorem OnStreams.of_emit {line : String} (h : OnStreams (s.emit line)) :
    s.OnStreams ∧ SameTree s (s.emit line) := by
  unfold emit at h ⊢
  split at h
  · exact OnStreams.of_write (by decide) h
  · exact ⟨h, rfl, rfl, rfl⟩

theorem OnStreams.of_printed (hprinted : Printed s₀ s) (h : s.OnStreams) : s₀.OnStreams ∧ SameTree s₀ s := by
  induction hprinted with
  | refl => exact ⟨h, .refl _⟩
  | print line _ ih =>
    obtain ⟨hbefore, hstep⟩ := OnStreams.of_write (by decide) h
    exact ⟨(ih hbefore).1, (ih hbefore).2.trans hstep⟩
  | emit line _ ih =>
    obtain ⟨hbefore, hstep⟩ := OnStreams.of_emit h
    exact ⟨(ih hbefore).1, (ih hbefore).2.trans hstep⟩

theorem onStreams_start (config : Config) (diagnostics : Diagnostics) (files : FileTree) (cwd input : NodeId)
    (environment : List (String × String)) (kernel : κ) :
    (Shell.start config diagnostics (.start files cwd input environment) kernel).OnStreams := by
  simp only [OnStreams, List.forall_mem_cons, List.not_mem_nil, false_imp_iff, implies_true, and_true]
  refine ⟨fun f hf => ?_, fun f hf => ?_⟩
  · cases hf
    exact ⟨.output, rfl, Or.inl rfl⟩
  · cases hf
    exact ⟨.error, rfl, Or.inr rfl⟩

theorem OnStreams.aside (h : s.OnStreams) : s.PrintsAside := fun s₀ x hprinted hx => by
  have hsame := (h.of_printed hprinted).2
  rwa [Stored, hsame.files, hsame.cwd, hsame.config]

end Shell

end LineShell
