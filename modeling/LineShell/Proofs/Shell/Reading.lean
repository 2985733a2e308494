import LineShell.Proofs.Editor.Reading
import LineShell.Proofs.Shell.Frame

/-!
# Reading the next line

What of its input a shell has not used is `Host.left`, whether it has been read or not. A read uses
that up from its beginning and at least one byte of it, if there is one (`readLine_readsTo`); where
nothing is left, it takes the line that the editor was seeded with, or finds the end of the input
(`readLine_of_used`).
-/

namespace LineShell

namespace Host

variable {h h' : Host}

/-- What of standard input has not been used. -/
def left (h : Host) : Bytes := h.unread ++ h.comingInput.1

/-- A host reads a file, and writes to the stream that it was given for its output. -/
structure Attached (h : Host) : Prop where
  input : ∃ f i offset content, h.table.file? Descriptor.input = some f ∧
    h.world.file? f = some (.node i .read offset) ∧ h.world.files.contentOf i = .ok content
  output : ∃ f, h.table.file? Descriptor.output = some f ∧ h.world.file? f = some .output

/-- The input of a host comes from a file of the tree. -/
theorem comingInput_eq {f : FileId} {i : NodeId} {offset : Nat} {content : Bytes}
    (htable : h.table.file? Descriptor.input = some f) (hfile : h.world.file? f = some (.node i .read offset))
    (hcontent : h.world.files.contentOf i = .ok content) : h.comingInput = (content.drop offset, .used) := by
  simp only [comingInput, htable, Option.bind_some, hfile, hcontent]

theorem Attached.comingInput_ending (ha : h.Attached) : h.comingInput.2 = .used := by
  obtain ⟨f, i, offset, content, htable, hfile, hcontent⟩ := ha.input
  rw [comingInput_eq htable hfile hcontent]

/-- The host stays attached while others go on and leave the tree as it is, and nothing is put back. -/
theorem Attached.advances (ha : h.Attached) (hadvances : h.Advances h') (htable : h'.table = h.table)
    (hfiles : h'.world.files = h.world.files) : h'.Attached ∧ h'.left.length ≤ h.left.length := by
  obtain ⟨f, i, offset, content, hinput, hfile, hcontent⟩ := ha.input
  obtain ⟨f', houtput, hstream⟩ := ha.output
  obtain ⟨file', hfile', offset', hle, rfl⟩ := hadvances.world f _ hfile
  obtain ⟨stream', hstream', hsame⟩ := hadvances.world f' _ hstream
  rw [← htable] at hinput houtput
  obtain rfl : stream' = .output := hsame
  have hcontent' : h'.world.files.contentOf i = .ok content := by rwa [hfiles]
  refine ⟨⟨⟨f, i, offset', content, hinput, hfile', hcontent'⟩, f', houtput, hstream'⟩, ?_⟩
  rw [left, left, comingInput_eq hinput hfile' hcontent', comingInput_eq (htable ▸ hinput) hfile hcontent,
    hadvances.unread, List.length_append, List.length_append, List.length_drop, List.length_drop]
  omega

/-- As many blocks as it takes are enough. -/
theorem le_blocks (missing : Nat) : missing ≤ (missing + blockSize - 1) / blockSize * blockSize := by
  unfold blockSize
  omega

/-- What is used up comes from what has been read, and then from as many blocks as that takes. -/
theorem useInput_eq {f : FileId} {i : NodeId} {offset count : Nat} {content : Bytes}
    (htable : h.table.file? Descriptor.input = some f) (hfile : h.world.file? f = some (.node i .read offset))
    (hcontent : h.world.files.contentOf i = .ok content)
    (hcount : count ≤ (h.unread ++ content.drop offset).length) :
    ∃ bytes, bytes <+: content.drop offset ∧ count ≤ (h.unread ++ bytes).length ∧ h.useInput count = { h with
      world := { h.world with
        opened := h.world.opened.setIfInBounds f (.node i .read (offset + bytes.length)) }
      unread := (h.unread ++ bytes).drop count } := by
  have hblocks := le_blocks (count - h.unread.length)
  refine ⟨_, List.take_prefix _ _, ?_, by simp only [Host.useInput, htable, World.read, hfile, hcontent]; rfl⟩
  rw [List.length_append] at hcount ⊢
  rw [List.length_take]
  omega

/-- Bytes that are read from what is coming are left nevertheless. -/
theorem drop_of_read {unread bytes coming : Bytes} {count : Nat} (hbytes : bytes <+: coming)
    (hcount : count ≤ (unread ++ bytes).length) :
    (unread ++ bytes).drop count ++ coming.drop bytes.length = (unread ++ coming).drop count := by
  calc (unread ++ bytes).drop count ++ coming.drop bytes.length
      = (unread ++ bytes ++ coming.drop bytes.length).drop count :=
        (List.drop_append_of_le_length hcount).symm
    _ = (unread ++ coming).drop count := by rw [List.append_assoc, List.prefix_iff_eq_append.1 hbytes]

/-- Using up input leaves the rest of it. -/
theorem Attached.useInput (ha : h.Attached) {count : Nat} (hcount : count ≤ h.left.length) :
    (h.useInput count).Attached ∧ (h.useInput count).left = h.left.drop count ∧
      (h.useInput count).world.files = h.world.files ∧ (h.useInput count).cwd = h.cwd ∧
      (h.useInput count).environment = h.environment := by
  obtain ⟨f, i, offset, content, hinput, hfile, hcontent⟩ := ha.input
  obtain ⟨f', houtput, hstream⟩ := ha.output
  have hne : f ≠ f' := by
    rintro rfl
    rw [hfile] at hstream
    cases hstream
  have hleft : h.left = h.unread ++ content.drop offset := by rw [left, comingInput_eq hinput hfile hcontent]
  rw [hleft] at hcount ⊢
  obtain ⟨hlt, -⟩ := Array.getElem?_eq_some_iff.1 hfile
  obtain ⟨bytes, hbytes, henough, heq⟩ := useInput_eq hinput hfile hcontent hcount
  have hinput' : (h.useInput count).table.file? Descriptor.input = some f := by rwa [heq]
  have hfile' : (h.useInput count).world.file? f = some (.node i .read (offset + bytes.length)) := by
    rw [heq]
    exact Array.getElem?_setIfInBounds_self_of_lt hlt
  have hcontent' : (h.useInput count).world.files.contentOf i = .ok content := by rwa [heq]
  have hstream' : (h.useInput count).world.file? f' = some .output := by
    rw [heq]
    exact (Array.getElem?_setIfInBounds_ne hne).trans hstream
  refine ⟨⟨⟨f, i, _, content, hinput', hfile', hcontent'⟩, f', by rwa [heq], hstream'⟩, ?_, ?_⟩
  · rw [left, comingInput_eq hinput' hfile' hcontent', ← drop_of_read hbytes henough, heq, List.drop_drop]
  · rw [heq]
    exact ⟨rfl, rfl, rfl⟩

theorem Attached.write_output (ha : h.Attached) (bytes : Bytes) :
    h.write Descriptor.output bytes = { h with world := { h.world with out := h.world.out ++ bytes } } := by
  obtain ⟨f, htable, hfile⟩ := ha.output
  simp only [Host.write, htable, World.write, hfile]

/-- A host that starts with an input of its own is attached to it. -/
theorem attached_startReading (files : FileTree) (cwd : NodeId) (input : Bytes)
    (environment : List (String × String)) : (startReading files cwd input environment).Attached where
  input := by
    refine ⟨0, files.nodes.size, 0, input, rfl, rfl, ?_⟩
    simp [startReading, start, FileTree.addNameless, FileTree.contentOf, FileTree.node?]
  output := ⟨1, rfl, rfl⟩

end Host

namespace Shell

variable {κ : Type u} {s s' s'' : Shell κ}

/-- What completions and the next seed depend on is the same. -/
structure Alike (s s' : Shell κ) : Prop where
  files : s'.host.world.files = s.host.world.files
  cwd : s'.host.cwd = s.host.cwd
  environment : s'.host.environment = s.host.environment
  capacity : s'.editor.capacity = s.editor.capacity

namespace Alike

theorem trans (h : s.Alike s') (h' : s'.Alike s'') : s.Alike s'' :=
  ⟨h'.files.trans h.files, h'.cwd.trans h.cwd, h'.environment.trans h.environment, h'.capacity.trans h.capacity⟩

theorem completion_eq (h : s.Alike s') (line : String) : s'.completion line = s.completion line := by
  unfold completion Host.searchPath
  rw [h.files, h.cwd, h.environment]

end Alike

/-- The read of the next line. -/
def nextRead (s : Shell κ) : Editor.Read := s.editor.edit {} s.host.left s.host.comingInput.2

theorem readLine_eq (s : Shell κ) : s.readLine = (s.nextRead.result.toOption.getD .eof, { s with
    editor := s.nextRead.editor
    host := s.host.useInput (s.host.left.length - s.nextRead.rest.length) }) := rfl

/-- What a read leaves behind. -/
structure ReadsTo (s s' : Shell κ) : Prop where
  attached : s'.host.Attached
  alike : s.Alike s'
  pending : s'.editor.pending = none
  left : s'.host.left.length ≤ s.host.left.length
  progress : s.host.left ≠ [] → s'.host.left.length < s.host.left.length

theorem readLine_readsTo (ha : s.host.Attached) : s.ReadsTo s.readLine.2 := by
  have hrest : s.nextRead.rest <:+ s.host.left := Editor.edit_rest _ _ _
  obtain ⟨hcapacity, hpending⟩ := Editor.edit_keeps s.editor s.host.left s.host.comingInput.2
  obtain ⟨hattached, hleft, hfiles, hcwd, henvironment⟩ :=
    ha.useInput (Nat.sub_le s.host.left.length s.nextRead.rest.length)
  rw [← List.suffix_iff_eq_drop.1 hrest] at hleft
  rw [readLine_eq]
  refine ⟨hattached, ⟨hfiles, hcwd, henvironment, hcapacity⟩, hpending, ?_, fun hne => ?_⟩
  · rw [hleft]
    exact hrest.length_le
  · rw [hleft]
    exact Editor.edit_rest_length_lt s.editor _ hne

/-- Where nothing is left, only the seed is read. -/
theorem readLine_of_used (ha : s.host.Attached) (hused : s.host.left = []) :
    s.readLine.1 = if s.editor.seedBytes = [] then .eof else .line s.editor.pendingLine := by
  rw [readLine_eq, nextRead, hused, ha.comingInput_ending]
  dsimp only
  rw [Editor.edit_of_used]
  rfl

/-- Offering a completion changes nothing but the seed and what is on the screen. -/
theorem offerCompletion_spec (ha : s.host.Attached) (line : String) :
    (s.offerCompletion line).host.Attached ∧ s.Alike (s.offerCompletion line) ∧
      (s.offerCompletion line).host.left = s.host.left ∧
      (s.offerCompletion line).editor = s.editor.seed (s.completion line).line := by
  unfold offerCompletion
  dsimp only
  split
  · rw [print, ha.write_output]
    obtain ⟨hinput, houtput⟩ := ha
    exact ⟨⟨hinput, houtput⟩, ⟨rfl, rfl, rfl, rfl⟩, rfl, rfl⟩
  · exact ⟨ha, ⟨rfl, rfl, rfl, rfl⟩, rfl, rfl⟩

end Shell

end LineShell
