import LineShell.Proofs.Files.Content

/-!
# Writing under one of two paths

What is written under a path stays there, unless there is something that keeps nothing (`Retains`). Two paths may lead
to two places (`Apart`). Writing under one of them leaves it so (`Retains.of_writes`, `Apart.of_openWrite`), and makes
no link of what is at the end of a path (`EndsInLink.of_alike`).
-/

namespace LineShell.FileTree

variable {t t' : FileTree} {keep truncate : Bool} {cwd i : NodeId} {path path' : String} {spot : Spot}
  {content : Bytes}

/-- What is written under the path, if it can be written, is found there. -/
def Retains (t : FileTree) (cwd : NodeId) (path : String) : Prop :=
  ∀ spot, t.resolve cwd path = .ok spot → ∀ i ∈ spot.node, t.IsFile i ∨ t.isDirectory i = true

/-- The paths lead neither to one name in one directory nor to one node. -/
def Apart (t : FileTree) (cwd : NodeId) (path path' : String) : Prop :=
  ∀ spot spot', t.resolve cwd path = .ok spot → t.resolve cwd path' = .ok spot' →
    ¬ (spot.directory = spot'.directory ∧ spot.name = spot'.name) ∧ ∀ i ∈ spot.node, i ∉ spot'.node

theorem Apart.symm (h : t.Apart cwd path path') : t.Apart cwd path' path := by
  intro spot spot' hspot hspot'
  obtain ⟨hplace, hnode⟩ := h spot' spot hspot' hspot
  exact ⟨fun heq => hplace ⟨heq.1.symm, heq.2.symm⟩, fun i hi hi' => hnode i hi' hi⟩

theorem Apart.locate_ne (h : t.Apart cwd path path') (hi : t.locate cwd path = .ok i) :
    t.locate cwd path' ≠ .ok i := by
  intro hi'
  obtain ⟨spot, hspot, hnode, -⟩ := locate_iff_resolve.1 hi
  obtain ⟨spot', hspot', hnode', -⟩ := locate_iff_resolve.1 hi'
  exact (h spot spot' hspot hspot').2 i hnode hnode'

/-- Where a name was not changed, a path led to the same node. -/
theorem on_node_of_find (hspot : t'.resolve cwd path keep = .ok spot)
    (hfind : ∀ name ∈ spot.name, t'.find spot.directory name = t.find spot.directory name) :
    (spot.on t).node = spot.node := by
  cases hname : spot.name with
  | none => simp [Spot.on, hname]
  | some name => rw [Spot.on_node hname, ← hfind name hname, ← Spot.on_node hname, on_of_resolve hspot]

theorem EndsInLink.of_alike (halike : t.Alike t') (h : t'.EndsInLink (t'.resolve cwd path keep)) :
    t.EndsInLink (t.resolve cwd path keep) := by
  obtain ⟨spot, i, target, hspot, hi, hlink⟩ := h
  refine ⟨spot.on t, i, target, resolve_alike halike.symm hspot, ?_, (halike.link i target).1 hlink⟩
  rw [on_node_of_find hspot, hi]
  intro name hname
  rcases halike.find spot.directory name with hsame | ⟨-, hplain⟩
  · exact hsame
  · have hfound : t'.find spot.directory name = some i := by rw [← Spot.on_node hname, on_of_resolve hspot, hi]
    obtain ⟨content, mode, hfile⟩ := hplain i hfound
    cases hlink.symm.trans hfile

theorem Regular.not_endsInLink (h : t.Regular cwd path) : ¬ t.EndsInLink (t.resolve cwd path true) := by
  rintro ⟨spot, i, target, hspot, hi, hlink⟩
  obtain ⟨content, mode, hfile⟩ := h spot hspot i hi
  cases hlink.symm.trans hfile

theorem Regular.retains (h : t.Regular cwd path) : t.Retains cwd path :=
  fun spot hspot i hi => Or.inl (h spot (h.resolve hspot) i hi)

theorem Retains.of_writes (h : t.Retains cwd path) (hwrites : t.Writes i content t') : t'.Retains cwd path := by
  intro spot hspot j hj
  by_cases hfind : ∀ name ∈ spot.name, t'.find spot.directory name = t.find spot.directory name
  · have hj' : j ∈ (spot.on t).node := (on_node_of_find hspot hfind).symm ▸ hj
    exact (h _ (resolve_alike hwrites.alike.symm hspot) j hj').imp hwrites.isFile (hwrites.directory j).trans
  · simp only [not_forall] at hfind
    obtain ⟨name, hname, hchanged⟩ := hfind
    -- under a name that is new there is the file that was written
    obtain ⟨-, hnew⟩ := (hwrites.find spot.directory name).resolve_left hchanged
    have hnode : spot.node = some i := by rw [← hnew, ← Spot.on_node hname, on_of_resolve hspot]
    obtain rfl := Option.some.inj (hnode.symm.trans hj)
    exact Or.inl ⟨content, hwrites.file⟩

/-- What can be opened for writing, and keeps what is written, is a file. -/
theorem Retains.plain (h : t.Retains cwd path) (hopen : t.openWrite cwd path truncate = .ok (i, t'))
    (hspot : t.resolve cwd path = .ok spot) : t.Plain spot.node := by
  obtain ⟨spot', name, hspot', -, -, hcase⟩ := openWrite_cases hopen
  obtain rfl := Except.ok.inj (hspot.symm.trans hspot')
  intro j hj
  rcases hcase with ⟨hnone, -⟩ | ⟨hi, hkind, -⟩
  · cases hnone.symm.trans hj
  · obtain rfl := Option.some.inj (hi.symm.trans hj)
    rcases hkind with hfile | ⟨hother, -⟩
    · exact hfile
    · exact (h spot hspot i hi).resolve_right (by simp [hother])

theorem Apart.of_openWrite (h : t.Apart cwd path path') (hretains : t.Retains cwd path)
    (hretains' : t.Retains cwd path') (hopen : t.openWrite cwd path truncate = .ok (i, t')) (content : Bytes) :
    (t'.setContent i content).Apart cwd path path' := by
  obtain ⟨spot, content₁, hspot, -, hwrites, hopened, hnode⟩ :=
    openWrite_spec (fun _ => hretains.plain hopen) hopen
  obtain ⟨mode, hfile⟩ := hwrites.file
  have halike := (hwrites.setContent content).alike
  have hopened' := resolve_setContent hopened hfile content
  intro spot₁ spot₂ hspot₁ hspot₂
  obtain rfl := Except.ok.inj (hopened'.symm.trans hspot₁)
  have hold := resolve_alike halike.symm hspot₂
  obtain ⟨hplace, hnodes⟩ := h spot (spot₂.on t) hspot hold
  refine ⟨hplace, fun k hk hi => ?_⟩
  obtain rfl := Option.some.inj hk
  -- the other path ends under a name that was not changed
  have hsame : i ∈ (spot₂.on t).node := by
    rw [on_node_of_find hspot₂]
    · exact hi
    · intro name hname
      rw [find_setContent]
      exact (find_openWrite hspot hopen spot₂.directory name).resolve_right fun hchanged =>
        hplace ⟨hchanged.1.symm, hchanged.2.trans hname.symm⟩
  rcases hnode with ⟨-, hnew, -⟩ | ⟨hi', -⟩
  · rcases hretains' _ hold i hsame with ⟨_, _, hfile'⟩ | hdirectory
    · cases hnew.symm.trans hfile'
    · simp [isDirectory, hnew] at hdirectory
  · exact hnodes i hi' hsame

end LineShell.FileTree
