import LineShell.Shell.Launch
import Mathlib.Data.List.Nodup

/-!
# What a descriptor table holds after an operation

`slot?_close`, `slot?_assign`, `slot?_duplicate` and `slot?_afterExec` say what every descriptor
stands for afterwards. `Adds` is the relation of a table to the one it grew from by opening files for
the shell alone: it is kept by opening more of them, and closing all of them brings the old table
back (`Adds.closeEvery`).
-/

namespace LineShell.DescriptorTable

variable {t t' : DescriptorTable} {d : Descriptor} {s : Slot}

theorem ext_slots (h : t.slots = t'.slots) : t = t' := by
  cases t
  cases t'
  simpa using h

/-- The entries of a table are what its descriptors stand for. -/
theorem mem_slots_iff : (d, s) ∈ t.slots ↔ t.slot? d = some s := by
  have hnodup := t.nodup
  unfold slot?
  generalize t.slots = entries at hnodup
  induction entries with
  | nil => simp
  | cons entry entries ih =>
    obtain ⟨x, s'⟩ := entry
    rw [List.map_cons, List.nodup_cons] at hnodup
    have hrest := ih hnodup.2
    rw [List.mem_cons, List.lookup_cons]
    by_cases hd : d = x
    · subst hd
      have habsent : (d, s) ∉ entries := fun hmem => hnodup.1 (List.mem_map.2 ⟨_, hmem, rfl⟩)
      simp [habsent, eq_comm]
    · have hne : (d == x) = false := by simpa using hd
      simp [hne, hd, hrest]

/-! ## One operation -/

theorem slot?_close (t : DescriptorTable) (d x : Descriptor) :
    (t.close d).slot? x = if x = d then none else t.slot? x := by
  ext s
  rw [← mem_slots_iff]
  by_cases hx : x = d <;> simp [close, hx, mem_slots_iff]

theorem slot?_assign (t : DescriptorTable) (d x : Descriptor) (s : Slot) :
    (t.assign d s).slot? x = if x = d then some s else t.slot? x := by
  ext s'
  rw [← mem_slots_iff]
  by_cases hx : x = d
  · simp only [assign, close, hx, if_pos]
    simp [eq_comm]
  · simp [assign, close, hx, mem_slots_iff]

theorem slot?_duplicate {source target : Descriptor} (hsource : t.slot? source = some s)
    (hne : source ≠ target) (x : Descriptor) :
    (t.duplicate source target).slot? x = if x = target then some ⟨s.file, false⟩ else t.slot? x := by
  simp only [duplicate, hsource, if_neg hne, slot?_assign]

theorem slot?_afterExec (t : DescriptorTable) (d : Descriptor) :
    t.afterExec.slot? d = (t.slot? d).filter (!·.closeOnExec) := by
  ext s
  rw [← mem_slots_iff, Option.filter_eq_some_iff, ← mem_slots_iff]
  simp [afterExec]

/-! ## Opening and closing -/

theorem slots_closeAll (t : DescriptorTable) (ds : List Descriptor) :
    (ds.foldl close t).slots = t.slots.filter fun entry => entry.1 ∉ ds := by
  induction ds generalizing t with
  | nil => simp
  | cons d ds ih =>
    rw [List.foldl_cons, ih]
    simp only [close, List.filter_filter, List.mem_cons, not_or]
    exact List.filter_congr fun entry _ => by simp [Bool.and_comm]

/-- The second table is the first one with files that the shell has opened since for itself. -/
def Adds (t : DescriptorTable) (news : List (Descriptor × FileId)) (t' : DescriptorTable) : Prop :=
  t'.slots = news.map (fun new => (new.1, ⟨new.2, true⟩)) ++ t.slots

namespace Adds

variable {news : List (Descriptor × FileId)}

theorem refl (t : DescriptorTable) : t.Adds [] t := rfl

theorem eq (h : t.Adds [] t') : t' = t := ext_slots h

/-- Opening a file adds it. -/
theorem allocate (h : t.Adds news t') (f : FileId) :
    t.Adds ((t'.firstFree, f) :: news) (t'.allocate { file := f, closeOnExec := true }).2 := by
  unfold Adds at h ⊢
  simp [DescriptorTable.allocate, h]

theorem nodup (h : t.Adds news t') : (news.map (·.1) ++ t.slots.map (·.1)).Nodup := by
  have hnodup := t'.nodup
  rw [show t'.slots = _ from h] at hnodup
  simpa [Function.comp_def] using hnodup

theorem slot?_new (h : t.Adds news t') {f : FileId} (hnew : (d, f) ∈ news) :
    t'.slot? d = some ⟨f, true⟩ := by
  rw [← mem_slots_iff, show t'.slots = _ from h]
  exact List.mem_append_left _ (List.mem_map_of_mem hnew)

theorem slot?_old (h : t.Adds news t') (hold : t.slot? d = some s) : t'.slot? d = some s := by
  rw [← mem_slots_iff] at hold ⊢
  rw [show t'.slots = _ from h]
  exact List.mem_append_right _ hold

/-- What has been opened since has a number of its own. -/
theorem ne_of_used (h : t.Adds news t') {new : Descriptor × FileId} (hnew : new ∈ news)
    (hused : (t.slot? d).isSome) : new.1 ≠ d := by
  rintro rfl
  obtain ⟨s, hs⟩ := Option.isSome_iff_exists.1 hused
  have hdisjoint := (List.nodup_append.1 h.nodup).2.2
  exact hdisjoint _ (List.mem_map_of_mem hnew) _ (List.mem_map_of_mem (mem_slots_iff.2 hs)) rfl

/-- Closing files that have been opened since leaves the others. -/
theorem closeAll (front rest behind : List (Descriptor × FileId)) {ds : List Descriptor}
    (h : t.Adds (front ++ (rest ++ behind)) t') (hds : ∀ d, d ∈ ds ↔ d ∈ (front ++ behind).map (·.1)) :
    t.Adds rest (ds.foldl close t') := by
  have hnodup := h.nodup
  simp only [List.map_append, List.append_assoc, List.nodup_append, List.mem_append] at hnodup
  obtain ⟨-, ⟨-, ⟨-, -, hbehind⟩, hrest⟩, hfront⟩ := hnodup
  have hclosed : ∀ entry : Descriptor × FileId, entry ∈ front ∨ entry ∈ behind → entry.1 ∈ ds := by
    intro entry hentry
    rw [hds, List.map_append, List.mem_append]
    exact hentry.imp List.mem_map_of_mem List.mem_map_of_mem
  have hkept : ∀ entry ∈ rest, entry.1 ∉ ds := by
    intro entry hentry hd
    rw [hds, List.map_append, List.mem_append] at hd
    rcases hd with hd | hd
    · exact hfront _ hd _ (Or.inl (List.mem_map_of_mem hentry)) rfl
    · exact hrest _ (List.mem_map_of_mem hentry) _ (Or.inl hd) rfl
  have hold : ∀ entry ∈ t.slots, entry.1 ∉ ds := by
    intro entry hentry hd
    rw [hds, List.map_append, List.mem_append] at hd
    rcases hd with hd | hd
    · exact hfront _ hd _ (Or.inr (Or.inr (List.mem_map_of_mem hentry))) rfl
    · exact hbehind _ hd _ (List.mem_map_of_mem hentry) rfl
  unfold Adds
  rw [slots_closeAll, show t'.slots = _ from h]
  simp only [List.map_append, List.filter_append, List.filter_map]
  rw [List.filter_eq_nil_iff.2 (by simpa using fun a b hab => hclosed (a, b) (Or.inl hab)),
    List.filter_eq_self.2 (by simpa using fun a b hab => hkept (a, b) hab),
    List.filter_eq_nil_iff.2 (by simpa using fun a b hab => hclosed (a, b) (Or.inr hab)),
    List.filter_eq_self.2 (by simpa using fun a b hab => hold (a, b) hab)]
  simp

theorem closeEvery {ds : List Descriptor} (h : t.Adds news t')
    (hds : ∀ d, d ∈ ds ↔ d ∈ news.map (·.1)) : ds.foldl close t' = t :=
  (closeAll news [] [] (by simpa using h) (by simpa using hds)).eq

/-- Another program is started with what was there before. -/
theorem afterExec (h : t.Adds news t') : t'.afterExec = t.afterExec := by
  apply ext_slots
  simp only [DescriptorTable.afterExec]
  rw [show t'.slots = _ from h, List.filter_append, List.filter_map]
  simp [Function.comp_def]

end Adds

end LineShell.DescriptorTable
