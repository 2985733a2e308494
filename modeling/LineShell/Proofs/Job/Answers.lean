import LineShell.Job

/-!
# The answers for one child

What is known about a child follows the answers that were given for it (`Child.told`), one after the other
(`Child.settle_eq`). Who looks only while the child is not known to have ended (`Child.Hears`) knows it by
the last of the answers (`Child.Hears.endedBy`).
-/

namespace LineShell

universe u

variable {σ : Type u}

/-- What is known about a child after an answer. -/
def Child.told (c : Child) : WaitAnswer → Child
  | .ok status => { c with status }
  | .error e => if e = .interrupted then c else { c with status := .exited 0 }

/-- The last of the answers, and no earlier one, ends the wait: a status of a child that has ended, which
is recorded, or an error other than an interruption, which is recorded as a plain exit. -/
def EndedBy (answers : List WaitAnswer) (status : WaitStatus) : Prop :=
  ∃ earlier last, answers = earlier ++ [last] ∧ (∀ a ∈ earlier, a.settles .block = false) ∧
    (last = .ok status ∧ status.state = .terminated ∨
      ∃ e, last = .error e ∧ e ≠ .interrupted ∧ status = .exited 0)

namespace Child

/-- A record that answers were given for, each of them while the child was not known to have ended. -/
inductive Hears : Child → List WaitAnswer → Child → Prop where
  | nil (c : Child) : Hears c [] c
  | cons {c c' : Child} {a : WaitAnswer} {as : List WaitAnswer} :
      c.status.state = .active → Hears (c.told a) as c' → Hears c (a :: as) c'

variable {c c' c'' : Child} {a : WaitAnswer} {as as' : List WaitAnswer}

theorem told_pid (c : Child) (a : WaitAnswer) : (c.told a).pid = c.pid := by
  unfold told
  split
  · rfl
  · split <;> rfl

/-- A child is known to have ended by the answers that end a wait. -/
theorem state_told (h : c.status.state = .active) :
    (c.told a).status.state = .terminated ↔ a.settles .block = true := by
  unfold told WaitAnswer.settles
  cases a with
  | ok status => simp
  | error e =>
    by_cases he : e = .interrupted
    · simp [he, h]
    · simp [he, WaitStatus.state]

theorem state_eq_active {status : WaitStatus} : status.state = .active ↔ status.state ≠ .terminated := by
  cases status.state <;> simp

/-- A child that has to be waited for once more is not known to have ended. -/
theorem state_told_of_unsettled {mode : WaitMode} (hc : c.status.state = .active) (h : a.settles mode = false) :
    (c.told a).status.state = .active := by
  rw [state_eq_active, Ne, state_told hc]
  cases a with
  | ok status => simp_all [WaitAnswer.settles]
  | error e => simpa [WaitAnswer.settles] using h

namespace Hears

theorem append (h : c.Hears as c') (h' : c'.Hears as' c'') : c.Hears (as ++ as') c'' := by
  induction h with
  | nil c => exact h'
  | cons hactive _ ih => exact .cons hactive (ih h')

theorem pid_eq (h : c.Hears as c') : c'.pid = c.pid := by
  induction h with
  | nil c => rfl
  | @cons c c' a as _ _ ih => rw [ih, told_pid]

/-- Nothing is asked any more when the child is known to have ended. -/
theorem eq_of_terminated (h : c.Hears as c') (hc : c.status.state = .terminated) : as = [] ∧ c' = c := by
  cases h with
  | nil => exact ⟨rfl, rfl⟩
  | cons hactive _ => simp [hc] at hactive

/-- A child that is known to have ended since ended by the answers that were given for it. -/
theorem endedBy (h : c.Hears as c') (hc : c.status.state = .active) (hc' : c'.status.state = .terminated) :
    EndedBy as c'.status := by
  induction h with
  | nil c => simp [hc] at hc'
  | @cons c c' a as _ hrest ih =>
    cases htold : (c.told a).status.state with
    | active =>
      obtain ⟨earlier, last, rfl, hearlier, hlast⟩ := ih htold hc'
      have ha : a.settles .block = false := by
        rw [← Bool.not_eq_true, ← state_told hc, htold]
        exact State.noConfusion
      exact ⟨a :: earlier, last, rfl, List.forall_mem_cons.2 ⟨ha, hearlier⟩, hlast⟩
    | terminated =>
      obtain ⟨rfl, rfl⟩ := hrest.eq_of_terminated htold
      refine ⟨[], a, rfl, by simp, ?_⟩
      cases a with
      | ok status => exact .inl ⟨rfl, htold⟩
      | error e =>
        have he : e ≠ .interrupted := by simpa [WaitAnswer.settles] using (state_told hc).1 htold
        exact .inr ⟨e, rfl, he, by simp [told, he]⟩

end Hears

/-- One wait after the other, what is known follows the answers. -/
theorem settle_eq (w : Waiter σ) (mode : WaitMode) (c : Child) (s : σ) :
    c.settle w mode s =
      if (w.wait c.pid mode s).1.settles mode = false then
        (c.told (w.wait c.pid mode s).1).settle w mode (w.wait c.pid mode s).2
      else (c.told (w.wait c.pid mode s).1, (w.wait c.pid mode s).2) := by
  rw [settle]
  cases (w.wait c.pid mode s).1 with
  | ok status => rfl
  | error e => by_cases he : e = .interrupted <;> simp [WaitAnswer.settles, told, he]

end Child

end LineShell
