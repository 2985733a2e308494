import LineShell.Proofs.Job.Mirror
import Mathlib.Data.List.InsertIdx

/-!
# Jobs at hand, and names for records

What somebody does with jobs is a list of deeds (`Desk.run`). A process number is given away again once the
process is gone, so two records may well hold the same one. To say which record a wait was made for, records
are told apart by names: the deeds are done once more with names in place of the numbers (`Deed.renamed`), by
a waiter that knows the number behind each name and keeps the answers (`Waiter.naming`). Apart from that it
is the same run (`Desk.run_naming`), and names can be found for any deeds (`Deed.exists_named`).
-/

namespace LineShell

universe u

variable {σ : Type u}

/-! ## Names -/

/-- One wait: the name of the record it was made for, and the answer. -/
structure Asked where
  name : Nat
  answer : WaitAnswer

/-- The answers that were given for one record, in order. -/
def answersFor (name : Nat) (asked : List Asked) : List WaitAnswer :=
  (asked.filter (·.name = name)).map (·.answer)

/-- Waits for the processes that names stand for, and keeps the answers. -/
def Waiter.naming (w : Waiter σ) (pid : Nat → Pid) : Waiter (σ × List Asked) where
  wait name mode s :=
    ((w.wait (pid name) mode s.1).1, (w.wait (pid name) mode s.1).2,
      s.2 ++ [⟨name, (w.wait (pid name) mode s.1).1⟩])
  patience s := w.patience s.1
  patience_lt name mode s := w.patience_lt (pid name) mode s.1

/-! ## Jobs at hand -/

/-- The jobs that somebody has at hand, and those that were left running. -/
structure Desk where
  held : List Job := []
  left : JobSet := {}

/-- What can be done with jobs: take a new one in hand, leave one of those at hand running, look at one,
wait for one, or drop those left running that have ended. -/
inductive Deed where
  | take (j : Job)
  | push (i : Nat)
  | poll (i : Nat)
  | wait (i : Nat)
  | reap

namespace Desk

def children (d : Desk) : List Child := (d.held ++ d.left.jobs).flatMap Job.children

def renamed (pid : Nat → Pid) (d : Desk) : Desk := ⟨d.held.map (Job.renamed pid), d.left.renamed pid⟩

/-- Does something with jobs. A place where no job is at hand stands for nothing. -/
def step (w : Waiter σ) (deed : Deed) (d : Desk) (s : σ) : Desk × σ :=
  match deed with
  | .take j => ({ d with held := d.held ++ [j] }, s)
  | .push i =>
    match d.held[i]? with
    | some j => (⟨d.held.eraseIdx i, d.left.push j⟩, s)
    | none => (d, s)
  | .poll i =>
    match d.held[i]? with
    | some j => ({ d with held := d.held.set i (j.poll w s).1 }, (j.poll w s).2)
    | none => (d, s)
  | .wait i =>
    match d.held[i]? with
    | some j => ({ d with held := d.held.set i (j.wait w s).1 }, (j.wait w s).2)
    | none => (d, s)
  | .reap => ({ d with left := (d.left.reap w s).1 }, (d.left.reap w s).2)

def run (w : Waiter σ) : List Deed → Desk → σ → Desk × σ
  | [], d, s => (d, s)
  | deed :: deeds, d, s => run w deeds (d.step w deed s).1 (d.step w deed s).2

end Desk

namespace Deed

/-- The records that come in with a deed. -/
def children : Deed → List Child
  | .take j => j.children
  | _ => []

def renamed (pid : Nat → Pid) : Deed → Deed
  | .take j => .take (j.renamed pid)
  | .push i => .push i
  | .poll i => .poll i
  | .wait i => .wait i
  | .reap => .reap

/-- Names records from `start` on. -/
def numbered : Nat → List Deed → List Deed
  | _, [] => []
  | start, .take j :: deeds =>
    .take ⟨j.children.mapIdx fun i c => { c with pid := start + i }⟩ ::
      numbered (start + j.children.length) deeds
  | start, deed :: deeds => deed :: numbered start deeds

end Deed

/-! ## The same run -/

section Naming

variable (w : Waiter σ) (pid : Nat → Pid)

theorem Waiter.mirrors_naming : w.Mirrors (w.naming pid) Prod.fst pid := fun _ _ _ => rfl

namespace Desk

theorem step_naming (deed : Deed) (d : Desk) (s : σ × List Asked) :
    (d.renamed pid).step w (deed.renamed pid) s.1 =
      ((d.step (w.naming pid) deed s).1.renamed pid, (d.step (w.naming pid) deed s).2.1) := by
  have hmirrors := w.mirrors_naming pid
  have hheld : ∀ i : Nat, (d.renamed pid).held[i]? = d.held[i]?.map (Job.renamed pid) := by simp [renamed]
  cases deed with
  | take j => simp [step, Deed.renamed, renamed]
  | push i =>
    simp only [step, Deed.renamed, hheld]
    cases d.held[i]? with
    | none => rfl
    | some j => simp [renamed, JobSet.renamed, JobSet.push, List.eraseIdx_map]
  | poll i =>
    simp only [step, Deed.renamed, hheld]
    cases d.held[i]? with
    | none => rfl
    | some j => simp [renamed, Job.poll_mirror hmirrors j s]
  | wait i =>
    simp only [step, Deed.renamed, hheld]
    cases d.held[i]? with
    | none => rfl
    | some j => simp [renamed, Job.wait_mirror hmirrors j s]
  | reap =>
    simp [step, Deed.renamed, renamed, JobSet.reap, JobSet.renamed, JobSet.reapEach_mirror hmirrors d.left.jobs s]

/-- What is done with records by their names is what is done by their numbers. -/
theorem run_naming (deeds : List Deed) (d : Desk) (s : σ × List Asked) :
    run w (deeds.map (Deed.renamed pid)) (d.renamed pid) s.1 =
      ((run (w.naming pid) deeds d s).1.renamed pid, (run (w.naming pid) deeds d s).2.1) := by
  induction deeds generalizing d s with
  | nil => rfl
  | cons deed deeds ih => rw [List.map_cons, run, run, step_naming, ih]

end Desk

end Naming

namespace Deed

theorem names_numbered (start : Nat) (deeds : List Deed) :
    ((numbered start deeds).flatMap children).map Child.pid =
      List.range' start (deeds.flatMap children).length := by
  fun_induction numbered start deeds with
  | case1 => rfl
  | case2 start j deeds ih =>
    rw [List.flatMap_cons, List.map_append, ih, List.flatMap_cons, List.length_append, ← List.range'_append_1]
    congr 1
    refine List.ext_getElem (by simp [children]) fun i _ _ => ?_
    simp [children]
  | case3 start deed deeds hdeed ih =>
    cases deed with
    | take j => exact absurd rfl (hdeed j)
    | push i | poll i | wait i | reap => exact ih

theorem renamed_numbered (pid : Nat → Pid) (start : Nat) (deeds : List Deed)
    (h : ∀ i c, (deeds.flatMap children)[i]? = some c → pid (start + i) = c.pid) :
    (numbered start deeds).map (renamed pid) = deeds := by
  fun_induction numbered start deeds with
  | case1 => rfl
  | case2 start j deeds ih =>
    rw [List.map_cons, ih fun i c hc => ?_]
    · congr 1
      suffices hj : (j.children.mapIdx fun i c => { c with pid := start + i }).map (Child.renamed pid) =
          j.children by rw [renamed, Job.renamed, hj]
      refine List.ext_getElem (by simp) fun i _ hi => ?_
      have hc : ((take j :: deeds).flatMap children)[i]? = some j.children[i] := by
        rw [List.flatMap_cons, children, List.getElem?_append_left hi]
        exact List.getElem?_eq_getElem hi
      simp [Child.renamed, h i _ hc]
    · rw [Nat.add_assoc]
      refine h _ c ?_
      rw [List.flatMap_cons, List.getElem?_append_right (by simp [children])]
      simpa [children] using hc
  | case3 start deed deeds hdeed ih =>
    cases deed with
    | take j => exact absurd rfl (hdeed j)
    | push i | poll i | wait i | reap =>
      rw [List.map_cons, ih h]
      rfl

/-- Whatever is done, the records can be told apart by names. -/
theorem exists_named (deeds : List Deed) : ∃ (pid : Nat → Pid) (named : List Deed),
    named.map (renamed pid) = deeds ∧ ((named.flatMap children).map Child.pid).Nodup := by
  refine ⟨fun n => ((deeds.flatMap children).map Child.pid).getD n 0, numbered 0 deeds,
    renamed_numbered _ 0 deeds fun i c hc => ?_, ?_⟩
  · simp [hc]
  · rw [names_numbered]
    exact List.nodup_range'

end Deed

end LineShell
