import LineShell.Proofs.Job.Records

/-!
# Reaping

Jobs that were left running are reaped by one look at each of their children. A look (`Look`) leaves a child
alone that is known to have ended, and asks about any other one until an answer is no interruption. A reap is
a list of looks for each job, in order (`JobSet.exists_looks`), and keeps the jobs in which some child has not
ended by then (`JobSet.reap_keeps_unfinished`).
-/

namespace LineShell

universe u v

variable {σ : Type u}

/-- A look at a child. -/
inductive Look where
  | spared (c : Child) (ended : c.status.state = .terminated)
  | asked (c : Child) (active : c.status.state = .active) (interruptions : Nat) (answer : WaitAnswer)
      (answered : answer ≠ .error .interrupted)

namespace Look

/-- What was known about the child. -/
def before : Look → Child
  | spared c _ => c
  | asked c .. => c

/-- What is known about the child since. -/
def after : Look → Child
  | spared c _ => c
  | asked c _ _ answer _ => c.told answer

/-- What was asked for the child: nothing if it has ended, else there is one answer after the interruptions. -/
def log : Look → List Asked
  | spared .. => []
  | asked c _ interruptions answer _ =>
    List.replicate interruptions ⟨c.pid, .error .interrupted⟩ ++ [⟨c.pid, answer⟩]

/-- Does one of the children go on after the looks at a job? -/
def anyActive (looks : List Look) : Bool := looks.any (·.after.status.state = .active)

/-- By a look nothing but the status changes. -/
theorem after_eq (l : Look) : l.after = { l.before with status := l.after.status } := by
  cases l with
  | spared c ended => rfl
  | asked c active interruptions answer answered =>
    cases answer with
    | ok status => rfl
    | error e => by_cases he : e = .interrupted <;> simp [after, before, Child.told, he]

theorem after_pid (l : Look) : l.after.pid = l.before.pid := by rw [after_eq]

/-- Who is said to be alive goes on. -/
theorem after_active {l : Look} (hbefore : l.before.status.state = .active)
    (h : ∀ e ∈ l.log, e.answer = .ok .alive ∨ e.answer = .error .interrupted) :
    l.after.status.state = .active := by
  cases l with
  | spared c ended =>
    rw [before, ended] at hbefore
    cases hbefore
  | asked c active interruptions answer answered =>
    have hanswer : answer = .ok .alive := (h ⟨c.pid, answer⟩ (by simp [log])).resolve_right answered
    rw [after, hanswer]
    rfl

end Look

namespace Child

variable (w : Waiter σ)

/-- In a look, nothing but an interruption is no answer. -/
theorem eq_interrupted_of_unsettled {answer : WaitAnswer} (h : answer.settles .look = false) :
    answer = .error .interrupted := by
  cases answer with
  | ok status => simp [WaitAnswer.settles] at h
  | error e => simpa [WaitAnswer.settles] using h

theorem settle_look (c : Child) (s : σ × List Asked) :
    ∃ (interruptions : Nat) (answer : WaitAnswer), answer ≠ .error .interrupted ∧
      (c.settle (w.naming id) .look s).1 = c.told answer ∧
      (c.settle (w.naming id) .look s).2.2 =
        s.2 ++ (List.replicate interruptions ⟨c.pid, .error .interrupted⟩ ++ [⟨c.pid, answer⟩]) := by
  -- along the interruptions, which run out of patience
  induction hpatience : w.patience s.1 using Nat.strongRecOn generalizing s with
  | ind n ih =>
    subst hpatience
    rw [settle_eq]
    split
    · next hunsettled =>
      have hanswer := eq_interrupted_of_unsettled hunsettled
      obtain ⟨interruptions, answer, hanswered, hsettle, hlog⟩ :=
        ih _ ((w.naming id).patience_lt c.pid .look s hunsettled) ((w.naming id).wait c.pid .look s).2 rfl
      have htold : c.told ((w.naming id).wait c.pid .look s).1 = c := by
        rw [hanswer]
        rfl
      have hasked : ((w.naming id).wait c.pid .look s).2.2 = s.2 ++ [⟨c.pid, .error .interrupted⟩] := by
        rw [← hanswer]
        rfl
      refine ⟨interruptions + 1, answer, hanswered, by rw [htold, hsettle], ?_⟩
      rw [htold, hlog, hasked, List.replicate_succ, List.append_assoc]
      rfl
    · next hsettles =>
      refine ⟨0, ((w.naming id).wait c.pid .look s).1, fun hanswer => ?_, rfl, rfl⟩
      rw [hanswer] at hsettles
      exact hsettles rfl

theorem exists_look (c : Child) (s : σ × List Asked) :
    ∃ l : Look, l.before = c ∧ (c.poll (w.naming id) .look s).1 = l.after ∧
      (c.poll (w.naming id) .look s).2.2 = s.2 ++ l.log := by
  unfold poll
  cases hstate : c.status.state with
  | terminated => exact ⟨.spared c hstate, rfl, rfl, (List.append_nil _).symm⟩
  | active =>
    obtain ⟨interruptions, answer, hanswered, hsettle, hlog⟩ := c.settle_look w s
    exact ⟨.asked c hstate interruptions answer hanswered, rfl, hsettle, hlog⟩

end Child

namespace Job

variable (w : Waiter σ)

theorem exists_looks (cs : List Child) (s : σ × List Asked) :
    ∃ looks : List Look, looks.map Look.before = cs ∧
      (pollEach (w.naming id) .look cs s).1 = looks.map Look.after ∧
      (pollEach (w.naming id) .look cs s).2.2 = s.2 ++ looks.flatMap Look.log := by
  induction cs generalizing s with
  | nil => exact ⟨[], rfl, rfl, (List.append_nil _).symm⟩
  | cons c cs ih =>
    obtain ⟨l, rfl, hafter, hlog⟩ := c.exists_look w s
    obtain ⟨looks, rfl, hafters, hlogs⟩ := ih (l.before.poll (w.naming id) .look s).2
    refine ⟨l :: looks, rfl, congrArg₂ List.cons hafter hafters, ?_⟩
    rw [List.flatMap_cons, ← List.append_assoc, ← hlog]
    exact hlogs

theorem state_eq_active_iff {j : Job} : j.state = .active ↔ ∃ c ∈ j.children, c.status.state = .active := by
  simp [state, Child.state_eq_active]

theorem state_after (looks : List Look) :
    (⟨looks.map Look.after⟩ : Job).state = .active ↔ Look.anyActive looks = true := by
  rw [state_eq_active_iff]
  simp [Look.anyActive]

end Job

namespace JobSet

variable (w : Waiter σ)

/-- A reap is a list of looks for each job. -/
theorem exists_looks (js : List Job) (s : σ × List Asked) :
    ∃ looks : List (List Look), js = looks.map (fun ls => ⟨ls.map Look.before⟩) ∧
      (reapEach (w.naming id) js s).1 =
        (looks.filter Look.anyActive).map (fun ls => ⟨ls.map Look.after⟩) ∧
      (reapEach (w.naming id) js s).2.2 = s.2 ++ looks.flatten.flatMap Look.log := by
  induction js generalizing s with
  | nil => exact ⟨[], rfl, rfl, (List.append_nil _).symm⟩
  | cons j js ih =>
    obtain ⟨ls, hbefore, hafter, hlog⟩ := Job.exists_looks w j.children s
    obtain ⟨looks, hbefores, hafters, hlogs⟩ := ih (j.poll (w.naming id) s).2
    have hpoll : (j.poll (w.naming id) s).1 = ⟨ls.map Look.after⟩ := congrArg Job.mk hafter
    refine ⟨ls :: looks, ?_, ?_, ?_⟩
    · rw [List.map_cons, hbefore, ← hbefores]
    · simp only [reapEach, hafters, hpoll]
      cases hany : Look.anyActive ls with
      | true => rw [if_neg ((Job.state_after ls).2 hany ▸ State.noConfusion), List.filter_cons_of_pos hany,
          List.map_cons]
      | false =>
        have hended : (⟨ls.map Look.after⟩ : Job).state = .terminated := by
          cases hstate : (⟨ls.map Look.after⟩ : Job).state with
          | terminated => rfl
          | active => simp [(Job.state_after ls).1 hstate] at hany
        rw [if_pos hended, List.filter_cons_of_neg (by simp [hany])]
    · rw [List.flatten_cons, List.flatMap_append, ← List.append_assoc, ← hlog]
      exact hlogs

/-- With the answers written down or not, the same jobs are kept. -/
theorem exists_looks_reap (js : JobSet) (s : σ) :
    ∃ looks : List (List Look), js.jobs = looks.map (fun ls => ⟨ls.map Look.before⟩) ∧
      (js.reap w s).1 = ⟨(looks.filter Look.anyActive).map fun ls => ⟨ls.map Look.after⟩⟩ ∧
      (js.reap (w.naming id) (s, [])).2.2 = looks.flatten.flatMap Look.log := by
  obtain ⟨looks, hbefores, hafters, hlogs⟩ := exists_looks w js.jobs (s, [])
  have hmirror := reapEach_mirror (w.mirrors_naming id) js.jobs (s, [])
  simp only [Job.renamed_id, List.map_id] at hmirror
  refine ⟨looks, hbefores, congrArg JobSet.mk ?_, hlogs⟩
  rw [hmirror]
  exact hafters

theorem pids_after (looks : List (List Look)) :
    pids ⟨looks.map fun ls => ⟨ls.map Look.after⟩⟩ = looks.flatMap fun ls => ls.map (·.before.pid) := by
  simp [pids, Job.pids, List.flatMap_map, Function.comp_def, Look.after_pid]

/-- **Nobody ends, nothing is dropped.** When every job has a child that goes on and every child is said to be
alive, a reap leaves the process numbers as they are. -/
theorem pids_reap_alive (js : JobSet) (s : σ) (hactive : ∀ j ∈ js.jobs, j.state = .active)
    (halive : ∀ e ∈ (js.reap (w.naming id) (s, [])).2.2,
      e.answer = .ok .alive ∨ e.answer = .error .interrupted) :
    (js.reap w s).1.pids = js.pids := by
  obtain ⟨looks, hbefores, hreap, hlogs⟩ := exists_looks_reap w js s
  have hkept : looks.filter Look.anyActive = looks := by
    refine List.filter_eq_self.2 fun ls hls => ?_
    have hjob : (⟨ls.map Look.before⟩ : Job).state = .active :=
      hactive _ (hbefores ▸ List.mem_map_of_mem hls)
    obtain ⟨c, hc, hstate⟩ := Job.state_eq_active_iff.1 hjob
    obtain ⟨l, hl, rfl⟩ := List.mem_map.1 hc
    refine List.any_eq_true.2 ⟨l, hl, decide_eq_true (Look.after_active hstate fun e he => halive e ?_)⟩
    rw [hlogs]
    exact List.mem_flatMap.2 ⟨l, List.mem_flatten.2 ⟨ls, hls, hl⟩, he⟩
  rw [hreap, hkept, pids_after, pids, hbefores]
  simp [List.flatMap_map, Job.pids, Function.comp_def]

/-- **Reaping drops exactly the finished jobs.** Whatever is answered: a reap is a look at each child, in
order, and nothing else is asked. The jobs that are kept are those in which some child goes on after the look
at it, in their order; nothing but the statuses of their children changed; their number and the process
numbers are those of the jobs that are kept. When then everybody is said to be alive, another reap leaves the
process numbers as they are. -/
theorem reap_keeps_unfinished (js : JobSet) (s : σ) :
    ∃ looks : List (List Look), js.jobs = looks.map (fun ls => ⟨ls.map Look.before⟩) ∧
      (js.reap (w.naming id) (s, [])).2.2 = looks.flatten.flatMap Look.log ∧
      (js.reap w s).1 = ⟨(looks.filter Look.anyActive).map fun ls => ⟨ls.map Look.after⟩⟩ ∧
      (∀ l ∈ looks.flatten, l.after = { l.before with status := l.after.status }) ∧
      (js.reap w s).1.size = (looks.filter Look.anyActive).length ∧
      (js.reap w s).1.pids = (looks.filter Look.anyActive).flatMap (fun ls => ls.map (·.before.pid)) ∧
      ∀ {τ : Type v} (w' : Waiter τ) (s' : τ),
        (∀ e ∈ ((js.reap w s).1.reap (w'.naming id) (s', [])).2.2,
          e.answer = .ok .alive ∨ e.answer = .error .interrupted) →
        ((js.reap w s).1.reap w' s').1.pids = (js.reap w s).1.pids := by
  obtain ⟨looks, hbefores, hreap, hlogs⟩ := exists_looks_reap w js s
  refine ⟨looks, hbefores, hlogs, hreap, fun l _ => l.after_eq, ?_, ?_, fun w' s' halive => ?_⟩
  · rw [hreap, size, List.length_map]
  · rw [hreap, pids_after]
  · refine pids_reap_alive w' _ s' (fun j hj => ?_) halive
    rw [hreap] at hj
    obtain ⟨ls, hls, rfl⟩ := List.mem_map.1 hj
    exact (Job.state_after ls).2 (List.mem_filter.1 hls).2

end JobSet

/-- Gives answers from a list. -/
def Waiter.scripted : Waiter (List WaitAnswer) where
  wait _ _ answers := (answers.headD (.error .noChild), answers.tail)
  patience answers := answers.length
  patience_lt _ mode answers h := by
    cases answers with
    | nil => cases h
    | cons answer answers => exact Nat.lt_succ_self _

namespace JobSet

/-- Of the first job, one child is stopped, which an interruption delays, and one has ended before. Of the
second one, there is nothing to wait for one child, and the other one ends. The third one has no children. -/
theorem reap_keeps_unfinished_stopped :
    let js : JobSet := ⟨[⟨[{ pid := 7, stage := "a" }, { pid := 8, stage := "b", status := .exited 1 }]⟩,
      ⟨[{ pid := 9, stage := "c" }, { pid := 10, stage := "d", status := .continued }]⟩, ⟨[]⟩]⟩
    let answers : List WaitAnswer := [.error .interrupted, .ok (.stopped 19), .error .noChild, .ok (.exited 2)]
    let kept : JobSet :=
      ⟨[⟨[{ pid := 7, stage := "a", status := .stopped 19 }, { pid := 8, stage := "b", status := .exited 1 }]⟩]⟩
    (js.reap .scripted answers).1 = kept ∧
      (∀ e ∈ (kept.reap (Waiter.scripted.naming id) ([.error .interrupted, .ok .alive], [])).2.2,
        e.answer = .ok .alive ∨ e.answer = .error .interrupted) ∧
      (kept.reap .scripted [.error .interrupted, .ok .alive]).1.pids = [7, 8] := by
  intro js answers kept
  have hreap : (js.reap .scripted answers).1 = kept := by decide +kernel
  have halive : ∀ e ∈ (kept.reap (Waiter.scripted.naming id) ([.error .interrupted, .ok .alive], [])).2.2,
      e.answer = .ok .alive ∨ e.answer = .error .interrupted := by decide +kernel
  obtain ⟨looks, -, -, -, -, -, -, hagain⟩ := reap_keeps_unfinished Waiter.scripted js answers
  rw [hreap] at hagain
  exact ⟨hreap, halive, hagain .scripted [.error .interrupted, .ok .alive] halive⟩

end JobSet

end LineShell
