import LineShell.Proofs.Store.Removal
import Mathlib.Data.List.Nodup

/-!
# The store as a list of bookmarks

Calls are answered by the store in the file tree (`runs`) and by a list of bookmarks (`answers`). Started from a
store that is not there, the two give the same answers, and the file is the text of the list (`runs_eq_answers`).
The list has rising indices and different commands (`InOrder`), however calls are mixed.
-/

namespace LineShell.Bookmarks

variable {t : FileTree} {cwd : NodeId} {dataDir : String} {bs : List Bookmark} {call : Call} {calls : List Call}

inductive Call where
  | save (command : String)
  | remove (index : Nat)
  | get (index : Nat)
  | load
  deriving Repr, DecidableEq

inductive Answer where
  /-- The new index, if the command was not stored. -/
  | saved (index : Option Nat)
  | removed (there : Bool)
  | found (b : Option Bookmark)
  | all (bs : List Bookmark)
  deriving Repr, DecidableEq

/-! ## Answers of a list -/

/-- One more than the highest index, or zero. -/
def afterHighest (bs : List Bookmark) : Nat :=
  match (bs.map (·.index)).max? with
  | none => 0
  | some index => index + 1

/-- The answer to a call, and the bookmarks afterwards. -/
def Call.answer (bs : List Bookmark) : Call → Answer × List Bookmark
  | .save command =>
    if command ∈ bs.map (·.command) then (.saved none, bs)
    else (.saved (some (afterHighest bs)), bs ++ [⟨afterHighest bs, command⟩])
  | .remove index => (.removed (index ∈ bs.map (·.index)), bs.filter (·.index ≠ index))
  | .get index => (.found (bs.find? (·.index = index)), bs)
  | .load => (.all bs, bs)

def answers (bs : List Bookmark) : List Call → List Answer × List Bookmark
  | [] => ([], bs)
  | call :: calls =>
    let (answer, bs) := call.answer bs
    let (rest, bs) := answers bs calls
    (answer :: rest, bs)

/-- Indices rise and commands differ. -/
structure InOrder (bs : List Bookmark) : Prop where
  indices : bs.Pairwise (·.index < ·.index)
  commands : (bs.map (·.command)).Nodup

theorem inOrder_nil : InOrder [] := ⟨List.Pairwise.nil, List.nodup_nil⟩

theorem afterHighest_eq (bs : List Bookmark) : afterHighest bs = nextIndex bs := by
  refine eq_of_forall_ge_iff fun bound => ?_
  rw [nextIndex_le_iff, afterHighest]
  cases hmax : (bs.map (·.index)).max? with
  | none =>
    rw [List.max?_eq_none_iff, List.map_eq_nil_iff] at hmax
    simp [hmax]
  | some index =>
    have hhighest : index ≤ bound - 1 ↔ ∀ i ∈ bs.map (·.index), i ≤ bound - 1 := List.max?_le_iff hmax
    have hmem := List.max?_mem hmax
    simp only [List.mem_map, forall_exists_index, and_imp, forall_apply_eq_imp_iff₂] at hhighest hmem ⊢
    obtain ⟨b, hb, rfl⟩ := hmem
    constructor
    · intro hlt b' hb'
      have hle := hhighest.1 (by omega) b' hb'
      omega
    · intro hlt
      have hpos := hlt b hb
      omega

theorem InOrder.answer (h : InOrder bs) (call : Call) : InOrder (call.answer bs).2 := by
  cases call with
  | save command =>
    rw [Call.answer]
    split
    · exact h
    · rename_i hnew
      refine ⟨List.pairwise_append.2 ⟨h.indices, List.pairwise_singleton _ _, fun b hb b' hb' => ?_⟩, ?_⟩
      · rw [List.mem_singleton.1 hb', afterHighest_eq]
        exact lt_nextIndex hb
      · rw [List.map_append, List.map_singleton, ← List.concat_eq_append]
        exact List.Nodup.concat hnew h.commands
  | remove index => exact ⟨h.indices.filter _, h.commands.sublist (List.filter_sublist.map _)⟩
  | get index => exact h
  | load => exact h

theorem InOrder.answers (h : InOrder bs) (calls : List Call) : InOrder (answers bs calls).2 := by
  induction calls generalizing bs with
  | nil => exact h
  | cons call calls ih => exact ih (h.answer call)

/-! ## Answers of the store -/

/-- The answer to a call, and the tree afterwards. -/
def Call.run (t : FileTree) (cwd : NodeId) (dataDir : String) : Call → Except IoError Answer × FileTree
  | .save command =>
    match Bookmarks.save t cwd dataDir command with
    | .ok (index, t) => (.ok (.saved index), t)
    | .error e => (.error e, t)
  | .remove index =>
    let (there, t) := Bookmarks.remove t cwd dataDir index
    (there.map .removed, t)
  | .get index => ((Bookmarks.get t cwd dataDir index).map .found, t)
  | .load => ((Bookmarks.load t cwd dataDir).map .all, t)

def runs (t : FileTree) (cwd : NodeId) (dataDir : String) : List Call → List (Except IoError Answer) × FileTree
  | [] => ([], t)
  | call :: calls =>
    let (answer, t) := call.run t cwd dataDir
    let (rest, t) := runs t cwd dataDir calls
    (answer :: rest, t)

/-- The store is the text of bookmarks that can be read back. -/
structure Stores (t : FileTree) (cwd : NodeId) (dataDir : String) (bs : List Bookmark) : Prop where
  kept : ∃ x, Kept t cwd dataDir x ∧ x.getD [] = toText bs
  newlines : ∀ b ∈ bs, '\n' ∉ b.command.toList
  bounded : ∀ b ∈ bs, b.index ≤ Bookmark.maxIndex

theorem Stores.ofText (h : Stores t cwd dataDir bs) : ofText (toText bs) = bs := by
  rw [ofText_toText h.newlines, List.filter_eq_self]
  simpa using h.bounded

theorem Stores.load (h : Stores t cwd dataDir bs) : load t cwd dataDir = .ok bs := by
  obtain ⟨x, hkept, hx⟩ := h.kept
  rw [load_eq hkept.holds, hx, h.ofText]

theorem Stores.save (h : Stores t cwd dataDir bs) {command : String} (hnewline : '\n' ∉ command.toList)
    (hindex : ∀ i, (Call.answer bs (.save command)).1 = .saved (some i) → i ≤ Bookmark.maxIndex)
    (hio : ∀ e, (Call.run t cwd dataDir (.save command)).1 ≠ .error (.system e)) :
    (Call.run t cwd dataDir (.save command)).1 = .ok (Call.answer bs (.save command)).1 ∧
      Stores (Call.run t cwd dataDir (.save command)).2 cwd dataDir (Call.answer bs (.save command)).2 := by
  obtain ⟨x, hkept, hx⟩ := h.kept
  simp only [Call.run] at hio ⊢
  cases hsave : Bookmarks.save t cwd dataDir command with
  | error e =>
    obtain ⟨n, rfl⟩ := save_error hkept.holds hsave
    simp [hsave] at hio
  | ok result =>
    obtain ⟨saved, t'⟩ := result
    have hspec := save_spec hkept.holds hsave
    rw [hx, h.ofText] at hspec
    dsimp only
    cases saved with
    | none =>
      obtain ⟨rfl, b, hb, rfl⟩ := hspec
      have hthere : b.command ∈ bs.map (·.command) := List.mem_map_of_mem hb
      simp only [Call.answer, if_pos hthere]
      exact ⟨trivial, h⟩
    | some index =>
      obtain ⟨rfl, hnew, hadd, -⟩ := hspec
      have hnew : command ∉ bs.map (·.command) := by
        rw [List.mem_map]
        rintro ⟨b, hb, hcommand⟩
        exact hnew b hb hcommand
      simp only [Call.answer, if_neg hnew, afterHighest_eq] at hindex ⊢
      refine ⟨trivial, ⟨_, hkept.addLine hadd, ?_⟩, ?_, ?_⟩
      · rw [toText_concat, hx]
        rfl
      · exact List.forall_mem_append.2 ⟨h.newlines, List.forall_mem_singleton.2 hnewline⟩
      · exact List.forall_mem_append.2 ⟨h.bounded, List.forall_mem_singleton.2 (hindex _ rfl)⟩

theorem Stores.remove (h : Stores t cwd dataDir bs) {index : Nat}
    (hio : ∀ e, (Call.run t cwd dataDir (.remove index)).1 ≠ .error (.system e)) :
    (Call.run t cwd dataDir (.remove index)).1 = .ok (Call.answer bs (.remove index)).1 ∧
      Stores (Call.run t cwd dataDir (.remove index)).2 cwd dataDir (Call.answer bs (.remove index)).2 := by
  obtain ⟨x, hkept, hx⟩ := h.kept
  simp only [Call.run] at hio ⊢
  obtain ⟨⟨result, t'⟩, hremove⟩ : ∃ r, Bookmarks.remove t cwd dataDir index = r := ⟨_, rfl⟩
  have hspec := hkept.remove hremove
  rw [hx, h.ofText] at hspec
  rw [hremove] at hio ⊢
  cases result with
  | error e =>
    obtain ⟨n, rfl⟩ := hspec
    exact absurd rfl (hio n)
  | ok there =>
    cases there with
    | false =>
      obtain ⟨rfl, hmissing⟩ := hspec
      have hindex : index ∉ bs.map (·.index) := by
        rw [List.mem_map]
        rintro ⟨b, hb, hsame⟩
        exact hmissing b hb hsame
      have hall : bs.filter (·.index ≠ index) = bs := by
        rw [List.filter_eq_self]
        simpa using hmissing
      simp only [Call.answer, hindex, hall, decide_false]
      exact ⟨rfl, h⟩
    | true =>
      obtain ⟨⟨b, hb, rfl⟩, hkept'⟩ := hspec
      have hindex : b.index ∈ bs.map (·.index) := List.mem_map_of_mem hb
      simp only [Call.answer, hindex, decide_true]
      exact ⟨rfl, ⟨_, hkept', rfl⟩, fun b hb => h.newlines b (List.mem_of_mem_filter hb),
        fun b hb => h.bounded b (List.mem_of_mem_filter hb)⟩

/-- A call that does not fail is answered as by the list. -/
theorem Stores.run (h : Stores t cwd dataDir bs) (hnewline : ∀ command, call = .save command → '\n' ∉ command.toList)
    (hindex : ∀ i, (call.answer bs).1 = .saved (some i) → i ≤ Bookmark.maxIndex)
    (hio : ∀ e, (call.run t cwd dataDir).1 ≠ .error (.system e)) :
    (call.run t cwd dataDir).1 = .ok (call.answer bs).1 ∧
      Stores (call.run t cwd dataDir).2 cwd dataDir (call.answer bs).2 := by
  cases call with
  | save command => exact h.save (hnewline command rfl) hindex hio
  | remove index => exact h.remove hio
  | get index => exact ⟨by simp [Call.run, Call.answer, Bookmarks.get, h.load, bind, Except.bind, Except.map], h⟩
  | load => exact ⟨by simp [Call.run, Call.answer, h.load, Except.map], h⟩

theorem Stores.runs (h : Stores t cwd dataDir bs)
    (hnewline : ∀ command, Call.save command ∈ calls → '\n' ∉ command.toList)
    (hindex : ∀ i, Answer.saved (some i) ∈ (answers bs calls).1 → i ≤ Bookmark.maxIndex)
    (hio : ∀ e, Except.error (IoError.system e) ∉ (runs t cwd dataDir calls).1) :
    (runs t cwd dataDir calls).1 = (answers bs calls).1.map .ok ∧
      Stores (runs t cwd dataDir calls).2 cwd dataDir (answers bs calls).2 := by
  induction calls generalizing t bs with
  | nil => exact ⟨rfl, h⟩
  | cons call calls ih =>
    obtain ⟨hanswer, hstores⟩ := h.run (fun command hcall => hnewline command (hcall ▸ List.mem_cons_self))
      (fun i hi => hindex i (hi ▸ List.mem_cons_self)) (fun e he => hio e (he ▸ List.mem_cons_self))
    obtain ⟨hrest, hend⟩ := ih hstores (fun command hmem => hnewline command (List.mem_cons_of_mem _ hmem))
      (fun i hi => hindex i (List.mem_cons_of_mem _ hi)) (fun e he => hio e (List.mem_cons_of_mem _ he))
    exact ⟨List.cons_eq_cons.2 ⟨hanswer, hrest⟩, hend⟩

/-- Started without a file, the store answers as the list, whose indices rise and whose commands differ; the file
has a line for each bookmark and nothing else. -/
theorem runs_eq_answers (hkept : Kept t cwd dataDir none)
    (hnewline : ∀ command, Call.save command ∈ calls → '\n' ∉ command.toList)
    (hindex : ∀ i, Answer.saved (some i) ∈ (answers [] calls).1 → i < Bookmark.maxIndex)
    (hio : ∀ e, Except.error (IoError.system e) ∉ (runs t cwd dataDir calls).1) :
    (runs t cwd dataDir calls).1 = (answers [] calls).1.map .ok ∧
      (answers [] calls).2.Pairwise (·.index < ·.index) ∧
      ((answers [] calls).2.map (·.command)).Nodup ∧
      ((runs t cwd dataDir calls).2.readFile cwd (path dataDir) = .ok (Utf8.encode (toText (answers [] calls).2)) ∨
        (answers [] calls).2 = [] ∧ (runs t cwd dataDir calls).2.readFile cwd (path dataDir) = .error .noEntry) := by
  have hstart : Stores t cwd dataDir [] := ⟨⟨none, hkept, rfl⟩, fun b hb => (nomatch hb), fun b hb => nomatch hb⟩
  obtain ⟨hanswers, hstores⟩ := hstart.runs hnewline (fun i hi => Nat.le_of_lt (hindex i hi)) hio
  have horder := inOrder_nil.answers calls
  refine ⟨hanswers, horder.indices, horder.commands, ?_⟩
  obtain ⟨x, hkept', hx⟩ := hstores.kept
  cases x with
  | none =>
    have hnothing := hstores.ofText
    rw [← hx] at hnothing
    exact Or.inr ⟨hnothing.symm, hkept'.holds.2⟩
  | some text =>
    rw [← hx]
    exact Or.inl hkept'.holds.readFile

/-- Quotes, a carriage return, an empty command, a command saved twice, and the highest index removed. -/
def sampleCalls : List Call :=
  [.save "say \"hi\"\r", .save "", .save "", .save " 1 \"x", .remove 2, .remove 7, .save "ls", .get 1, .load]

theorem runs_eq_answers_sample :
    Kept {} FileTree.root "/" none ∧
    (∀ command, Call.save command ∈ sampleCalls → '\n' ∉ command.toList) ∧
    (∀ i, Answer.saved (some i) ∈ (answers [] sampleCalls).1 → i < Bookmark.maxIndex) ∧
    (∀ e, Except.error (IoError.system e) ∉ (runs {} FileTree.root "/" sampleCalls).1) ∧
    (runs {} FileTree.root "/" sampleCalls).1 = [.saved (some 0), .saved (some 1), .saved none, .saved (some 2),
      .removed true, .removed false, .saved (some 2), .found (some ⟨1, ""⟩),
      .all [⟨0, "say \"hi\"\r"⟩, ⟨1, ""⟩, ⟨2, "ls"⟩]].map .ok ∧
    (runs {} FileTree.root "/" sampleCalls).2.readFile FileTree.root (path "/") =
      .ok (Utf8.ofString "0 \"say \"hi\"\r\"\n1 \"\"\n2 \"ls\"\n") := by
  have hanswers : answers [] sampleCalls = ([.saved (some 0), .saved (some 1), .saved none, .saved (some 2),
      .removed true, .removed false, .saved (some 2), .found (some ⟨1, ""⟩),
      .all [⟨0, "say \"hi\"\r"⟩, ⟨1, ""⟩, ⟨2, "ls"⟩]], [⟨0, "say \"hi\"\r"⟩, ⟨1, ""⟩, ⟨2, "ls"⟩]) := by
    decide +kernel
  have hnewline : ∀ command, Call.save command ∈ sampleCalls → '\n' ∉ command.toList := by
    simp [sampleCalls]
  have hindex : ∀ i, Answer.saved (some i) ∈ (answers [] sampleCalls).1 → i < Bookmark.maxIndex := by
    rw [hanswers]
    simp [Bookmark.maxIndex]
  have hok : ∀ answer ∈ (runs {} FileTree.root "/" sampleCalls).1, answer.isOk := by decide +kernel
  have hio : ∀ e, Except.error (IoError.system e) ∉ (runs {} FileTree.root "/" sampleCalls).1 := by
    intro e he
    cases hok _ he
  have hkept : Kept {} FileTree.root "/" none :=
    .of_regular ⟨by decide +kernel, by decide +kernel⟩ (.of_vacant (by decide +kernel))
  obtain ⟨hruns, -, -, hfile⟩ := runs_eq_answers hkept hnewline hindex hio
  rw [hanswers] at hruns hfile
  refine ⟨hkept, hnewline, hindex, hio, hruns, ?_⟩
  rcases hfile with hfile | ⟨hnone, -⟩
  · rw [hfile]
    decide +kernel
  · cases hnone

/-- No store yet, and a link beside it to the null device or to the place of the store. -/
def nullLink : FileTree where
  nodes := #[.directory 0 [("bookmarktxt.tmp", 1), ("dev", 2)], .link "/dev/null", .directory 0 [("null", 3)], .null]

def storeLink : FileTree where
  nodes := #[.directory 0 [("bookmarktxt.tmp", 1)], .link "bookmarktxt"]

/-- The device loses the bookmark that is kept, and a link to the store becomes a link to itself. In both runs every
call succeeds. -/
theorem runs_ne_answers_linked :
    nullLink.readFile FileTree.root (path "/") = .error .noEntry ∧
    (∀ answer ∈ (runs nullLink FileTree.root "/" [.save "a", .save "b", .remove 0, .load]).1, answer.isOk) ∧
    (answers [] [.save "a", .save "b", .remove 0, .load]).1 =
      [.saved (some 0), .saved (some 1), .removed true, .all [⟨1, "b"⟩]] ∧
    (runs nullLink FileTree.root "/" [.save "a", .save "b", .remove 0, .load]).1 ≠
      (answers [] [.save "a", .save "b", .remove 0, .load]).1.map .ok ∧
    storeLink.readFile FileTree.root (path "/") = .error .noEntry ∧
    (∀ answer ∈ (runs storeLink FileTree.root "/" [.save "a", .save "b", .remove 0]).1, answer.isOk) ∧
    (runs storeLink FileTree.root "/" [.save "a", .save "b", .remove 0]).2.readFile FileTree.root (path "/") ≠
      .ok (Utf8.encode (toText (answers [] [.save "a", .save "b", .remove 0]).2)) := by
  refine ⟨?_, ?_, ?_, ?_, ?_, ?_, ?_⟩ <;> decide +kernel

end LineShell.Bookmarks
