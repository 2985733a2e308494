import LineShell.Proofs.Editor.Strokes

/-!
# The editor keeps a draft

Read as a line of characters, an editor behaves like its draft: whatever it is seeded with and whatever
keys are struck, each read gives what the draft gives, leaves the same of its input and remembers
the same line (`answers_eq_draft`). A read is the keys that work on the line and what ends it; what is
behind that is not looked at.
-/

namespace LineShell

/-- What ends a read: its input is used up, or a key does, behind which there may be more. -/
inductive Closing where
  | used
  | enter (b : UInt8) (enters : b = Key.newline ∨ b = Key.carriageReturn) (rest : Bytes)
  | tab (rest : Bytes)
  | endOfTransmission (rest : Bytes)

namespace Closing

/-- What is left of the input behind the key. -/
def rest : Closing → Bytes
  | used => []
  | enter _ _ rest => rest
  | tab rest => rest
  | endOfTransmission rest => rest

def bytes : Closing → Bytes
  | used => []
  | enter b _ rest => b :: rest
  | tab rest => Key.tab :: rest
  | endOfTransmission rest => Key.endOfTransmission :: rest

end Closing

/-- The keys of one read. -/
structure Keys where
  strokes : List Stroke
  closing : Closing

def Keys.bytes (keys : Keys) : Bytes := keys.strokes.flatMap Stroke.bytes ++ keys.closing.bytes

/-- A use of an editor: the next read is seeded, or a line is read from an input that ends. -/
inductive Editor.Call (ι : Type) where
  | seed (text : String)
  | read (input : ι)

def Editor.Call.map {ι κ : Type} (f : ι → κ) : Call ι → Call κ
  | seed text => seed text
  | read input => read (f input)

/-- What is seen of an editor after a call: the result of a read with what it left of its input, and
the line that is remembered. -/
structure Editor.Answer where
  read : Option (Except EditError Input × Bytes)
  remembered : Option String

namespace Draft

/-- The line is finished and remembered. -/
def enter (d : Draft) : Input × Draft :=
  (.line (String.ofList d.text), { remembered := some (String.ofList d.text) })

/-- What ends a read gives a line or none, and begins a new draft. -/
def close (d : Draft) : Closing → Input × Draft
  | .used => if d.text = [] then (.eof, { d with text := [] }) else d.enter
  | .enter _ _ _ => d.enter
  | .tab _ => (.line (String.ofList (d.text ++ ['?'])), { d with text := [] })
  | .endOfTransmission _ => (.eof, { d with text := [] })

def read (d : Draft) (keys : Keys) : Input × Draft := (d.strikeAll keys.strokes).close keys.closing

def call (d : Draft) : Editor.Call Keys → Editor.Answer × Draft
  | .seed text => (⟨none, d.remembered⟩, { d with text := text.toList })
  | .read keys => (⟨some (.ok (d.read keys).1, keys.closing.rest), (d.read keys).2.remembered⟩, (d.read keys).2)

/-- The answers to calls, one after the other. -/
def answers : Draft → List (Editor.Call Keys) → List Editor.Answer
  | _, [] => []
  | d, c :: cs => (d.call c).1 :: (d.call c).2.answers cs

/-- A read begins with at most so many bytes, and no character that is typed brings the line to them. -/
def FitsRead (capacity : Nat) (d : Draft) (strokes : List Stroke) : Prop :=
  (Utf8.encode d.text).length ≤ capacity ∧ d.StaysBelow capacity strokes ∧ strokes.IsChain Stroke.Apart

def FitsCall (capacity : Nat) (d : Draft) : Editor.Call Keys → Prop
  | .seed _ => True
  | .read keys => d.FitsRead capacity keys.strokes

/-- All reads do. -/
def Fits (capacity : Nat) : Draft → List (Editor.Call Keys) → Prop
  | _, [] => True
  | d, c :: cs => d.FitsCall capacity c ∧ (d.call c).2.Fits capacity cs

theorem close_text (d : Draft) (closing : Closing) : (d.close closing).2.text = [] := by
  cases closing with
  | used =>
    rw [close]
    split <;> rfl
  | _ => rfl

end Draft

namespace Editor

variable {e : Editor} {d : Draft}

/-- The answer of an editor whose screen takes everything. -/
def call (e : Editor) : Call Bytes → Answer × Editor
  | .seed text => (⟨none, e.lastLine⟩, e.seed text)
  | .read input =>
    let r := e.edit {} input .used
    (⟨some (r.result, r.rest), r.editor.lastLine⟩, r.editor)

def answers : Editor → List (Call Bytes) → List Answer
  | _, [] => []
  | e, c :: cs => (e.call c).1 :: (e.call c).2.answers cs

/-- The draft of an editor between its reads. -/
def draft (e : Editor) : Draft where
  text := (e.pending.map String.toList).getD []
  remembered := e.lastLine

theorem seedBytes_eq (h : (Utf8.encode e.draft.text).length ≤ e.capacity) :
    e.seedBytes = Utf8.encode e.draft.text := by
  have hbytes : (e.pending.map Utf8.ofString).getD [] = Utf8.encode e.draft.text := by
    unfold draft
    cases e.pending <;> rfl
  rw [seedBytes, hbytes, List.take_of_length_le h]

theorem accept_encode (e : Editor) (text : List Char) (remember : Bool) :
    e.accept (Utf8.encode text) remember =
      (.line (String.ofList text), if remember then { e with lastLine := some (String.ofList text) } else e) := by
  rw [accept, Utf8.decodeLossy_encode]

theorem typeOn_finish {t : Typing} {b : UInt8} {bs echo : Bytes} {text : List Char} {remember : Bool} {s : Screen}
    (hroom : s.room = none) (ending : Ending)
    (hpress : e.press t b = (echo, .finish (Utf8.encode text) remember)) :
    e.typeOn s t ending (b :: bs) = ⟨.ok (.line (String.ofList text)),
      if remember then { e with lastLine := some (String.ofList text) } else e,
      { s with shown := s.shown ++ echo }, bs⟩ := by
  simp only [typeOn, hpress, Screen.write, hroom, accept_encode]

/-- The end of a read, where the buffer holds the encoded line. -/
theorem typeOn_closing {s : Screen} {escape : Escape} (h : e.lastLine = d.remembered)
    (hescape : escape ≠ .bracket) (hroom : s.room = none) (closing : Closing) :
    ∃ s', e.typeOn s ⟨Utf8.encode d.text, escape⟩ .used closing.bytes =
      ⟨.ok (d.close closing).1, { e with lastLine := (d.close closing).2.remembered }, s', closing.rest⟩ := by
  have hsame : { e with lastLine := d.remembered } = e := by rw [← h]
  have hplain : ∀ b, b ≠ Key.bracket →
      e.press ⟨Utf8.encode d.text, escape⟩ b = e.pressPlain (Utf8.encode d.text) b := by
    intro b hb
    apply press_of_isPlain
    cases escape with
    | idle => exact Or.inl rfl
    | start => exact Or.inr ⟨rfl, hb⟩
    | bracket => exact absurd rfl hescape
  cases closing with
  | used =>
    simp only [Closing.bytes, Closing.rest, Draft.close, typeOn, Utf8.encode_eq_nil]
    split
    · exact ⟨s, by rw [hsame]⟩
    · exact ⟨s, by rw [accept_encode]; rfl⟩
  | enter b enters rest =>
    have hpress : e.press ⟨Utf8.encode d.text, escape⟩ b =
        ([Key.newline], .finish (Utf8.encode d.text) true) := by
      rcases enters with rfl | rfl
      · exact hplain _ (by decide)
      · exact hplain _ (by decide)
    exact ⟨_, typeOn_finish hroom .used hpress⟩
  | tab rest =>
    have hpress : e.press ⟨Utf8.encode d.text, escape⟩ Key.tab =
        ([Key.newline], .finish (Utf8.encode (d.text ++ ['?'])) false) := by
      rw [Utf8.encode_concat]
      exact hplain _ (by decide)
    refine ⟨{ s with shown := s.shown ++ [Key.newline] }, (typeOn_finish hroom .used hpress).trans ?_⟩
    simp only [Draft.close, hsame]
    rfl
  | endOfTransmission rest =>
    have hpress : e.press ⟨Utf8.encode d.text, escape⟩ Key.endOfTransmission = ([], .quit) := hplain _ (by decide)
    refine ⟨{ s with shown := s.shown ++ [] }, ?_⟩
    simp only [Closing.bytes, typeOn, hpress, Screen.write, hroom, Draft.close, Closing.rest, hsame]

/-- A read goes on behind some keys with what they leave of the draft. -/
theorem edit_strokes {strokes : List Stroke} (h : e.draft.FitsRead e.capacity strokes) :
    ∃ escape, escape ≠ Escape.bracket ∧ ∀ rest ending,
      e.edit {} (strokes.flatMap Stroke.bytes ++ rest) ending =
        { e with pending := none }.typeOn { shown := Utf8.encode (e.draft.text ++ e.draft.echoes strokes) }
          ⟨Utf8.encode (e.draft.strikeAll strokes).text, escape⟩ ending rest := by
  obtain ⟨hseed, hroom, hapart⟩ := h
  have hidle : Escape.idle ≠ .bracket := by decide
  obtain ⟨escape, hescape, hstrokes⟩ := pressAll_strokes (e := { e with pending := none }) (d := e.draft)
    rfl hroom hapart hidle (fun hstart => nomatch hstart)
  refine ⟨escape, hescape, fun rest ending => ?_⟩
  rw [edit_eq_typeOn, seedBytes_eq hseed, typeOn_append rfl ending hstrokes, Utf8.encode_append]

/-- One read of the editor is one read of its draft. -/
theorem edit_eq_read {keys : Keys} (h : e.draft.FitsRead e.capacity keys.strokes) :
    ∃ s, e.edit {} keys.bytes .used = ⟨.ok (e.draft.read keys).1,
      { e with pending := none, lastLine := (e.draft.read keys).2.remembered }, s, keys.closing.rest⟩ := by
  obtain ⟨escape, hescape, hedit⟩ := edit_strokes h
  rw [Keys.bytes, hedit]
  refine typeOn_closing (d := e.draft.strikeAll keys.strokes) ?_ hescape ?_ keys.closing
  · exact (e.draft.strikeAll_remembered keys.strokes).symm
  · rfl

theorem call_eq_draft {c : Call Keys} (h : e.draft.FitsCall e.capacity c) :
    (e.call (c.map Keys.bytes)).1 = (e.draft.call c).1 ∧
      (e.call (c.map Keys.bytes)).2.draft = (e.draft.call c).2 ∧
      (e.call (c.map Keys.bytes)).2.capacity = e.capacity := by
  cases c with
  | seed text => exact ⟨rfl, rfl, rfl⟩
  | read keys =>
    obtain ⟨s, hedit⟩ := edit_eq_read h
    simp only [Call.map, call, Draft.call, hedit]
    refine ⟨trivial, ?_, trivial⟩
    rw [draft, Option.map_none, Option.getD_none, ← Draft.close_text (e.draft.strikeAll keys.strokes) keys.closing]
    rfl

/-- **The editor keeps a draft.** All calls of an editor are answered as its draft answers them, if
seeds are at most as long as its capacity and no character that is typed brings the line to it. -/
theorem answers_eq_draft (e : Editor) (calls : List (Call Keys)) (h : e.draft.Fits e.capacity calls) :
    e.answers (calls.map (Call.map Keys.bytes)) = e.draft.answers calls := by
  induction calls generalizing e with
  | nil => rfl
  | cons c cs ih =>
    obtain ⟨hcall, hrest⟩ := h
    obtain ⟨hanswer, hdraft, hcapacity⟩ := call_eq_draft hcall
    rw [List.map_cons, answers, Draft.answers, hanswer, ih _ (by rwa [hdraft, hcapacity]), hdraft]

/-- A line is entered; then a seeded line is worked on, is given up for the remembered one behind an
escape of its own, and ends in Tab. -/
def sampleCalls : List (Call Keys) :=
  [.read ⟨[.type 'a' (by decide), .type 'é' (by decide)], .enter Key.newline (by decide) [Key.tab]⟩,
    .seed "xyz",
    .read ⟨[.erase Key.delete (by decide), .sequence 0x42 (by decide), .control Key.escape (by decide), .up,
      .erase Key.backspace (by decide), .type 'b' (by decide)], .tab [Key.up]⟩]

theorem answers_eq_draft_sampleCalls :
    ({ capacity := 4 } : Editor).draft.Fits 4 sampleCalls ∧
      ({ capacity := 4 } : Editor).answers (sampleCalls.map (Call.map Keys.bytes)) =
        [⟨some (.ok (.line "aé"), [Key.tab]), some "aé"⟩, ⟨none, some "aé"⟩,
          ⟨some (.ok (.line "ab?"), [Key.up]), some "aé"⟩] := by
  have hfits : ({ capacity := 4 } : Editor).draft.Fits 4 sampleCalls :=
    ⟨⟨by decide, by decide, by decide⟩, trivial, ⟨by decide, by decide, by decide⟩, trivial⟩
  exact ⟨hfits, (answers_eq_draft { capacity := 4 } sampleCalls hfits).trans rfl⟩

end Editor

end LineShell
