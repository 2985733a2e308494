import LineShell.Proofs.Pipeline.Items
import Mathlib.Data.List.Forall2

/-!
# Words that lose their quotes

One pair of quotes around a word is not a part of what the word says: where the quote that the word begins with is
closed by its last character, and not before, the two ought to go, and any other word ought to stay as it is
(`Word.Unwraps`). Only the first and the last character are looked at. So a word of several parts loses a quote of
its first part and one of its last (`Word.Reopens`), and that is all that goes wrong: `Pipeline.unwraps_iff` says so
of every argument and every target of a line.
-/

namespace LineShell

namespace Word

variable {w : Word} {q : Char} {body : List Char}

/-- The text is what a word says that is in one pair of quotes, or the word as it is if it is not. -/
def Unwraps (w : Word) (text : String) : Prop :=
  Quotes text w ∨ (∀ inner, ¬ Quotes inner w) ∧ text = String.ofList w

/-- The first and the last character are the same quote, and it stands between them, too: the last one does not close
the first one. -/
def Reopens (w : Word) : Prop := ∃ q body, isQuote q ∧ q ∈ body ∧ w = q :: (body ++ [q])

/-- A word between two quotes loses them, whatever is between. -/
theorem recorded_enclosed (hq : isQuote q) (body : List Char) : recorded (q :: (body ++ [q])) = String.ofList body := by
  simp [recorded, unquote, hq]

theorem recorded_other (h : ∀ q body, isQuote q → w ≠ q :: (body ++ [q])) : recorded w = String.ofList w := by
  cases w with
  | nil => rfl
  | cons q rest =>
    have hother : ¬ (isQuote q ∧ rest.getLast? = some q) := by
      rintro ⟨hq, hlast⟩
      obtain ⟨body, rfl⟩ := List.getLast?_eq_some_iff.1 hlast
      exact h q body hq rfl
    rw [recorded, unquote, if_neg hother]

theorem enclosed_inj {q' : Char} {body' : List Char} (h : q :: (body ++ [q]) = q' :: (body' ++ [q'])) :
    q = q' ∧ body = body' := by
  obtain ⟨rfl, hrest⟩ := List.cons.inj h
  exact ⟨rfl, List.append_cancel_right hrest⟩

/-- What is recorded is what the word says, unless it is one of several parts. -/
theorem unwraps_recorded_iff (w : Word) : w.Unwraps w.recorded ↔ ¬ w.Reopens := by
  by_cases henclosed : ∃ q body, isQuote q ∧ w = q :: (body ++ [q])
  · obtain ⟨q, body, hq, rfl⟩ := henclosed
    rw [recorded_enclosed hq]
    constructor
    · rintro (⟨q', -, hbody, hw⟩ | ⟨-, hw⟩) ⟨q'', body'', -, hmem, hw''⟩
      · obtain ⟨rfl, -⟩ := enclosed_inj hw
        obtain ⟨rfl, rfl⟩ := enclosed_inj hw''
        exact hbody (by simpa using hmem)
      · have hlength := congrArg List.length (String.ofList_injective hw)
        simp only [List.length_cons, List.length_append, List.length_nil] at hlength
        omega
    · intro hreopens
      exact .inl ⟨q, hq, by simpa using fun hmem => hreopens ⟨q, body, hq, hmem, rfl⟩, by simp⟩
  · have hother : ∀ q body, isQuote q → w ≠ q :: (body ++ [q]) := fun q body hq hw => henclosed ⟨q, body, hq, hw⟩
    rw [recorded_other hother]
    constructor
    · rintro - ⟨q, body, hq, -, hw⟩
      exact hother q body hq hw
    · intro _
      refine .inr ⟨?_, rfl⟩
      rintro inner ⟨q, hq, -, hw⟩
      exact hother q _ hq hw

/-- A word of several parts loses its ends all the same. -/
theorem eq_of_reopens (h : w.Reopens) : ∃ q, w = q :: (w.recorded.toList ++ [q]) := by
  obtain ⟨q, body, hq, -, rfl⟩ := h
  exact ⟨q, by rw [recorded_enclosed hq, String.toList_ofList]⟩

/-- What a word is recorded as. -/
structure RecordedAs (w : Word) (text : String) : Prop where
  unwraps_iff : w.Unwraps text ↔ ¬ w.Reopens
  ends : w.Reopens → ∃ q, w = q :: (text.toList ++ [q])

theorem recordedAs_recorded (w : Word) : w.RecordedAs w.recorded :=
  ⟨w.unwraps_recorded_iff, eq_of_reopens⟩

end Word

/-! ## Lines -/

open Item in
/-- Each argument of the stage, and each target that it keeps, is in the relation to the word that it is made of. -/
structure Stage.Records (R : Word → String → Prop) (words : List Word) (s : Stage) : Prop where
  arguments : List.Forall₂ R (Item.arguments (split words)) s.arguments
  input : Option.Rel R (inputs (split words)).head? s.input
  output : Option.Rel (fun o o' => o.1 = o'.mode ∧ R o.2 o'.target) (outputs (split words)).head? s.output

theorem Stage.records_ofWords {R : Word → String → Prop} (h : ∀ w : Word, R w w.recorded) (name : Word)
    (words : List Word) : (ofWords name words).Records R words := by
  rw [ofWords_eq]
  refine ⟨?_, ?_, ?_⟩
  · rw [ofItems, List.forall₂_map_right_iff, List.forall₂_same]
    exact fun w _ => h w
  · dsimp only [ofItems]
    cases (Item.inputs (Item.split words)).head? with
    | none => exact .none
    | some target => exact .some (h target)
  · dsimp only [ofItems]
    cases (Item.outputs (Item.split words)).head? with
    | none => exact .none
    | some o => exact .some ⟨rfl, h o.2⟩

namespace Pipeline

/-- The words of a line, stage by stage: the name, and the words behind it. A line without words has one stage. -/
def groups (line : String) : List (Word × List Word) :=
  match Word.ofLine (LineEnd.split line.toList).1 with
  | [] => [([], [])]
  | name :: words => (name, (Word.groupsAfter words).1) :: (Word.groupsAfter words).2

theorem stages_ofWords (line : String) : (ofWords (Word.ofLine (LineEnd.split line.toList).1)).stages =
    (groups line).map fun g => Stage.ofWords g.1 g.2 := by
  unfold groups
  cases Word.ofLine (LineEnd.split line.toList).1 <;> rfl

/-- What holds of the words of each stage, and of the stage that is made of them, holds of the stages of the line. -/
theorem forall₂_parse {P : Word × List Word → Stage → Prop} (line : String)
    (hP : ∀ g s b c, P g s → P g { s with background := b, needsCompletion := c })
    (h : ∀ name words, P (name, words) (Stage.ofWords name words)) :
    List.Forall₂ P (groups line) (parse line).stages := by
  have hstages : List.Forall₂ P (groups line) (ofWords (Word.ofLine (LineEnd.split line.toList).1)).stages := by
    rw [stages_ofWords, List.forall₂_map_right_iff, List.forall₂_same]
    exact fun g _ => h g.1 g.2
  rw [← unmarked_stages_parse, List.forall₂_map_right_iff] at hstages
  exact hstages.imp fun g s hs => hP g s.unmarked s.background s.needsCompletion hs

/-- **Quotes that are lost.** Every argument of a line, and every target that is kept, is what its word says if and
only if the word does not reopen its first quote; and a word that does loses its ends nevertheless. -/
theorem unwraps_iff (line : String) :
    List.Forall₂ (fun g s => s.name = String.ofList g.1 ∧ s.Records Word.RecordedAs g.2) (groups line)
      (parse line).stages := by
  refine forall₂_parse line (fun g s b c hs => ?_) fun name words => ⟨?_, ?_⟩
  · exact ⟨hs.1, hs.2.arguments, hs.2.input, hs.2.output⟩
  · rw [Stage.ofWords_eq]
    rfl
  · exact Stage.records_ofWords Word.recordedAs_recorded name words

/-- Two quoted parts with a character between them: what is recorded is not what the word says. -/
theorem unwraps_iff_parts :
    (parse "echo 'a'b'c'").head.arguments = ["a'b'c"] ∧ ¬ Word.Unwraps "'a'b'c'".toList "a'b'c" := by
  have hgroups : groups "echo 'a'b'c'" = [("echo".toList, ["'a'b'c'".toList])] := by decide +kernel
  have hread : (parse "echo 'a'b'c'").head.arguments = ["a'b'c"] := by decide +kernel
  have hword : Item.arguments (Item.split ["'a'b'c'".toList]) = ["'a'b'c'".toList] := by decide +kernel
  have hline := unwraps_iff "echo 'a'b'c'"
  rw [hgroups] at hline
  obtain ⟨s, ss, ⟨-, hrecords⟩, -, hstages⟩ := List.forall₂_cons_left_iff.1 hline
  obtain ⟨rfl, -⟩ := List.cons.inj hstages
  have harguments := hrecords.arguments
  rw [hread, hword] at harguments
  obtain ⟨hrecorded, -⟩ := List.forall₂_cons.1 harguments
  refine ⟨hread, fun hunwraps => hrecorded.unwraps_iff.1 hunwraps ?_⟩
  exact ⟨'\x27', "a'b'c".toList, rfl, by decide +kernel, by decide +kernel⟩

end Pipeline

end LineShell
