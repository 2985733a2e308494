import LineShell.Pipeline.Parse
import LineShell.Proofs.Pipeline.Words
import Mathlib.Data.List.Forall2
import Mathlib.Tactic.MkIffOfInductiveProp

/-!
# Writing a pipeline as a line

`Pipeline.Written` relates a pipeline to the lines that it can be written as: every argument and
every redirect target stands in a pair of quotes that it does not hold, a name stands for itself.
The pipelines that can be written so are `Pipeline.Writable`; reading any such line gives the
pipeline back (`parse_written`), although the names may look like pipes, redirects or marks.
-/

namespace LineShell

/-! ## Lines -/

/-- A text in a pair of quotes that do not occur in it. -/
def Word.Quotes (text : String) (w : Word) : Prop :=
  ∃ q, isQuote q ∧ q ∉ text.toList ∧ w = q :: (text.toList ++ [q])

/-- How a redirect is marked. -/
def Direction.sign : Direction → Word
  | .input => ['<']
  | .output .truncate => ['>']
  | .output .append => ['>', '>']

/-- The redirects of a stage and their targets. -/
def Stage.redirects (s : Stage) : List (Direction × String) :=
  (s.input.map (.input, ·)).toList ++ (s.output.map fun o => (.output o.mode, o.target)).toList

/-- A redirect as one word, its quoted target behind the sign. -/
def Stage.RedirectWord (r : Direction × String) (w : Word) : Prop :=
  ∃ v, Word.Quotes r.2 v ∧ w = r.1.sign ++ v

/-- The name, the arguments and the redirects, with single spaces between them. -/
def Stage.Written (s : Stage) (text : List Char) : Prop :=
  ∃ as rs, List.Forall₂ Word.Quotes s.arguments as ∧ List.Forall₂ RedirectWord s.redirects rs ∧
    text = [' '].intercalate (s.name.toList :: (as ++ rs))

/-- What stands behind the last stage. -/
def Pipeline.mark (p : Pipeline) : List Char :=
  if p.isBackground then [' ', '&'] else if p.needsCompletion then ['?'] else []

/-- The stages joined by pipes, and the mark. -/
def Pipeline.Written (p : Pipeline) (line : String) : Prop :=
  ∃ texts, List.Forall₂ Stage.Written p.stages texts ∧
    line.toList = [' ', '|', ' '].intercalate texts ++ p.mark

/-! ## What can be written -/

/-- One of the quotes does not occur in the text. -/
def Quotable (text : String) : Prop := ∃ q, isQuote q ∧ q ∉ text.toList

theorem quotable_iff (text : String) : Quotable text ↔ '\x22' ∉ text.toList ∨ '\x27' ∉ text.toList := by
  constructor
  · rintro ⟨q, hq, h⟩
    rcases (by simpa [isQuote] using hq : q = '\x22' ∨ q = '\x27') with rfl | rfl
    · exact .inl h
    · exact .inr h
  · rintro (h | h)
    · exact ⟨_, rfl, h⟩
    · exact ⟨_, rfl, h⟩

instance (text : String) : Decidable (Quotable text) := decidable_of_iff' _ (quotable_iff text)

@[mk_iff]
structure Stage.Writable (s : Stage) : Prop where
  name_ne : s.name.toList ≠ []
  name_plain : ∀ c ∈ s.name.toList, isBlank c = false ∧ isQuote c = false
  arguments : ∀ a ∈ s.arguments, Quotable a
  input : ∀ t ∈ s.input, Quotable t
  output : ∀ o ∈ s.output, Quotable o.target

instance (s : Stage) : Decidable s.Writable :=
  -- along the name, and not along all characters that there are
  let _ := List.decidableBAll (fun c => isBlank c = false ∧ isQuote c = false) s.name.toList
  decidable_of_iff' _ (Stage.writable_iff s)

@[mk_iff]
structure Pipeline.Writable (p : Pipeline) : Prop where
  stages : ∀ s ∈ p.stages, s.Writable
  /-- Only the last stage may be left running. -/
  background : ∀ s ∈ p.stages.dropLast, s.background = false
  /-- Only the first stage may ask for completion. -/
  completion : ∀ s ∈ p.tail, s.needsCompletion = false
  one_mark : ¬(p.isBackground ∧ p.needsCompletion)
  /-- A name that ends an unmarked line does not end in a mark. -/
  last_name : ¬(p.mark = [] ∧ p.last.arguments = [] ∧ p.last.redirects = [] ∧
    (p.last.name.toList.getLast? = some '?' ∨ p.last.name.toList.getLast? = some '&'))

instance (p : Pipeline) : Decidable p.Writable := decidable_of_iff' _ (Pipeline.writable_iff p)

/-! ## Words of a stage -/

theorem exists_forall₂ {α β : Type} {R : α → β → Prop} {as : List α} (h : ∀ a ∈ as, ∃ b, R a b) :
    ∃ bs, List.Forall₂ R as bs := by
  induction as with
  | nil => exact ⟨[], .nil⟩
  | cons a as ih =>
    obtain ⟨b, hb⟩ := h a (by simp)
    obtain ⟨bs, hbs⟩ := ih fun a' ha => h a' (by simp [ha])
    exact ⟨b :: bs, .cons hb hbs⟩

theorem exists_of_forall₂ {α β : Type} {R : α → β → Prop} {as : List α} {bs : List β}
    (h : List.Forall₂ R as bs) {b : β} (hb : b ∈ bs) : ∃ a ∈ as, R a b := by
  induction h with
  | nil => cases hb
  | cons hab _ ih =>
    rcases List.mem_cons.1 hb with rfl | hb
    · exact ⟨_, by simp, hab⟩
    · obtain ⟨a, ha, hr⟩ := ih hb
      exact ⟨a, by simp [ha], hr⟩

namespace Word

theorem Quotes.closed {text : String} {w : Word} (h : Quotes text w) : w.Closed := by
  obtain ⟨q, hq, hmem, rfl⟩ := h
  have hb : isBlank q = false := by
    rcases (by simpa [isQuote] using hq : q = '\x22' ∨ q = '\x27') with rfl | rfl <;> rfl
  have hopen : run none [q] = some (some q) := by simp [run, quoteAfter, hb, hq]
  refine ⟨by simp, ?_⟩
  rw [← List.singleton_append, run_append hopen, run_append (run_quoted hmem)]
  simp [run, quoteAfter]

/-- A sign in front of a closed word leaves it closed. -/
theorem Closed.append_plain {v w : Word} (hw : w.Closed)
    (hv : ∀ c ∈ v, isBlank c = false ∧ isQuote c = false) : Closed (v ++ w) :=
  ⟨by simp [hw.1], by rw [run_append (run_plain hv), hw.2]⟩

theorem Quotes.unquote {text : String} {w : Word} (h : Quotes text w) :
    String.ofList (unquote w) = text := by
  obtain ⟨q, hq, -, rfl⟩ := h
  simp [Word.unquote, hq]

theorem Quotes.getLast? {text : String} {w : Word} (h : Quotes text w) :
    ∃ q, w.getLast? = some q ∧ isQuote q := by
  obtain ⟨q, hq, -, rfl⟩ := h
  exact ⟨q, by simp [List.getLast?_cons], hq⟩

theorem Quotes.ne_nil {text : String} {w : Word} (h : Quotes text w) : w ≠ [] := h.closed.1

/-- A quoted word is no pipe, no mark and no redirect. -/
theorem Quotes.plain {text : String} {w : Word} (h : Quotes text w) :
    w ≠ pipe ∧ w ≠ ampersand ∧ redirect? w = none := by
  obtain ⟨q, hq, -, rfl⟩ := h
  rcases (by simpa [isQuote] using hq : q = '\x22' ∨ q = '\x27') with rfl | rfl <;>
    simp [pipe, ampersand, redirect?]

end Word

theorem Direction.sign_plain (d : Direction) : ∀ c ∈ d.sign, isBlank c = false ∧ isQuote c = false := by
  rcases d with _ | _ | _ <;> simp [Direction.sign, isBlank, isQuote]

namespace Stage

variable {s : Stage}

/-- The words behind the name: each is closed, is no pipe and ends in a quote. -/
theorem words_spec {as rs : List Word} (has : List.Forall₂ Word.Quotes s.arguments as)
    (hrs : List.Forall₂ RedirectWord s.redirects rs) :
    ∀ w ∈ as ++ rs, w.Closed ∧ w ≠ Word.pipe ∧ ∃ q, w.getLast? = some q ∧ isQuote q := by
  intro w hw
  rcases List.mem_append.1 hw with hw | hw
  · obtain ⟨a, -, ha⟩ := exists_of_forall₂ has hw
    exact ⟨ha.closed, ha.plain.1, ha.getLast?⟩
  · obtain ⟨r, -, v, hv, rfl⟩ := exists_of_forall₂ hrs hw
    obtain ⟨q, hlast, hq⟩ := hv.getLast?
    have hend : (r.1.sign ++ v).getLast? = some q := by simp [hlast]
    refine ⟨hv.closed.append_plain r.1.sign_plain, fun hpipe => ?_, q, hend, hq⟩
    rw [hpipe] at hend
    cases hend
    exact absurd hq (by decide)

/-! ## Reading a stage back -/

theorem addWords_arguments (s : Stage) {args : List String} {as : List Word}
    (h : List.Forall₂ Word.Quotes args as) (rest : List Word) :
    s.addWords (as ++ rest) = addWords { s with arguments := s.arguments ++ args } rest := by
  induction h generalizing s with
  | nil => simp
  | cons ha _ ih =>
    obtain ⟨-, hamp, hred⟩ := ha.plain
    rw [List.cons_append, addWords.eq_def]
    simp only [hamp, if_false, hred, argument, ha.unquote]
    rw [ih]
    simp

/-- Records a redirect to a path unless there is one in that direction already. -/
def record (s : Stage) (r : Direction × String) : Stage :=
  match r.1 with
  | .input => { s with input := s.input.or (some r.2) }
  | .output mode => { s with output := s.output.or (some ⟨mode, r.2⟩) }

theorem addWords_redirect (s : Stage) {r : Direction × String} {w : Word} (h : RedirectWord r w)
    (rest : List Word) : s.addWords (w :: rest) = addWords (s.record r) rest := by
  obtain ⟨d, target⟩ := r
  obtain ⟨v, hv, rfl⟩ := h
  obtain ⟨c, cs, rfl⟩ := List.exists_cons_of_ne_nil hv.ne_nil
  have hc : c ≠ '>' := by
    obtain ⟨q, hq, -, h⟩ := hv
    cases h
    rintro rfl
    exact absurd hq (by decide)
  have hrecord : s.redirect d (c :: cs) = s.record (d, target) := by
    cases d <;> simp only [redirect, record, hv.unquote]
  rw [addWords.eq_def, ← hrecord]
  rcases d with _ | _ | _ <;> simp [Direction.sign, Word.ampersand, Word.redirect?, hc]

theorem addWords_redirects (s : Stage) {rs : List (Direction × String)} {ws : List Word}
    (h : List.Forall₂ RedirectWord rs ws) : s.addWords ws = rs.foldl record s := by
  induction h generalizing s with
  | nil => rfl
  | cons hr _ ih => rw [addWords_redirect s hr, ih, List.foldl_cons]

/-- The stage without what only the end of a line can say. -/
def unmarked (s : Stage) : Stage := { s with background := false, needsCompletion := false }

theorem ofWords_written {as rs : List Word} (has : List.Forall₂ Word.Quotes s.arguments as)
    (hrs : List.Forall₂ RedirectWord s.redirects rs) :
    ofWords s.name.toList (as ++ rs) = s.unmarked := by
  unfold ofWords
  rw [addWords_arguments _ has, addWords_redirects _ hrs]
  obtain ⟨name, arguments, input, output, b, c⟩ := s
  cases input <;> cases output <;> simp [redirects, record, unmarked]

end Stage

/-! ## Reading the stages back -/

theorem intercalate_append {α : Type} (sep : List α) {xs ys : List (List α)} (hx : xs ≠ []) (hy : ys ≠ []) :
    sep.intercalate (xs ++ ys) = sep.intercalate xs ++ sep ++ sep.intercalate ys := by
  induction xs with
  | nil => exact absurd rfl hx
  | cons x xs ih =>
    cases xs with
    | nil => simp [List.intercalate_cons_of_ne_nil hy]
    | cons x' xs =>
      rw [List.cons_append, List.cons_append, List.intercalate_cons_cons, ← List.cons_append,
        ih (by simp), List.intercalate_cons_cons]
      simp only [List.append_assoc]

theorem getLast?_intercalate {α : Type} (sep : List α) {xs : List (List α)} (h : ∀ x ∈ xs, x ≠ []) :
    (sep.intercalate xs).getLast? = xs.getLast?.bind List.getLast? := by
  induction xs with
  | nil => rfl
  | cons x xs ih =>
    cases xs with
    | nil => simp
    | cons x' xs =>
      have ih := ih fun y hy => h y (by simp [hy])
      have hne : sep.intercalate (x' :: xs) ≠ [] := by
        obtain ⟨c, cs, rfl⟩ := List.exists_cons_of_ne_nil (h x' (by simp))
        simp
      rw [List.intercalate_cons_cons, List.getLast?_append, List.getLast?_cons_cons, ← ih,
        List.getLast?_eq_some_getLast hne]
      rfl

namespace Word

theorem groupsAfter_append {ws : List Word} (h : ∀ w ∈ ws, w ≠ pipe) (rest : List Word) :
    groupsAfter (ws ++ rest) = (ws ++ (groupsAfter rest).1, (groupsAfter rest).2) := by
  induction ws with
  | nil => rfl
  | cons w ws ih =>
    rw [List.cons_append, groupsAfter.eq_def]
    simp only [if_neg (h w (by simp)), ih fun v hv => h v (by simp [hv]), List.cons_append]

/-- The words of groups, each group behind a pipe. -/
def behindPipes (groups : List (Word × List Word)) : List Word :=
  groups.flatMap fun g => pipe :: g.1 :: g.2

theorem groupsAfter_behindPipes {groups : List (Word × List Word)} (h : ∀ g ∈ groups, ∀ w ∈ g.2, w ≠ pipe) :
    groupsAfter (behindPipes groups) = ([], groups) := by
  induction groups with
  | nil => rfl
  | cons g groups ih =>
    have ih := ih fun g' hg => h g' (by simp [hg])
    have hg := groupsAfter_append (h g (by simp)) (behindPipes groups)
    rw [ih, List.append_nil] at hg
    simp only [behindPipes, List.flatMap_cons, List.cons_append] at hg ⊢
    rw [groupsAfter.eq_def]
    simp [hg]

end Word

/-- The groups of words that stages are written as. -/
def Stage.Groups (ss : List Stage) (groups : List (Word × List Word)) : Prop :=
  List.Forall₂ (fun s g => g.1 = s.name.toList ∧ (∀ w ∈ g.2, Word.Closed w ∧ w ≠ Word.pipe) ∧
    Stage.ofWords g.1 g.2 = s.unmarked) ss groups

theorem Stage.Written.group {s : Stage} {text : List Char} (h : s.Written text) :
    ∃ ws, text = [' '].intercalate (s.name.toList :: ws) ∧ (∀ w ∈ ws, Word.Closed w ∧ w ≠ Word.pipe) ∧
      Stage.ofWords s.name.toList ws = s.unmarked := by
  obtain ⟨as, rs, has, hrs, rfl⟩ := h
  exact ⟨as ++ rs, rfl, fun w hw => ⟨(words_spec has hrs w hw).1, (words_spec has hrs w hw).2.1⟩,
    ofWords_written has hrs⟩

theorem Quotable.exists_quotes {text : String} (h : Quotable text) : ∃ w, Word.Quotes text w := by
  obtain ⟨q, hq, hmem⟩ := h
  exact ⟨_, q, hq, hmem, rfl⟩

theorem Stage.Writable.exists_written {s : Stage} (h : s.Writable) : ∃ text, s.Written text := by
  obtain ⟨as, has⟩ := exists_forall₂ fun a ha => (h.arguments a ha).exists_quotes
  have hredirect : ∀ r ∈ s.redirects, ∃ w, RedirectWord r w := by
    intro r hr
    simp only [redirects, List.mem_append, Option.mem_toList, Option.map_eq_some_iff] at hr
    have hquote : Quotable r.2 := by
      rcases hr with ⟨t, ht, rfl⟩ | ⟨o, ho, rfl⟩
      · exact h.input t ht
      · exact h.output o ho
    obtain ⟨v, hv⟩ := hquote.exists_quotes
    exact ⟨_, v, hv, rfl⟩
  obtain ⟨rs, hrs⟩ := exists_forall₂ hredirect
  exact ⟨_, as, rs, has, hrs, rfl⟩

theorem Stage.Writable.name_closed {s : Stage} (h : s.Writable) : Word.Closed s.name.toList :=
  ⟨h.name_ne, Word.run_plain h.name_plain⟩

namespace Pipeline

/-- The joined stages are words with single spaces between them, in groups behind pipes. -/
theorem exists_words {s : Stage} {ss : List Stage} {texts : List (List Char)}
    (h : List.Forall₂ Stage.Written (s :: ss) texts) :
    ∃ ws groups, [' ', '|', ' '].intercalate texts =
        [' '].intercalate (s.name.toList :: (ws ++ Word.behindPipes groups)) ∧
      (∀ w ∈ ws, Word.Closed w ∧ w ≠ Word.pipe) ∧ Stage.ofWords s.name.toList ws = s.unmarked ∧
      Stage.Groups ss groups := by
  induction ss generalizing s texts with
  | nil =>
    obtain ⟨text, _, hs, hnil, rfl⟩ := List.forall₂_cons_left_iff.1 h
    cases hnil
    obtain ⟨ws, rfl, hws, hread⟩ := hs.group
    exact ⟨ws, [], by simp [Word.behindPipes], hws, hread, .nil⟩
  | cons t ts ih =>
    obtain ⟨text, texts, hs, hts, rfl⟩ := List.forall₂_cons_left_iff.1 h
    obtain ⟨ws, rfl, hws, hread⟩ := hs.group
    obtain ⟨vs, groups, hjoin, hvs, htread, hgroups⟩ := ih hts
    have hne : texts ≠ [] := by
      rintro rfl
      cases hts
    refine ⟨ws, (t.name.toList, vs) :: groups, ?_, hws, hread, .cons ⟨rfl, hvs, htread⟩ hgroups⟩
    have hsplit : s.name.toList :: (ws ++ Word.behindPipes ((t.name.toList, vs) :: groups)) =
        (s.name.toList :: ws) ++ Word.pipe :: t.name.toList :: (vs ++ Word.behindPipes groups) := by
      simp [Word.behindPipes]
    rw [hsplit, intercalate_append _ (by simp) (by simp), List.intercalate_cons_of_ne_nil hne, hjoin]
    simp [Word.pipe]

/-- The pipeline without what only the end of a line can say. -/
def unmarked (p : Pipeline) : Pipeline := ⟨p.head.unmarked, p.tail.map Stage.unmarked⟩

theorem ofWords_of_groups {s : Stage} {ss : List Stage} {ws : List Word}
    {groups : List (Word × List Word)} (hpipe : ∀ w ∈ ws, w ≠ Word.pipe)
    (hread : Stage.ofWords s.name.toList ws = s.unmarked) (hgroups : Stage.Groups ss groups) :
    ofWords (s.name.toList :: (ws ++ Word.behindPipes groups)) = unmarked ⟨s, ss⟩ := by
  have hmore : ∀ g ∈ groups, ∀ w ∈ g.2, w ≠ Word.pipe := fun g hg w hw => by
    obtain ⟨_, -, -, h, -⟩ := exists_of_forall₂ hgroups hg
    exact (h w hw).2
  have htail : groups.map (fun g => Stage.ofWords g.1 g.2) = ss.map Stage.unmarked := by
    induction hgroups with
    | nil => rfl
    | cons h _ ih => simp [h.2.2, ih fun g hg => hmore g (by simp [hg])]
  simp only [ofWords, Word.groupsAfter_append hpipe, Word.groupsAfter_behindPipes hmore,
    List.append_nil, hread, htail, unmarked]

/-- The joined stages of a pipeline are read as the pipeline without its marks. -/
theorem ofWords_joined {p : Pipeline} {texts : List (List Char)} (hw : ∀ s ∈ p.stages, s.Writable)
    (h : List.Forall₂ Stage.Written p.stages texts) :
    ofWords (Word.ofLine ([' ', '|', ' '].intercalate texts)) = p.unmarked := by
  obtain ⟨s, ss⟩ := p
  obtain ⟨ws, groups, hjoin, hws, hread, hgroups⟩ := exists_words h
  have hclosed : ∀ w ∈ s.name.toList :: (ws ++ Word.behindPipes groups), Word.Closed w := by
    intro w hmem
    simp only [List.mem_cons, List.mem_append, Word.behindPipes, List.mem_flatMap] at hmem
    rcases hmem with rfl | hmem | ⟨g, hg, rfl | rfl | hmem⟩
    · exact (hw s (by simp [stages])).name_closed
    · exact (hws w hmem).1
    · exact ⟨by decide, by decide⟩
    · obtain ⟨t, ht, hname, -, -⟩ := exists_of_forall₂ hgroups hg
      rw [hname]
      exact (hw t (by simp [stages, ht])).name_closed
    · obtain ⟨t, -, -, hmore, -⟩ := exists_of_forall₂ hgroups hg
      exact (hmore w hmem).1
  rw [hjoin, Word.ofLine_intercalate hclosed]
  exact ofWords_of_groups (fun w hmem => (hws w hmem).2) hread hgroups

/-! ## The marks -/

theorem markLast_unmarked {s : Stage} {ss : List Stage} (hb : ∀ t ∈ (s :: ss).dropLast, t.background = false)
    (hc : ∀ t ∈ ss, t.needsCompletion = false) :
    markLast (ss.getLastD s).background { s with background := false } (ss.map Stage.unmarked) = ⟨s, ss⟩ := by
  induction ss generalizing s with
  | nil => rfl
  | cons t ts ih =>
    have hs : { s with background := false } = s := by
      rw [← hb s (by simp)]
    have ht : t.unmarked = { t with background := false } := by
      rw [Stage.unmarked, ← hc t (by simp)]
    have ih := ih (s := t) (fun u hu => hb u (by simp [hu])) fun u hu => hc u (by simp [hu])
    rw [List.map_cons, ht, markLast, List.getLastD_cons, ih, hs]
    rfl

/-- Setting the marks of a pipeline again gives the pipeline. -/
theorem setBackground_unmarked {p : Pipeline} (h : p.Writable) :
    setBackground { p.unmarked with head := { p.unmarked.head with needsCompletion := p.needsCompletion } }
      p.isBackground = p :=
  markLast_unmarked h.background h.completion

end Pipeline

/-- A text with something other than blanks at both ends. -/
def Tight (text : List Char) : Prop :=
  ∃ a b, text.head? = some a ∧ text.getLast? = some b ∧ isBlank a = false ∧ isBlank b = false

theorem Tight.trim {text : List Char} (h : Tight text) : trim text = text := by
  obtain ⟨a, b, ha, hb, hna, hnb⟩ := h
  exact trim_eq_self (by simp [ha, hna]) (by simp [hb, hnb])

namespace LineEnd

theorem split_plain {text : List Char} (h : Tight text) (hc : ∀ c ∈ text.getLast?, c ≠ '?' ∧ c ≠ '&') :
    split text = (text, .plain) := by
  obtain ⟨b, hb⟩ : ∃ b, text.getLast? = some b := by
    obtain ⟨-, b, -, hb, -⟩ := h
    exact ⟨b, hb⟩
  have hne := hc b hb
  simp [split, h.trim, hb, hne.1, hne.2]

/-- A mark is taken off, with the blanks in front of it. -/
theorem split_mark {text : List Char} (h : Tight text) (mark : List Char) (m : Char)
    (hlast : mark.getLast? = some m) (hgap : ∀ c ∈ mark.dropLast, isBlank c) (hm : isBlank m = false) :
    split (text ++ mark) =
      if m = '?' then (text, .completion) else if m = '&' then (text, .background)
      else (text ++ mark, .plain) := by
  have hne : mark ≠ [] := by
    rintro rfl
    cases hlast
  have hend : (text ++ mark).getLast? = some m := by rw [List.getLast?_append, hlast, Option.some_or]
  have htext : LineShell.trim (text ++ mark) = text ++ mark := by
    obtain ⟨a, -, ha, -, hna, -⟩ := h
    exact Tight.trim ⟨a, m, by simp [ha], hend, hna, hm⟩
  have hrest : LineShell.trim (text ++ mark).dropLast = text := by
    rw [List.dropLast_append_of_ne_nil hne, trim_append_blanks text hgap, h.trim]
  simp [split, htext, hend, hrest]

end LineEnd

/-! ## The ends of a written line -/

theorem Stage.Written.getLast? {s : Stage} {text : List Char} (hs : s.Writable) (h : s.Written text) :
    ∃ c, text.getLast? = some c ∧
      (isQuote c ∨ s.arguments = [] ∧ s.redirects = [] ∧ s.name.toList.getLast? = some c) := by
  obtain ⟨as, rs, has, hrs, rfl⟩ := h
  have hne : ∀ w ∈ s.name.toList :: (as ++ rs), w ≠ [] := by
    intro w hw
    rcases List.mem_cons.1 hw with rfl | hw
    · exact hs.name_ne
    · exact (words_spec has hrs w hw).1.1
  rw [getLast?_intercalate _ hne]
  rcases List.eq_nil_or_concat (as ++ rs) with hnil | ⟨ws, w, hconcat⟩
  · obtain ⟨rfl, rfl⟩ := List.append_eq_nil_iff.1 hnil
    refine ⟨s.name.toList.getLast hs.name_ne, ?_, .inr ⟨?_, ?_, List.getLast?_eq_some_getLast _⟩⟩
    · exact List.getLast?_eq_some_getLast _
    · exact List.forall₂_nil_right_iff.1 has
    · exact List.forall₂_nil_right_iff.1 hrs
  · obtain ⟨-, -, q, hq, hquote⟩ := words_spec has hrs w (by simp [hconcat])
    refine ⟨q, ?_, .inl hquote⟩
    rw [hconcat, List.concat_eq_append, ← List.cons_append, List.getLast?_concat]
    exact hq

namespace Pipeline

theorem exists_getLast? {R : Stage → List Char → Prop} {s : Stage} {ss : List Stage}
    {texts : List (List Char)} (h : List.Forall₂ R (s :: ss) texts) :
    ∃ text, texts.getLast? = some text ∧ R (ss.getLastD s) text := by
  induction ss generalizing s texts with
  | nil =>
    obtain ⟨text, _, hs, hnil, rfl⟩ := List.forall₂_cons_left_iff.1 h
    cases hnil
    exact ⟨text, rfl, hs⟩
  | cons t ts ih =>
    obtain ⟨text, texts, -, hts, rfl⟩ := List.forall₂_cons_left_iff.1 h
    obtain ⟨last, hlast, hR⟩ := ih hts
    obtain ⟨u, us, rfl⟩ := List.exists_cons_of_ne_nil (fun e : texts = [] => by simp [e] at hlast)
    exact ⟨last, hlast, by rwa [List.getLastD_cons]⟩

theorem last_mem (p : Pipeline) : p.last ∈ p.stages :=
  List.getLastD_mem_cons

/-- The joined stages begin with no blank; they end in a quote or in the name of the last stage. -/
theorem joined_ends {p : Pipeline} {texts : List (List Char)} (hw : ∀ s ∈ p.stages, s.Writable)
    (h : List.Forall₂ Stage.Written p.stages texts) :
    Tight ([' ', '|', ' '].intercalate texts) ∧
      ∀ c ∈ ([' ', '|', ' '].intercalate texts).getLast?,
        isQuote c ∨ p.last.arguments = [] ∧ p.last.redirects = [] ∧ p.last.name.toList.getLast? = some c := by
  have hlastw : p.last.Writable := hw _ p.last_mem
  obtain ⟨text, htext, hwritten⟩ := exists_getLast? h
  obtain ⟨b, hb, hend⟩ := Stage.Written.getLast? hlastw hwritten
  have hne : ∀ t ∈ texts, t ≠ [] := by
    intro t ht
    obtain ⟨s, hs, hst⟩ := exists_of_forall₂ h ht
    obtain ⟨c, hc, -⟩ := hst.getLast? (hw s hs)
    rintro rfl
    simp at hc
  have hlast : ([' ', '|', ' '].intercalate texts).getLast? = some b := by
    rw [getLast?_intercalate _ hne, htext]
    exact hb
  have hb' : isBlank b = false := by
    rcases hend with hq | ⟨-, -, hname⟩
    · rcases (by simpa [isQuote] using hq : b = '\x22' ∨ b = '\x27') with rfl | rfl <;> rfl
    · exact (hlastw.name_plain b (List.mem_of_getLast? hname)).1
  have hhead : ∃ a, ([' ', '|', ' '].intercalate texts).head? = some a ∧ isBlank a = false := by
    obtain ⟨s, ss⟩ := p
    obtain ⟨ws, groups, hjoin, -⟩ := exists_words h
    have hs := hw s (by simp [stages])
    obtain ⟨a, as, hname⟩ := List.exists_cons_of_ne_nil hs.name_ne
    refine ⟨a, ?_, (hs.name_plain a (by simp [hname])).1⟩
    rw [hjoin, hname, List.intercalate_cons_cons_left]
    rfl
  obtain ⟨a, ha, ha'⟩ := hhead
  refine ⟨⟨a, b, ha, hlast, ha', hb'⟩, fun c hc => ?_⟩
  rw [hlast] at hc
  cases hc
  exact hend

/-! ## The round trip -/

theorem mark_cases (p : Pipeline) (h : ¬(p.isBackground ∧ p.needsCompletion)) :
    p.isBackground = true ∧ p.needsCompletion = false ∧ p.mark = [' ', '&'] ∨
    p.isBackground = false ∧ p.needsCompletion = true ∧ p.mark = ['?'] ∨
    p.isBackground = false ∧ p.needsCompletion = false ∧ p.mark = [] := by
  cases hb : p.isBackground <;> cases hc : p.needsCompletion <;> simp [mark, hb, hc] at h ⊢

theorem split_written {p : Pipeline} (hp : p.Writable) {texts : List (List Char)}
    (h : List.Forall₂ Stage.Written p.stages texts) :
    LineEnd.split ([' ', '|', ' '].intercalate texts ++ p.mark) =
      ([' ', '|', ' '].intercalate texts,
        if p.isBackground then .background else if p.needsCompletion then .completion else .plain) := by
  obtain ⟨htight, hend⟩ := joined_ends hp.stages h
  rcases p.mark_cases hp.one_mark with ⟨hb, -, hm⟩ | ⟨hb, hc, hm⟩ | ⟨hb, hc, hm⟩
  · simp [hm, hb, LineEnd.split_mark htight [' ', '&'] '&' rfl (by simp [isBlank]) rfl]
  · simp [hm, hb, hc, LineEnd.split_mark htight ['?'] '?' rfl (by simp) rfl]
  · have hplain : ∀ c ∈ ([' ', '|', ' '].intercalate texts).getLast?, c ≠ '?' ∧ c ≠ '&' := by
      intro c hmem
      rcases hend c hmem with hq | ⟨hargs, hreds, hname⟩
      · rcases (by simpa [isQuote] using hq : c = '\x22' ∨ c = '\x27') with rfl | rfl <;> decide
      · refine ⟨?_, ?_⟩
        · rintro rfl
          exact hp.last_name ⟨hm, hargs, hreds, .inl hname⟩
        · rintro rfl
          exact hp.last_name ⟨hm, hargs, hreds, .inr hname⟩
    simp [hm, hb, hc, LineEnd.split_plain htight hplain]

theorem parse_written {p : Pipeline} (hp : p.Writable) {line : String} (h : p.Written line) :
    parse line = p := by
  obtain ⟨texts, htexts, hline⟩ := h
  have hmark : setBackground { p.unmarked with
      head := { p.unmarked.head with needsCompletion := p.needsCompletion } } p.isBackground = p :=
    setBackground_unmarked hp
  unfold parse ofText
  rw [hline, split_written hp htexts]
  simp only [ofWords_joined hp.stages htexts]
  rcases p.mark_cases hp.one_mark with ⟨hb, hc, -⟩ | ⟨hb, hc, -⟩ | ⟨hb, hc, -⟩ <;>
    simpa [hb, hc] using hmark

theorem Writable.exists_written {p : Pipeline} (hp : p.Writable) : ∃ line, p.Written line := by
  obtain ⟨texts, htexts⟩ := exists_forall₂ (R := Stage.Written) fun s hs => (hp.stages s hs).exists_written
  exact ⟨String.ofList ([' ', '|', ' '].intercalate texts ++ p.mark), texts, htexts, String.toList_ofList⟩

/-- Every writable pipeline can be written, and whatever line it is written as, reading that line
gives exactly the pipeline back. -/
theorem parse_eq_of_written {p : Pipeline} (hp : p.Writable) :
    (∃ line, p.Written line) ∧ ∀ line, p.Written line → parse line = p :=
  ⟨hp.exists_written, fun _ h => parse_written hp h⟩

/-- Names that look like a pipe and a redirect, arguments that hold pipes, marks and quotes; and the other
mark, bare behind a name and behind a quote. -/
theorem parse_eq_of_written_pipes :
    (Writable ⟨{ name := "|", arguments := ["a | b", "", "it's"], input := some "in <" },
        [{ name := "<x", arguments := ["\"&"], output := some ⟨.append, "out?"⟩, background := true }]⟩ ∧
      parse "| 'a | b' \"\" \"it's\" <'in <' | <x '\"&' >>\"out?\" &" =
        ⟨{ name := "|", arguments := ["a | b", "", "it's"], input := some "in <" },
          [{ name := "<x", arguments := ["\"&"], output := some ⟨.append, "out?"⟩, background := true }]⟩) ∧
    parse "ls??" = single { name := "ls?", needsCompletion := true } ∧
    parse "ls 'a'?" = single { name := "ls", arguments := ["a"], needsCompletion := true } := by
  refine ⟨?_, ?_, ?_⟩
  · have hw : Writable ⟨{ name := "|", arguments := ["a | b", "", "it's"], input := some "in <" },
        [{ name := "<x", arguments := ["\"&"], output := some ⟨.append, "out?"⟩, background := true }]⟩ := by
      decide
    have hfirst : Stage.Written { name := "|", arguments := ["a | b", "", "it's"], input := some "in <" }
        "| 'a | b' \"\" \"it's\" <'in <'".toList :=
      ⟨["'a | b'".toList, "\"\"".toList, "\"it's\"".toList], ["<'in <'".toList],
        .cons ⟨'\x27', rfl, by decide, rfl⟩ (.cons ⟨'\x22', rfl, by decide, rfl⟩
          (.cons ⟨'\x22', rfl, by decide, rfl⟩ .nil)),
        .cons ⟨_, ⟨'\x27', rfl, by decide, rfl⟩, rfl⟩ .nil, by decide⟩
    have hsecond : Stage.Written
        { name := "<x", arguments := ["\"&"], output := some ⟨.append, "out?"⟩, background := true }
        "<x '\"&' >>\"out?\"".toList :=
      ⟨["'\"&'".toList], [">>\"out?\"".toList], .cons ⟨'\x27', rfl, by decide, rfl⟩ .nil,
        .cons ⟨_, ⟨'\x22', rfl, by decide, rfl⟩, rfl⟩ .nil, by decide⟩
    exact ⟨hw, (parse_eq_of_written hw).2 _ ⟨_, .cons hfirst (.cons hsecond .nil), by decide⟩⟩
  · exact (parse_eq_of_written (by decide)).2 _ ⟨_, .cons ⟨[], [], .nil, .nil, rfl⟩ .nil, by decide⟩
  · exact (parse_eq_of_written (by decide)).2 _
      ⟨_, .cons ⟨["'a'".toList], [], .cons ⟨'\x27', rfl, by decide, rfl⟩ .nil, .nil, rfl⟩ .nil, by decide⟩

end Pipeline

end LineShell
