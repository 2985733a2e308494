import LineShell.Proofs.Pipeline.Characters

/-!
# Arguments and redirects of a stage

The words behind the name of a stage fall into items, from left to right (`Item.split`): an argument, a redirect with
its target in the same word or in the next one, or `&`, which is skipped. A stage keeps all its arguments and the
first redirect of each direction (`Stage.ofWords_eq`). So it makes no difference where among the arguments a redirect
stands, nor whether others of its direction stand behind it (`Stage.redirects_anywhere`).
-/

namespace LineShell

/-- What a word behind a name is, or a sign and the word behind it. -/
inductive Item where
  | argument (w : Word) (plain : w ≠ Word.ampersand ∧ Word.redirect? w = none)
  | ampersand
  /-- A redirect in one word. -/
  | attached (w : Word) (d : Direction) (target : Word) (sign : Word.redirect? w = some (d, target))
    (ne_nil : target ≠ [])
  /-- A sign that stands alone, and the word behind it, whatever it looks like. -/
  | apart (w : Word) (d : Direction) (target : Word) (sign : Word.redirect? w = some (d, []))
    (takes : target ≠ Word.ampersand)
  /-- A sign with nothing behind it that it could take. -/
  | bare (w : Word) (d : Direction) (sign : Word.redirect? w = some (d, []))
  deriving DecidableEq

namespace Item

/-- The words that an item is made of. -/
def words : Item → List Word
  | argument w _ => [w]
  | ampersand => [Word.ampersand]
  | attached w _ _ _ _ => [w]
  | apart w _ target _ _ => [w, target]
  | bare w _ _ => [w]

/-- The words of all items, one behind the other. -/
def spell (items : List Item) : List Word := items.flatMap words

def argument? : Item → Option Word
  | argument w _ => some w
  | _ => none

/-- The direction and the target of a redirect; a sign that takes nothing has the empty target. -/
def redirect? : Item → Option (Direction × Word)
  | attached _ d target _ _ => some (d, target)
  | apart _ d target _ _ => some (d, target)
  | bare _ d _ => some (d, [])
  | _ => none

/-- The target of an input redirect. -/
def input? (item : Item) : Option Word :=
  match item.redirect? with
  | some (.input, target) => some target
  | _ => none

/-- The mode and the target of an output redirect. -/
def output? (item : Item) : Option (OutputMode × Word) :=
  match item.redirect? with
  | some (.output mode, target) => some (mode, target)
  | _ => none

/-- The arguments among some items, and the redirects of each direction. -/
def arguments (items : List Item) : List Word := items.filterMap argument?

def inputs (items : List Item) : List Word := items.filterMap input?

def outputs (items : List Item) : List (OutputMode × Word) := items.filterMap output?

@[simp] theorem arguments_cons (item : Item) (items : List Item) :
    arguments (item :: items) = item.argument?.toList ++ arguments items := by
  cases h : item.argument? <;> simp [arguments, h]

@[simp] theorem inputs_cons (item : Item) (items : List Item) :
    inputs (item :: items) = item.input?.toList ++ inputs items := by
  cases h : item.input? <;> simp [inputs, h]

@[simp] theorem outputs_cons (item : Item) (items : List Item) :
    outputs (item :: items) = item.output?.toList ++ outputs items := by
  cases h : item.output? <;> simp [outputs, h]

@[simp] theorem arguments_append (items items' : List Item) :
    arguments (items ++ items') = arguments items ++ arguments items' := List.filterMap_append

@[simp] theorem inputs_append (items items' : List Item) : inputs (items ++ items') = inputs items ++ inputs items' :=
  List.filterMap_append

@[simp] theorem outputs_append (items items' : List Item) :
    outputs (items ++ items') = outputs items ++ outputs items' := List.filterMap_append

theorem argument?_of_redirect {item : Item} {r : Direction × Word} (h : item.redirect? = some r) :
    item.argument? = none := by
  cases item with
  | argument w plain => cases h
  | _ => rfl

def IsBare : Item → Prop
  | bare _ _ _ => True
  | _ => False

instance : DecidablePred IsBare := fun item =>
  match item with
  | bare _ _ _ => isTrue trivial
  | argument _ _ | ampersand | attached _ _ _ _ _ | apart _ _ _ _ _ => isFalse id

/-- The items of some words. -/
def split : List Word → List Item
  | [] => []
  | w :: ws =>
    if hampersand : w = Word.ampersand then ampersand :: split ws
    else match sign : Word.redirect? w with
      | none => argument w ⟨hampersand, sign⟩ :: split ws
      | some (d, []) =>
        match ws with
        | [] => [bare w d sign]
        | next :: rest =>
          if takes : next = Word.ampersand then bare w d sign :: split (next :: rest)
          else apart w d next sign takes :: split rest
      | some (d, c :: target) => attached w d (c :: target) sign (List.cons_ne_nil c target) :: split ws

section Split

variable {w next target : Word} {ws : List Word} {d : Direction}

theorem ne_ampersand_of_sign (sign : Word.redirect? w = some (d, target)) : w ≠ Word.ampersand := by
  rintro rfl
  cases sign

theorem split_ampersand (ws : List Word) : split (Word.ampersand :: ws) = ampersand :: split ws := by
  rw [split.eq_def]
  rfl

theorem split_argument (plain : w ≠ Word.ampersand ∧ Word.redirect? w = none) (ws : List Word) :
    split (w :: ws) = argument w plain :: split ws := by
  rw [split.eq_def]
  simp only [dif_neg plain.1]
  split
  · rfl
  · next h => cases plain.2.symm.trans h
  · next h => cases plain.2.symm.trans h

theorem split_attached (sign : Word.redirect? w = some (d, target)) (ne_nil : target ≠ []) (ws : List Word) :
    split (w :: ws) = attached w d target sign ne_nil :: split ws := by
  rw [split.eq_def]
  simp only [dif_neg (ne_ampersand_of_sign sign)]
  split
  · next h => cases sign.symm.trans h
  · next h =>
    cases sign.symm.trans h
    exact absurd rfl ne_nil
  · next h =>
    cases sign.symm.trans h
    rfl

/-- What a sign that stands alone comes to depends on the word behind it. -/
theorem split_sign (sign : Word.redirect? w = some (d, [])) (ws : List Word) : split (w :: ws) =
    match ws with
    | [] => [bare w d sign]
    | next :: rest =>
      if takes : next = Word.ampersand then bare w d sign :: split (next :: rest)
      else apart w d next sign takes :: split rest := by
  rw [split.eq_def]
  simp only [dif_neg (ne_ampersand_of_sign sign)]
  split
  · next h => cases sign.symm.trans h
  · next h =>
    cases sign.symm.trans h
    rfl
  · next h => cases sign.symm.trans h

theorem split_apart (sign : Word.redirect? w = some (d, [])) (takes : next ≠ Word.ampersand) (ws : List Word) :
    split (w :: next :: ws) = apart w d next sign takes :: split ws := by
  rw [split_sign sign]
  exact dif_neg takes

theorem split_bare (sign : Word.redirect? w = some (d, [])) (ws : List Word) :
    split (w :: Word.ampersand :: ws) = bare w d sign :: split (Word.ampersand :: ws) := by
  rw [split_sign sign]
  exact dif_pos rfl

/-- No word is lost, doubled or moved. -/
theorem spell_split (ws : List Word) : spell (split ws) = ws := by
  fun_induction split ws with
  | case1 => rfl
  | case2 ws ih => simpa [spell, words] using ih
  | case3 w ws hampersand sign ih => simpa [spell, words] using ih
  | case4 w hampersand d sign => rfl
  | case5 w hampersand d sign rest ih => simpa [spell, words] using ih
  | case6 w hampersand d sign next rest takes ih => simpa [spell, words] using ih
  | case7 w ws hampersand d c target sign ih => simpa [spell, words] using ih

/-- Items that all have their targets are read as they are, in whatever order. -/
theorem split_spell {items : List Item} (h : ∀ item ∈ items, ¬ item.IsBare) : split (spell items) = items := by
  induction items with
  | nil => rfl
  | cons item items ih =>
    obtain ⟨hitem, hitems⟩ := List.forall_mem_cons.1 h
    have hspell : spell (item :: items) = item.words ++ spell items := List.flatMap_cons
    rw [hspell]
    cases item with
    | argument w plain => exact (split_argument plain _).trans (congrArg _ (ih hitems))
    | ampersand => exact (split_ampersand _).trans (congrArg _ (ih hitems))
    | attached w d target sign ne_nil => exact (split_attached sign ne_nil _).trans (congrArg _ (ih hitems))
    | apart w d target sign takes => exact (split_apart sign takes _).trans (congrArg _ (ih hitems))
    | bare w d sign => exact absurd trivial hitem

end Split

end Item

/-! ## What a stage keeps -/

/-- What is recorded of a word. -/
def Word.recorded (w : Word) : String := String.ofList (unquote w)

namespace Stage

open Item

/-- All arguments, and the first redirect of each direction. -/
def ofItems (name : Word) (items : List Item) : Stage where
  name := String.ofList name
  arguments := (Item.arguments items).map Word.recorded
  input := (inputs items).head?.map Word.recorded
  output := (outputs items).head?.map fun (mode, target) => ⟨mode, Word.recorded target⟩

/-- What items add to a stage. -/
def addItems (s : Stage) (items : List Item) : Stage :=
  { s with
    arguments := s.arguments ++ (Item.arguments items).map Word.recorded
    input := s.input.or ((inputs items).head?.map Word.recorded)
    output := s.output.or ((outputs items).head?.map fun (mode, target) => ⟨mode, Word.recorded target⟩) }

theorem addItems_nil (s : Stage) : s.addItems [] = s := by
  simp [addItems, Item.arguments, inputs, outputs]

theorem addItems_argument (s : Stage) {w : Word} (plain : w ≠ Word.ampersand ∧ Word.redirect? w = none)
    (items : List Item) : s.addItems (.argument w plain :: items) = (s.argument w).addItems items := by
  simp [addItems, argument, argument?, input?, output?, Item.redirect?, Word.recorded]

theorem addItems_ampersand (s : Stage) (items : List Item) : s.addItems (.ampersand :: items) = s.addItems items := by
  simp [addItems, argument?, input?, output?, Item.redirect?]

theorem addItems_redirect (s : Stage) {item : Item} {d : Direction} {target : Word}
    (h : item.redirect? = some (d, target)) (items : List Item) :
    s.addItems (item :: items) = (s.redirect d target).addItems items := by
  have hargument := argument?_of_redirect h
  cases d with
  | input => simp [addItems, redirect, hargument, input?, output?, h, Word.recorded]
  | output mode => simp [addItems, redirect, hargument, input?, output?, h, Word.recorded]

/-- The words behind a name add their items. -/
theorem addWords_eq (s : Stage) (ws : List Word) : s.addWords ws = s.addItems (split ws) := by
  fun_induction addWords s ws with
  | case1 s => exact (addItems_nil s).symm
  | case2 s ws ih => rw [ih, split_ampersand, addItems_ampersand]
  | case3 s w ws hampersand sign ih => rw [ih, split_argument ⟨hampersand, sign⟩, addItems_argument]
  | case4 s w hampersand d sign => rw [split_sign sign, addItems_redirect s rfl, addItems_nil]
  | case5 s w hampersand d sign rest ih => rw [ih, split_bare sign, addItems_redirect s rfl]
  | case6 s w hampersand d sign next rest takes ih => rw [ih, split_apart sign takes, addItems_redirect s rfl]
  | case7 s w ws hampersand d target ne_nil sign ih =>
    rw [ih, split_attached sign ne_nil, addItems_redirect s rfl]

/-- **What a stage keeps** of the words behind its name. -/
theorem ofWords_eq (name : Word) (ws : List Word) : ofWords name ws = ofItems name (split ws) := by
  rw [ofWords, addWords_eq]
  simp [addItems, ofItems]

theorem name_ofWords (name : Word) (ws : List Word) : (ofWords name ws).name = String.ofList name := by
  rw [ofWords_eq]
  rfl

theorem ofWords_spell (name : Word) {items : List Item} (h : ∀ item ∈ items, ¬ item.IsBare) :
    ofWords name (spell items) = ofItems name items := by
  rw [ofWords_eq, split_spell h]

end Stage

/-! ## The order of the items -/

namespace Item

variable {item : Item}

/-- The same items in another order, each kind of them in its old one. -/
structure Reordered (items items' : List Item) : Prop where
  perm : items'.Perm items
  arguments : Item.arguments items' = Item.arguments items
  inputs : Item.inputs items' = Item.inputs items
  outputs : Item.outputs items' = Item.outputs items

/-- A redirect behind another of its direction. -/
def Repeats (item : Item) (front : List Item) : Prop :=
  item.input?.isSome ∧ inputs front ≠ [] ∨ item.output?.isSome ∧ outputs front ≠ []

instance (item : Item) (front : List Item) : Decidable (item.Repeats front) := inferInstanceAs (Decidable (_ ∨ _))

theorem redirect?_of_input (h : item.input?.isSome) : ∃ target, item.redirect? = some (.input, target) := by
  unfold input? at h
  split at h
  · exact ⟨_, ‹_›⟩
  · cases h

theorem redirect?_of_output (h : item.output?.isSome) :
    ∃ mode target, item.redirect? = some (.output mode, target) := by
  unfold output? at h
  split at h
  · exact ⟨_, _, ‹_›⟩
  · cases h

end Item

namespace Stage

open Item

variable {name : Word} {items items' front back : List Item} {item : Item}

theorem ofItems_reordered (h : Reordered items items') : ofItems name items' = ofItems name items := by
  simp only [ofItems, h.arguments, h.inputs, h.outputs]

/-- A redirect behind another of its direction is not kept, and neither is its target. -/
theorem ofItems_repeats (h : item.Repeats front) :
    ofItems name (front ++ item :: back) = ofItems name (front ++ back) := by
  rcases h with ⟨hitem, hfront⟩ | ⟨hitem, hfront⟩
  · obtain ⟨target, hredirect⟩ := redirect?_of_input hitem
    obtain ⟨first, more, hfront⟩ := List.exists_cons_of_ne_nil hfront
    simp [ofItems, hfront, argument?_of_redirect hredirect, output?, hredirect]
  · obtain ⟨mode, target, hredirect⟩ := redirect?_of_output hitem
    obtain ⟨first, more, hfront⟩ := List.exists_cons_of_ne_nil hfront
    simp [ofItems, hfront, argument?_of_redirect hredirect, input?, hredirect]

/-- **Redirects stand anywhere, and the first one wins.** Where every sign has its target, the items may come in any
order that is the old one among the arguments, among the inputs and among the outputs; and those redirects that are
not the first of their direction may be left out. The arguments are the words that are no part of a redirect. -/
theorem redirects_anywhere (name : Word) (words : List Word) (hpipe : Word.pipe ∉ words)
    (htargets : ∀ item ∈ split words, ¬ item.IsBare) :
    spell (split words) = words ∧ Pipeline.ofWords (name :: words) = .single (ofWords name words) ∧
      ofWords name words = ofItems name (split words) ∧
      (∀ items, Reordered (split words) items → ofWords name (spell items) = ofWords name words) ∧
      ∀ front item back, split words = front ++ item :: back → item.Repeats front →
        ofWords name (spell (front ++ back)) = ofWords name words := by
  refine ⟨spell_split words, ?_, ofWords_eq name words, fun items hitems => ?_,
    fun front item back hsplit hrepeats => ?_⟩
  · have hgroups := Word.groupsAfter_append (fun w hw hpipe' => hpipe (hpipe' ▸ hw)) []
    rw [List.append_nil] at hgroups
    simp only [Pipeline.ofWords, hgroups, Word.groupsAfter, List.append_nil, List.map_nil]
    rfl
  · rw [ofWords_spell name fun item hitem => htargets item (hitems.perm.subset hitem), ofItems_reordered hitems,
      ofWords_eq]
  · have hrest : ∀ item ∈ front ++ back, ¬ item.IsBare := by
      intro item hitem
      refine htargets item ?_
      rw [hsplit]
      simp only [List.mem_append, List.mem_cons] at hitem ⊢
      tauto
    rw [ofWords_spell name hrest, ofWords_eq, hsplit, ofItems_repeats hrepeats]

/-- A sign takes a word that looks like another sign; then an input redirect goes to the front, and an output
redirect that is not kept goes away. -/
theorem redirects_anywhere_swallowed :
    ofWords ['c'] [['<', 'i'], ['-', 'a'], ['>'], ['>', '>'], ['&'], ['x'], ['>', 'o'], ['b']] =
        ofWords ['c'] [['-', 'a'], ['>'], ['>', '>'], ['&'], ['x'], ['<', 'i'], ['>', 'o'], ['b']] ∧
      ofWords ['c'] [['-', 'a'], ['>'], ['>', '>'], ['&'], ['x'], ['<', 'i'], ['b']] =
        ofWords ['c'] [['-', 'a'], ['>'], ['>', '>'], ['&'], ['x'], ['<', 'i'], ['>', 'o'], ['b']] ∧
      (ofWords ['c'] [['-', 'a'], ['>'], ['>', '>'], ['&'], ['x'], ['<', 'i'], ['>', 'o'], ['b']]).arguments =
        ["-a", "x", "b"] := by
  obtain ⟨-, -, hkept, hreordered, hrepeats⟩ := redirects_anywhere ['c']
    [['-', 'a'], ['>'], ['>', '>'], ['&'], ['x'], ['<', 'i'], ['>', 'o'], ['b']] (by decide) (by decide)
  refine ⟨?_, ?_, ?_⟩
  · exact hreordered (split [['<', 'i'], ['-', 'a'], ['>'], ['>', '>'], ['&'], ['x'], ['>', 'o'], ['b']])
      ⟨by decide, by decide, by decide, by decide⟩
  · exact hrepeats (split [['-', 'a'], ['>'], ['>', '>'], ['&'], ['x'], ['<', 'i']])
      (.attached ['>', 'o'] (.output .truncate) ['o'] rfl (by decide)) (split [['b']]) (by decide) (by decide)
  · rw [hkept]
    decide

end Stage

end LineShell
