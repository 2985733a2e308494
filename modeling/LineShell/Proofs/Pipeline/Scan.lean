import LineShell.Pipeline.Scan
import LineShell.Proofs.Pipeline.Contiguous
import LineShell.Proofs.Text.Slice

/-!
# Scanning bytes and reading characters

The scanner stops at bytes that are ASCII characters, or at the end. Bytes beyond ASCII are neither blanks nor quotes
nor signs, so that it passes the whole of every other character (`piece_encode`). All places where it cuts are
therefore between two characters, and what it takes out are the bytes of what the reader of characters takes out:
words (`readWords_encode`), what trimming and marks leave (`trim_encode`, `lineEnd_encode`), and the insides of quotes
and the targets of redirects (`unquote_encode`, `redirect?_encode`). `scan_line` puts this together.
-/

namespace LineShell

namespace Scan

open Utf8

variable {c d : Char} {b : UInt8} {text : List Char}

/-! ## Bytes and characters -/

theorem isBlank_toUInt8 (hc : c.toNat < 0x80) : isBlank c.toUInt8 = LineShell.isBlank c := by
  simp only [isBlank, LineShell.isBlank, toUInt8_inj hc (d := ' ') (by decide), toUInt8_inj hc (d := '\t') (by decide)]

theorem isQuote_toUInt8 (hc : c.toNat < 0x80) : isQuote c.toUInt8 = LineShell.isQuote c := by
  simp only [isQuote, LineShell.isQuote, toUInt8_inj hc (d := '\x22') (by decide),
    toUInt8_inj hc (d := '\x27') (by decide)]

/-- Bytes beyond ASCII are neither blanks nor quotes. -/
theorem not_isBlank (hb : 0x80 ≤ b.toNat) : isBlank b = false := by
  simp [isBlank, ne_toUInt8 hb (c := ' ') (by decide), ne_toUInt8 hb (c := '\t') (by decide)]

theorem not_isQuote (hb : 0x80 ≤ b.toNat) : isQuote b = false := by
  simp [isQuote, ne_toUInt8 hb (c := '\x22') (by decide), ne_toUInt8 hb (c := '\x27') (by decide)]

theorem not_isBlank_wide (hc : 0x80 ≤ c.toNat) : LineShell.isBlank c = false := by
  rw [← Bool.not_eq_true]
  intro h
  rcases (by simpa [LineShell.isBlank] using h : c = ' ' ∨ c = '\t') with rfl | rfl <;> exact absurd hc (by decide)

theorem lt_of_isQuote (h : LineShell.isQuote c) : c.toNat < 0x80 := by
  rcases (by simpa [LineShell.isQuote] using h : c = '\x22' ∨ c = '\x27') with rfl | rfl <;> decide

/-! ## Blanks -/

theorem skipBlanks_eq (bs : Bytes) (i : Nat) : skipBlanks bs i = i + ((bs.drop i).takeWhile isBlank).length := by
  fun_induction skipBlanks bs i with
  | case1 i hi hblank ih =>
    rw [ih, List.drop_eq_getElem_cons hi, List.takeWhile_cons_of_pos hblank, List.length_cons]
    omega
  | case2 i hi hblank =>
    rw [List.drop_eq_getElem_cons hi, List.takeWhile_cons_of_neg hblank]
    rfl
  | case3 i hi =>
    rw [List.drop_eq_nil_of_le (Nat.le_of_not_lt hi)]
    rfl

theorem takeWhile_encode (text : List Char) :
    (encode text).takeWhile isBlank = encode (text.takeWhile LineShell.isBlank) := by
  induction text with
  | nil => rfl
  | cons c text ih =>
    rcases encodeChar_ascii c with ⟨hc, hbytes⟩ | ⟨hc, b, bs, hbytes, hwide⟩
    · rw [encode_cons, hbytes, List.singleton_append, List.takeWhile_cons, List.takeWhile_cons, isBlank_toUInt8 hc, ih]
      split
      · rw [encode_cons, hbytes]
        rfl
      · rfl
    · rw [encode_cons, hbytes, List.cons_append, List.takeWhile_cons, List.takeWhile_cons, not_isBlank_wide hc,
        not_isBlank (hwide b List.mem_cons_self)]
      rfl

theorem skipBlanks_encode (front text : List Char) : skipBlanks (encode (front ++ text)) (encode front).length =
    (encode (front ++ text.takeWhile LineShell.isBlank)).length := by
  rw [skipBlanks_eq, encode_append, List.drop_left, takeWhile_encode, encode_append, List.length_append]

/-! ## Words -/

/-- The bytes up to the next unquoted blank. -/
def piece (quote : Option UInt8) : Bytes → Bytes
  | [] => []
  | b :: bs => if quote = none ∧ isBlank b then [] else b :: piece (quoteAfter quote b) bs

theorem wordEnd_eq (bs : Bytes) (quote : Option UInt8) (i : Nat) :
    wordEnd bs quote i = i + (piece quote (bs.drop i)).length := by
  fun_induction wordEnd bs quote i with
  | case1 quote i hi hstop =>
    rw [List.drop_eq_getElem_cons hi, piece, if_pos hstop]
    rfl
  | case2 quote i hi hgo ih =>
    rw [ih, List.drop_eq_getElem_cons hi, piece, if_neg hgo, List.length_cons]
    omega
  | case3 quote i hi =>
    rw [List.drop_eq_nil_of_le (Nat.le_of_not_lt hi)]
    rfl

/-- A quote that is open is an ASCII character. -/
def QuoteOpen (quote : Option Char) : Prop := ∀ q ∈ quote, q.toNat < 0x80

theorem QuoteOpen.after {quote : Option Char} (hquote : QuoteOpen quote) (c : Char) :
    QuoteOpen (Word.quoteAfter quote c) := by
  unfold Word.quoteAfter
  split
  · split
    · exact fun _ h => nomatch h
    · exact hquote
  · split
    · rename_i h
      intro q hq
      cases hq
      exact lt_of_isQuote h
    · exact fun _ h => nomatch h

theorem quoteAfter_toUInt8 {quote : Option Char} (hquote : QuoteOpen quote) (hc : c.toNat < 0x80) :
    quoteAfter (quote.map Char.toUInt8) c.toUInt8 = (Word.quoteAfter quote c).map Char.toUInt8 := by
  cases quote with
  | none =>
    simp only [Option.map_none, quoteAfter, Word.quoteAfter, isQuote_toUInt8 hc]
    split <;> rfl
  | some q =>
    simp only [Option.map_some, quoteAfter, Word.quoteAfter, toUInt8_inj hc (hquote q rfl)]
    split <;> rfl

/-- Bytes beyond ASCII belong to the word, and leave the quote as it is. -/
theorem piece_append_wide {quote : Option Char} (hquote : QuoteOpen quote) {bs : Bytes}
    (hbs : ∀ b ∈ bs, 0x80 ≤ b.toNat) (rest : Bytes) :
    piece (quote.map Char.toUInt8) (bs ++ rest) = bs ++ piece (quote.map Char.toUInt8) rest := by
  induction bs with
  | nil => rfl
  | cons b bs ih =>
    obtain ⟨hb, hbs⟩ := List.forall_mem_cons.1 hbs
    have hsame : quoteAfter (quote.map Char.toUInt8) b = quote.map Char.toUInt8 := by
      cases quote with
      | none => simp [quoteAfter, not_isQuote hb]
      | some q => simp [quoteAfter, ne_toUInt8 hb (hquote q rfl)]
    rw [List.cons_append, piece, if_neg (by simp [not_isBlank hb]), hsame, ih hbs, List.cons_append]

theorem quoteAfter_wide {quote : Option Char} (hquote : QuoteOpen quote) (hc : 0x80 ≤ c.toNat) :
    Word.quoteAfter quote c = quote := by
  cases quote with
  | none =>
    have hplain : LineShell.isQuote c = false := by
      rw [← Bool.not_eq_true]
      exact fun h => by have := lt_of_isQuote h; omega
    simp [Word.quoteAfter, hplain]
  | some q =>
    have hne : c ≠ q := by
      rintro rfl
      have := hquote c rfl
      omega
    simp [Word.quoteAfter, hne]

/-- The scanner stops where the reader of characters does, inside of quotes or not. -/
theorem piece_encode {quote : Option Char} (hquote : QuoteOpen quote) (text : List Char) :
    piece (quote.map Char.toUInt8) (encode text) = encode (Word.cut quote text).1 := by
  induction text generalizing quote with
  | nil => rfl
  | cons c text ih =>
    rw [Word.cut]
    rcases encodeChar_ascii c with ⟨hc, hbytes⟩ | ⟨hc, b, bs, hbytes, hwide⟩
    · have hstops : (quote.map Char.toUInt8 = none ∧ isBlank c.toUInt8) ↔ (quote = none ∧ LineShell.isBlank c) := by
        rw [Option.map_eq_none_iff, isBlank_toUInt8 hc]
      rw [encode_cons, hbytes, List.singleton_append, piece]
      by_cases hstop : quote = none ∧ LineShell.isBlank c
      · rw [if_pos hstop, if_pos (hstops.2 hstop)]
        rfl
      · rw [if_neg hstop, if_neg (mt hstops.1 hstop), quoteAfter_toUInt8 hquote hc, ih (hquote.after c), encode_cons,
          hbytes]
        rfl
    · rw [if_neg (by simp [not_isBlank_wide hc]), quoteAfter_wide hquote hc, encode_cons, encode_cons, hbytes,
        piece_append_wide hquote hwide, ih hquote]

theorem wordEnd_encode (front text : List Char) : wordEnd (encode (front ++ text)) none (encode front).length =
    (encode (front ++ (Word.cut none text).1)).length := by
  have hclosed : QuoteOpen none := fun _ h => nomatch h
  have hpiece := piece_encode hclosed text
  rw [wordEnd_eq, encode_append, List.drop_left, encode_append, List.length_append, ← hpiece]
  rfl

end Scan

namespace Word

/-- Behind the first piece the text ends, or is cut at a blank. -/
theorem cut_rest (quote : Option Char) (text : List Char) :
    (text = (cut quote text).1 ∧ (cut quote text).2 = []) ∨ ∃ b rest, isBlank b ∧
      text = (cut quote text).1 ++ b :: rest ∧ (cut quote text).2 = (cut none rest).1 :: (cut none rest).2 := by
  induction text generalizing quote with
  | nil => exact .inl ⟨rfl, rfl⟩
  | cons c text ih =>
    rw [cut]
    split
    · rename_i hstop
      exact .inr ⟨c, text, hstop.2, rfl, rfl⟩
    · rcases ih (quoteAfter quote c) with ⟨htext, hmore⟩ | ⟨b, rest, hb, htext, hmore⟩
      · exact .inl ⟨congrArg (c :: ·) htext, hmore⟩
      · exact .inr ⟨b, rest, hb, congrArg (c :: ·) htext, hmore⟩

/-- A text that begins with no blank is its first word and what follows. -/
theorem ofLine_cons {c : Char} (hc : isBlank c = false) (text : List Char) : ∃ rest,
    c :: text = (cut none (c :: text)).1 ++ rest ∧ (cut none (c :: text)).1 ≠ [] ∧
      ofLine (c :: text) = (cut none (c :: text)).1 :: ofLine rest := by
  have hne : (cut none (c :: text)).1 ≠ [] := by simp [cut, hc]
  rcases cut_rest none (c :: text) with ⟨htext, hmore⟩ | ⟨b, rest, hb, htext, hmore⟩
  · have hempty : ofLine [] = [] := rfl
    refine ⟨[], by rw [List.append_nil, ← htext], hne, ?_⟩
    rw [hempty]
    simp [ofLine, hmore, hne]
  · refine ⟨b :: rest, htext, hne, ?_⟩
    have hrest := ofLine_blanks_append (b := [b]) (by simpa using hb) rest
    rw [List.singleton_append] at hrest
    rw [hrest]
    simp [ofLine, hmore, hne]

end Word

namespace Scan

open Utf8

/-- The scanner reads the words that the characters make up. -/
theorem readWords_encode (front text : List Char) :
    readWords (encode (front ++ text)) (encode front).length = some ((Word.ofLine text).map encode) := by
  -- on the length of the text, as every word makes it shorter
  induction hn : text.length using Nat.strong_induction_on generalizing front text with
  | _ n ih =>
    have hstart := skipBlanks_encode front text
    have hblanks : ∀ c ∈ text.takeWhile LineShell.isBlank, LineShell.isBlank c :=
      fun c hc => List.mem_takeWhile_imp hc
    have htext : text.takeWhile LineShell.isBlank ++ text.dropWhile LineShell.isBlank = text :=
      List.takeWhile_append_dropWhile
    have hback : ∀ c ∈ (text.dropWhile LineShell.isBlank).head?, LineShell.isBlank c = false := by
      intro c hc
      have := List.head?_dropWhile_not LineShell.isBlank text
      rw [hc] at this
      simpa using this
    generalize text.takeWhile LineShell.isBlank = blanks at hstart hblanks htext
    generalize text.dropWhile LineShell.isBlank = back at htext hback
    subst htext
    have hstop := wordEnd_encode (front ++ blanks) back
    rw [List.append_assoc] at hstop
    rw [readWords, hstart, hstop, Word.ofLine_blanks_append hblanks]
    cases back with
    | nil =>
      rw [dif_neg (by simp [Word.cut])]
      rfl
    | cons c back =>
      obtain ⟨rest, hrest, hne, hwords⟩ := Word.ofLine_cons (hback c rfl) back
      generalize (Word.cut none (c :: back)).1 = word at hrest hne hwords ⊢
      have hshorter : rest.length < n := by
        have hlength := congrArg List.length hrest
        have := List.length_pos_iff.2 hne
        simp only [List.length_append] at hn hlength
        omega
      have hlonger : (encode (front ++ blanks)).length < (encode (front ++ blanks ++ word)).length := by
        have := List.length_pos_iff.2 (mt encode_eq_nil.1 hne)
        rw [encode_append (front ++ blanks), List.length_append]
        omega
      have hslice := slice?_encode (front ++ blanks) word rest
      have hrests := ih rest.length hshorter (front ++ blanks ++ word) rest rfl
      rw [hwords, hrest, dif_pos hlonger]
      rw [List.append_assoc front] at hslice
      rw [List.append_assoc (front ++ blanks), List.append_assoc front] at hrests
      simp only [hslice, hrests, Option.bind_eq_bind, Option.bind_some, List.map_cons]
      rfl

/-! ## Ends -/

theorem trimEnd_blanks {front back : Bytes} {start : Nat} (hstart : start ≤ front.length)
    (hback : ∀ b ∈ back, isBlank b) {n : Nat} (hn : n ≤ back.length) :
    trimEnd (front ++ back) start (front.length + n) = trimEnd (front ++ back) start front.length := by
  induction n with
  | zero => rfl
  | succ n ih =>
    have hbyte : (front ++ back)[front.length + n]? = some back[n] := by
      rw [List.getElem?_append_right (Nat.le_add_right _ _), Nat.add_sub_cancel_left, List.getElem?_eq_getElem]
    rw [← Nat.add_assoc, trimEnd, hbyte, if_pos ⟨by omega, hback _ (List.getElem_mem _)⟩]
    exact ih (Nat.le_of_succ_le hn)

theorem trimEnd_stop {front : Bytes} {b : UInt8} (hb : isBlank b = false) (start : Nat) (back : Bytes) :
    trimEnd (front ++ [b] ++ back) start (front ++ [b]).length = (front ++ [b]).length := by
  have hbyte : (front ++ [b] ++ back)[front.length]? = some b := by simp
  rw [List.length_append, List.length_singleton, trimEnd, hbyte, if_neg (by simp [hb])]

theorem trimEnd_self (bs : Bytes) (n : Nat) : trimEnd bs n n = n := by
  cases n with
  | zero => rfl
  | succ n => rw [trimEnd, if_neg (by omega)]

theorem isBlank_of_mem_encode {blanks : List Char} (h : ∀ c ∈ blanks, LineShell.isBlank c) :
    ∀ b ∈ encode blanks, isBlank b := by
  have htake := takeWhile_encode blanks
  rw [List.takeWhile_eq_self_iff.2 h] at htake
  exact List.takeWhile_eq_self_iff.1 htake

/-- Going back from the end of a text, blanks are passed, and no other character. -/
theorem trimEnd_encode {front : List Char} (hfront : ∀ c ∈ front.getLast?, LineShell.isBlank c = false)
    (hne : front ≠ []) {back : List Char} (hback : ∀ c ∈ back, LineShell.isBlank c) {start : Nat}
    (hstart : start ≤ (encode front).length) :
    trimEnd (encode (front ++ back)) start (encode (front ++ back)).length = (encode front).length := by
  obtain ⟨text, c, rfl⟩ := (List.eq_nil_or_concat' front).resolve_left hne
  have hc : LineShell.isBlank c = false := hfront c List.getLast?_concat
  have hlast : ∃ bs b, encode (text ++ [c]) = bs ++ [b] ∧ isBlank b = false := by
    rcases exists_last text c with ⟨hascii, hbytes⟩ | ⟨-, bs, b, hbytes, hb⟩
    · exact ⟨_, _, hbytes, by rw [isBlank_toUInt8 hascii, hc]⟩
    · exact ⟨bs, b, hbytes, not_isBlank hb⟩
  obtain ⟨bs, b, hbytes, hb⟩ := hlast
  rw [encode_append _ back, List.length_append, trimEnd_blanks hstart (isBlank_of_mem_encode hback) (Nat.le_refl _),
    hbytes, trimEnd_stop hb]

/-- The bytes of the trimmed text are those of the trimmed characters. -/
theorem trim_encode (text : List Char) : trim (encode text) = some (encode (LineShell.trim text)) := by
  obtain ⟨front, back, htext, hfront, hback⟩ := exists_trim text
  have hstart : skipBlanks (encode text) 0 = (encode (text.takeWhile LineShell.isBlank)).length :=
    skipBlanks_encode [] text
  by_cases hne : LineShell.trim text = []
  · -- only blanks: the text is empty where the first of its ends is found
    have hall : text.takeWhile LineShell.isBlank = text := by
      rw [List.takeWhile_eq_self_iff, htext, hne, List.append_nil]
      exact List.forall_mem_append.2 ⟨hfront, hback⟩
    have hslice := slice?_encode text [] []
    rw [List.append_nil, List.append_nil] at hslice
    rw [trim, hstart, hall, trimEnd_self, hslice, hne]
  · obtain ⟨a, d, ha, hd, hna, hnd⟩ := tight_trim hne
    generalize LineShell.trim text = word at htext ha hd hne ⊢
    subst htext
    have hblanks : (front ++ word ++ back).takeWhile LineShell.isBlank = front := by
      obtain ⟨rest, rfl⟩ := List.head?_eq_some_iff.1 ha
      rw [List.append_assoc, List.takeWhile_append_of_pos hfront, List.cons_append,
        List.takeWhile_cons_of_neg (by simp [hna]), List.append_nil]
    have hlast : (front ++ word).getLast? = some d := by
      rw [List.getLast?_append, hd]
      rfl
    have hword : ∀ c ∈ (front ++ word).getLast?, LineShell.isBlank c = false := by simp [hlast, hnd]
    have hend := trimEnd_encode hword (by simp [hne]) hback
      (encode_mono (List.prefix_append front word)).length_le
    have hslice := slice?_encode front word back
    rw [← List.append_assoc] at hslice
    rw [trim, hstart, hblanks, hend, hslice]

/-! ## Marks, quotes and signs -/

theorem lineEnd_encode (line : List Char) :
    lineEnd (encode line) = some (encode (LineEnd.split line).1, (LineEnd.split line).2) := by
  simp only [lineEnd, trim_encode, LineEnd.split, Option.bind_eq_bind, Option.bind_some,
    getLast?_encode (d := '?') (by decide), getLast?_encode (d := '&') (by decide)]
  split
  · rename_i hmark
    rw [slice?_dropLast (by decide) hmark, Option.bind_some, trim_encode]
    rfl
  · split
    · rename_i hmark
      rw [slice?_dropLast (by decide) hmark, Option.bind_some, trim_encode]
      rfl
    · rfl

/-- The bytes tell as the characters do whether a word loses its quotes. -/
theorem quoted_encode (c : Char) (text : List Char) :
    (2 ≤ (encode (c :: text)).length ∧ (encode (c :: text)).head?.any isQuote ∧
      (encode (c :: text)).head? = (encode (c :: text)).getLast?) ↔
      (LineShell.isQuote c ∧ text.getLast? = some c) := by
  by_cases hquote : LineShell.isQuote c
  · have hc := lt_of_isQuote hquote
    have hbyte : isQuote c.toUInt8 = true := by rw [isQuote_toUInt8 hc, hquote]
    have hlast := getLast?_encode hc (c :: text)
    rw [encode_cons_ascii hc] at hlast ⊢
    rw [List.head?_cons, Option.any_some, hbyte, eq_comm (b := (c.toUInt8 :: encode text).getLast?), hlast]
    cases text with
    | nil => simp [encode, hquote]
    | cons d text =>
      have hlength := List.length_pos_iff.2 (mt encode_eq_nil.1 (List.cons_ne_nil d text))
      rw [List.getLast?_cons_cons]
      simp only [List.length_cons, hquote, true_and, and_iff_right_iff_imp]
      omega
  · refine iff_of_false (fun h => ?_) fun h => hquote h.1
    have hhead := h.2.1
    rcases encodeChar_ascii c with ⟨hc, hbytes⟩ | ⟨-, b, bs, hbytes, hwide⟩
    · rw [encode_cons, hbytes, List.singleton_append, List.head?_cons, Option.any_some, isQuote_toUInt8 hc] at hhead
      exact hquote hhead
    · rw [encode_cons, hbytes, List.cons_append, List.head?_cons, Option.any_some,
        not_isQuote (hwide b List.mem_cons_self)] at hhead
      cases hhead

theorem unquote_encode (word : Word) : unquote (encode word) = some (encode (Word.unquote word)) := by
  cases word with
  | nil => rfl
  | cons c text =>
    rw [unquote, Word.unquote]
    by_cases hquoted : LineShell.isQuote c ∧ text.getLast? = some c
    · obtain ⟨hquote, hlast⟩ := hquoted
      obtain ⟨body, rfl⟩ := List.getLast?_eq_some_iff.1 hlast
      have hc := lt_of_isQuote hquote
      have hslice := slice?_encode [c] body [c]
      have hlength : (encode (c :: body)).length = (encode (c :: (body ++ [c]))).length - 1 := by
        rw [← List.cons_append, encode_append, encode_cons_ascii hc [], List.length_append]
        rfl
      rw [if_pos ((quoted_encode c _).2 ⟨hquote, hlast⟩), if_pos ⟨hquote, hlast⟩, List.dropLast_concat, ← hlength]
      rwa [encode_cons_ascii hc [], List.singleton_append, List.singleton_append] at hslice
    · rw [if_neg (mt (quoted_encode c text).1 hquoted), if_neg hquoted]

theorem isPrefixOf_encode (hd : d.toNat < 0x80) (text : List Char) :
    [d.toUInt8].isPrefixOf (encode text) ↔ ∃ rest, text = d :: rest := by
  have hhead := head?_encode hd text
  cases hbytes : encode text with
  | nil => simp [encode_eq_nil.1 hbytes]
  | cons b bs =>
    rw [hbytes, List.head?_cons, Option.some_inj, List.head?_eq_some_iff] at hhead
    rw [← hhead, List.isPrefixOf_cons_cons, List.isPrefixOf_nil_left, Bool.and_true, beq_iff_eq, eq_comm]

theorem redirect?_encode (word : Word) :
    redirect? (encode word) = some ((Word.redirect? word).map fun (d, target) => (d, encode target)) := by
  have hout := isPrefixOf_encode (d := '>') (by decide)
  have hin := isPrefixOf_encode (d := '<') (by decide)
  unfold redirect?
  by_cases hword : ∃ rest, word = '>' :: rest
  · obtain ⟨rest, rfl⟩ := hword
    have hsign : ['>'.toUInt8, '>'.toUInt8].isPrefixOf (encode ('>' :: rest)) ↔ ∃ target, rest = '>' :: target := by
      rw [encode_cons_ascii (by decide), List.isPrefixOf_cons_cons, beq_self_eq_true, Bool.true_and, hout]
    by_cases hrest : ∃ target, rest = '>' :: target
    · rw [if_pos (hsign.2 hrest)]
      obtain ⟨target, rfl⟩ := hrest
      have hslice := slice?_encode ['>', '>'] target []
      rw [List.append_nil] at hslice
      exact congrArg (Option.map _) hslice
    · have hword : Word.redirect? ('>' :: rest) = some (.output .truncate, rest) := by
        cases rest with
        | nil => rfl
        | cons c rest =>
          have hc : c ≠ '>' := fun h => hrest ⟨rest, by rw [h]⟩
          simp [Word.redirect?, hc]
      rw [if_neg (mt hsign.1 hrest), if_pos ((hout _).2 ⟨rest, rfl⟩), slice?_tail (by decide), hword]
      rfl
  · have hnone : ¬ ['>'.toUInt8, '>'.toUInt8].isPrefixOf (encode word) := by
      intro hsign
      refine hword ((hout _).1 ?_)
      cases hbytes : encode word with
      | nil => simp [hbytes] at hsign
      | cons b bs =>
        rw [hbytes, List.isPrefixOf_cons_cons, Bool.and_eq_true] at hsign
        rw [List.isPrefixOf_cons_cons, hsign.1]
        rfl
    rw [if_neg hnone, if_neg (mt (hout _).1 hword)]
    by_cases hinput : ∃ rest, word = '<' :: rest
    · rw [if_pos ((hin _).2 hinput)]
      obtain ⟨rest, rfl⟩ := hinput
      rw [slice?_tail (by decide)]
      rfl
    · have hplain : Word.redirect? word = none := by
        unfold Word.redirect?
        split
        · exact absurd ⟨_, rfl⟩ hword
        · exact absurd ⟨_, rfl⟩ hword
        · exact absurd ⟨_, rfl⟩ hinput
        · rfl
      rw [if_neg (mt (hin _).1 hinput), hplain]
      rfl

/-! ## Stages -/

theorem encode_eq_pipe {word : Word} : encode word = pipe ↔ word = Word.pipe :=
  encode_injective.eq_iff (b := Word.pipe)

theorem encode_eq_ampersand {word : Word} : encode word = ampersand ↔ word = Word.ampersand :=
  encode_injective.eq_iff (b := Word.ampersand)

theorem text?_encode (word : Word) : text? (encode word) = some (String.ofList word) := by
  rw [text?, decode?_encode]
  rfl

theorem redirect_encode (s : Stage) (d : Direction) (target : Word) :
    redirect s d (encode target) = some (s.redirect d target) := by
  obtain ⟨name, arguments, input, output, background, completion⟩ := s
  cases d with
  | input => cases input <;> simp [redirect, Stage.redirect, unquote_encode, text?_encode]
  | output mode => cases output <;> simp [redirect, Stage.redirect, unquote_encode, text?_encode]

theorem argument_encode (s : Stage) (word : Word) : argument s (encode word) = some (s.argument word) := by
  simp [argument, Stage.argument, unquote_encode, text?_encode]

/-- A stage takes the words up to the first `|`. -/
theorem readStage_encode (s : Stage) (ws : List Word) : readStage s (ws.map encode) =
    some (s.addWords (ws.takeWhile (· ≠ Word.pipe)), (ws.dropWhile (· ≠ Word.pipe)).tail.map encode) := by
  -- on the number of words, as a sign may take the next one
  induction hn : ws.length using Nat.strong_induction_on generalizing s ws with
  | _ n ih =>
    subst hn
    cases ws with
    | nil => rfl
    | cons w ws =>
      have htail : ∀ s, readStage s (ws.map encode) = some (s.addWords (ws.takeWhile (· ≠ Word.pipe)),
          (ws.dropWhile (· ≠ Word.pipe)).tail.map encode) :=
        fun s => ih ws.length (Nat.lt_succ_self _) s ws rfl
      by_cases hpipe : w = Word.pipe
      · rw [List.map_cons, readStage, if_pos (encode_eq_pipe.2 hpipe)]
        simp [hpipe, Stage.addWords]
      rw [List.map_cons, readStage, if_neg (mt encode_eq_pipe.1 hpipe),
        List.takeWhile_cons_of_pos (by simpa using hpipe), List.dropWhile_cons_of_pos (by simpa using hpipe),
        Stage.addWords.eq_def]
      by_cases hampersand : w = Word.ampersand
      · rw [if_pos (encode_eq_ampersand.2 hampersand), htail]
        simp only [if_pos hampersand]
      rw [if_neg (mt encode_eq_ampersand.1 hampersand), redirect?_encode]
      simp only [if_neg hampersand]
      cases Word.redirect? w with
      | none => simp only [Option.map_none, argument_encode, Option.bind_some, htail]
      | some r =>
        obtain ⟨d, target⟩ := r
        have hempty := redirect_encode s d []
        rw [encode_eq_nil.2 rfl] at hempty
        cases target with
        | nil =>
          simp only [Option.map_some, encode_eq_nil.2]
          cases ws with
          | nil => simp only [hempty, List.map_nil]; rfl
          | cons next rest =>
            simp only [List.map_cons]
            by_cases hnext : next = Word.pipe
            · rw [if_neg (fun h => h.1 (encode_eq_pipe.2 hnext)), hempty, Option.bind_some, ← List.map_cons, htail,
                List.takeWhile_cons_of_neg (by simpa using hnext)]
              rfl
            · rw [List.takeWhile_cons_of_pos (by simpa using hnext)] at htail ⊢
              by_cases hnext' : next = Word.ampersand
              · rw [if_neg (fun h => h.2 (encode_eq_ampersand.2 hnext')), hempty, Option.bind_some, ← List.map_cons,
                  htail]
                simp only [if_pos hnext']
              · rw [if_pos ⟨mt encode_eq_pipe.1 hnext, mt encode_eq_ampersand.1 hnext'⟩, redirect_encode,
                  Option.bind_some, ih rest.length (by simp only [List.length_cons]; omega) _ rest rfl,
                  List.dropWhile_cons_of_pos (by simpa using hnext)]
                simp only [if_neg hnext']
        | cons c target =>
          have hne : encode (c :: target) ≠ [] := mt encode_eq_nil.1 (List.cons_ne_nil c target)
          simp only [Option.map_some]
          rw [redirect_encode, Option.bind_some, htail]

end Scan

/-- The other groups begin behind the first `|`, if there are words. -/
theorem Word.groupsAfter_snd (ws : List Word) : (groupsAfter ws).2 =
    match (ws.dropWhile (· ≠ pipe)).tail with
    | [] => []
    | name :: rest => (name, (groupsAfter rest).1) :: (groupsAfter rest).2 := by
  induction ws with
  | nil => rfl
  | cons w ws ih =>
    by_cases hw : w = pipe
    · subst hw
      cases ws with
      | nil => simp [groupsAfter]
      | cons name rest => simp [groupsAfter_pipe]
    · rw [groupsAfter_cons hw, List.dropWhile_cons_of_pos (by simpa using hw), ih]

namespace Scan

open Utf8

theorem readStages_cons {piece : Bytes} {words rest : List Bytes} {name : String} {stage : Stage} :
    text? piece = some name → readStage { name } words = some (stage, rest) →
      readStages (piece :: words) =
        match rest with
        | [] => some (.single stage)
        | next :: rest => (readStages (next :: rest)).map fun p => ⟨stage, p.stages⟩ := by
  intro hname hstage
  rw [readStages, hname]
  dsimp only
  split
  · rename_i heq
    cases heq.symm.trans hstage
  · rename_i heq
    cases heq.symm.trans hstage
    rfl
  · rename_i heq
    cases heq.symm.trans hstage
    rfl

/-- The scanner makes of the words what the reader of characters makes of them. -/
theorem readStages_encode (ws : List Word) : readStages (ws.map encode) = some (Pipeline.ofWords ws) := by
  -- on the number of words, as every stage takes some
  induction hn : ws.length using Nat.strong_induction_on generalizing ws with
  | _ n ih =>
    subst hn
    cases ws with
    | nil =>
      rw [List.map_nil, readStages]
      rfl
    | cons name words =>
      have hstage := readStage_encode { name := String.ofList name } words
      have hmore := Word.groupsAfter_snd words
      have hshorter : (words.dropWhile (· ≠ Word.pipe)).tail.length ≤ words.length :=
        ((List.tail_suffix _).trans (List.dropWhile_suffix _)).length_le
      rw [← Word.groupsAfter_fst] at hstage
      rw [List.map_cons, readStages_cons (text?_encode name) hstage, Pipeline.ofWords]
      generalize (words.dropWhile (· ≠ Word.pipe)).tail = behind at hmore hshorter
      cases behind with
      | nil => simp [hmore, Pipeline.single, Stage.ofWords]
      | cons next rest =>
        have hrest := ih (next :: rest).length (Nat.lt_succ_of_le hshorter) (next :: rest) rfl
        rw [List.map_cons] at hrest
        simp [hmore, hrest, Pipeline.ofWords, Pipeline.stages, Stage.ofWords]

theorem parse_encode (line : List Char) : parse (encode line) = some (Pipeline.ofText line) := by
  have hwords := readWords_encode [] (LineEnd.split line).1
  rw [List.nil_append, show (encode []).length = 0 from rfl] at hwords
  simp only [parse, lineEnd_encode, hwords, readStages_encode, Option.bind_eq_bind, Option.bind_some]
  rfl

example : parse (ofString "é 'ü |> ö") = some (.single { name := "é", arguments := ["'ü |> ö"] }) := by
  rw [ofString, parse_encode]
  decide +kernel

/-- **Scanning bytes respects characters.** The scanner takes out pieces only between two places of a text that are
ends of it or characters apart, and breaks down at any other. On the bytes of a line it never does: it comes to the
pipeline that the characters of the line are read as. Every name, argument and target of it is one piece of the
line. -/
theorem scan_line (line : String) :
    (∀ i, isCut (ofString line) i ↔ IsBoundary line.toList i) ∧
    parse (ofString line) = some (Pipeline.parse line) ∧
    ∀ s ∈ (Pipeline.parse line).stages, s.Contiguous line.toList :=
  ⟨fun _ => isCut_encode, parse_encode line.toList, Pipeline.contiguous_of_mem_parse line⟩

end Scan

end LineShell
