import VmToHack.Proofs.Lexemes
import VmToHack.Proofs.Words
set_option autoImplicit false

/-!
# Agreement: the scanner and the reader on one line

The scanner and the reader find words by different rules.  The reader knows which terminals may
come next and takes no more than the letters of a keyword; the scanner knows nothing, and a keyword
is for it a symbol like any other, which goes as far as it can.

Where they find the same words they agree.  If the scanner's words are those of a phrase, the reader
finds them too, since none of them could be longer (`Covers.exists_laid`).  And the reader's words
are the scanner's if each is set apart from what follows it (`pieces_of_laid`).
-/

namespace VmToHack

open VmToHack.Grammar VmToHack.Text

namespace Grammar

/-! ## Kinds of words -/

/-- A word is that of the one keyword with a hyphen, a symbol or a numeral. -/
theorem Terminal.Spelled.cases {t : Terminal} {word : List Char} (h : t.Spelled word) :
    word = "if-goto".toList ∨ SymbolWord word ∨ Numeral word := by
  have hall : ∀ t ∈ keywords, ∀ w ∈ t.keyword?, w = "if-goto" ∨
      (w.toList.head?.any isSymbolStart && w.toList.all isSymbolChar) = true := by
    decide +kernel
  cases hw : t.keyword? with
  | some w =>
    rw [(spelled_of_keyword? hw word).mp h]
    obtain rfl | hsymbol := hall t (mem_keywords hw) w hw
    · exact .inl rfl
    · right
      left
      cases hlist : w.toList with
      | nil =>
        rw [hlist] at hsymbol
        cases hsymbol
      | cons c cs =>
        rw [hlist, Bool.and_eq_true, List.all_cons, Bool.and_eq_true, List.all_eq_true] at hsymbol
        exact .mk hsymbol.1 hsymbol.2.2
  | none =>
    cases t with
    | symbol => exact .inr (.inl h)
    | index => exact .inr (.inr h)
    | _ => cases hw

theorem SymbolWord.not_numeral {word : List Char} (h : SymbolWord word) : ¬ Numeral word := by
  obtain ⟨hstart, -⟩ := h
  rintro ⟨hdigit, -⟩
  rw [isDigit_eq_false_of_isSymbolStart hstart] at hdigit
  cases hdigit

theorem not_symbolWord_ifGoto : ¬ SymbolWord "if-goto".toList := by
  rintro ⟨-, hcs⟩
  exact absurd (hcs '-' (by decide)) (by decide)

theorem not_numeral_ifGoto : ¬ Numeral "if-goto".toList := by
  rintro ⟨hc, -⟩
  exact absurd hc (by decide)

/-- A word that the scanner finds ends where the reader's word has to end. -/
theorem FreeWord.endsBefore {word rest : List Char} {t : Terminal} (h : FreeWord word rest)
    (hword : t.Spelled word) : t.EndsBefore rest := by
  cases t with
  | symbol =>
    cases h with
    | ifGoto => exact absurd hword not_symbolWord_ifGoto
    | numeral hnumeral => exact absurd hnumeral hword.not_numeral
    | symbol _ hends => exact hends
  | index =>
    cases h with
    | ifGoto => exact absurd hword not_numeral_ifGoto
    | numeral _ hends => exact hends
    | symbol hsymbol => exact absurd hword hsymbol.not_numeral
  | _ => trivial

/-! ## Words that are set apart -/

/-- A text sets the word in front of it apart: it is empty or begins with a blank or a comment. -/
def SetsApart (rest : List Char) : Prop :=
  rest = [] ∨ (∃ c ∈ rest.head?, isBlank c = true) ∨ ['/', '/'] <+: rest

/-- No word goes on in such a text, not even with a hyphen. -/
theorem SetsApart.head {rest : List Char} (h : SetsApart rest) :
    ∀ c ∈ rest.head?, isSymbolChar c = false ∧ c ≠ '-' := by
  intro c hc
  obtain rfl | ⟨x, hx, hblank⟩ | ⟨words, rfl⟩ := h
  · cases hc
  · cases hx.symm.trans hc
    rcases isBlank_iff.mp hblank with rfl | rfl <;> decide
  · cases hc
    decide

theorem classify?_ifGoto (rest : List Char) :
    classify? ("if-goto".toList ++ rest) = some (.mark .ifGoto, "if-goto".toList, rest) := by
  have htake : (Terminal.mark .ifGoto).take? ("if-goto".toList ++ rest) =
      some ("if-goto".toList, rest) :=
    Terminal.take?_eq_some_iff.mpr ⟨rfl, rfl, trivial⟩
  rw [classify?, htake]

/-- The keyword with a hyphen does not begin with a symbol or a numeral that is set apart. -/
theorem take?_ifGoto_eq_none {word rest : List Char} (hword : ∀ c ∈ word, isSymbolChar c = true)
    (hrest : SetsApart rest) : (Terminal.mark .ifGoto).take? (word ++ rest) = none := by
  rw [Option.eq_none_iff_forall_ne_some]
  rintro ⟨letters, behind⟩ htake
  obtain ⟨happ, hletters, -⟩ := Terminal.take?_eq_some_iff.mp htake
  cases hletters
  have hhyphen : '-' ∉ word := fun hmem => absurd (hword _ hmem) (by decide)
  have hall : ("if-goto".toList.all fun c => isSymbolChar c || c == '-') = true := by decide
  rw [List.append_eq_append_iff] at happ
  obtain ⟨more, rfl, -⟩ | ⟨more, hmore, rfl⟩ := happ
  · exact hhyphen (List.mem_append_left _ (by decide))
  · cases more with
    | nil =>
      rw [List.append_nil] at hmore
      exact hhyphen (by rw [← hmore]; decide)
    | cons c more =>
      obtain ⟨hchar, hne⟩ := hrest.head c rfl
      have hmem : c ∈ LabelVerb.ifGoto.name.toList := by
        rw [hmore]
        exact List.mem_append_right word List.mem_cons_self
      have hletter := List.all_eq_true.mp hall c hmem
      rw [Bool.or_eq_true, beq_iff_eq] at hletter
      rcases hletter with h | h
      · rw [hchar] at h
        cases h
      · exact hne h

/-- The scanner finds a word of the reader that is set apart, if perhaps as another terminal. -/
theorem exists_classify?_of_setsApart {word rest : List Char} {t : Terminal}
    (hword : t.Spelled word) (hrest : SetsApart rest) :
    ∃ t', classify? (word ++ rest) = some (t', word, rest) := by
  have hchars : ∀ c ∈ rest.head?, isSymbolChar c = false := fun c hc => (hrest.head c hc).1
  obtain rfl | hsymbol | hnumeral := hword.cases
  · exact ⟨_, classify?_ifGoto rest⟩
  · have hall := Terminal.Spelled.isSymbolChar_of_mem (t := .symbol) hsymbol rfl
    have htake : takeSymbol? (word ++ rest) = some (word, rest) :=
      takeRun?_eq_some_iff.mpr ⟨rfl, hsymbol, hchars⟩
    have hindex : takeIndex? (word ++ rest) = none := by
      obtain ⟨hstart, -⟩ := hsymbol
      rw [List.cons_append, takeIndex?, takeRun?, if_neg]
      simp [isDigit_eq_false_of_isSymbolStart hstart]
    rw [classify?, take?_ifGoto_eq_none hall hrest, hindex, htake]
    exact ⟨_, rfl⟩
  · have hall := Terminal.Spelled.isSymbolChar_of_mem (t := .index) hnumeral rfl
    have htake : takeIndex? (word ++ rest) = some (word, rest) :=
      takeRun?_eq_some_iff.mpr
        ⟨rfl, hnumeral, fun c hc => (Bool.or_eq_false_iff.mp (hchars c hc)).2⟩
    rw [classify?, take?_ifGoto_eq_none hall hrest, htake]
    exact ⟨_, rfl⟩

end Grammar

/-! ## From the scanner's words to the reader's -/

/-- Pieces that are all words of a phrase are laid where they stand. -/
theorem Covers.exists_laid {column : Nat} {cs : List Char} {ps : List Piece}
    (h : Covers column cs ps) (hfeed : '\n' ∉ cs) (hlegal : ∀ p ∈ ps, p.legal = true)
    {ws : List Word} (hws : ∀ w ∈ ws, w.Spelled) (hvalues : ps.map Piece.value = ws.map Word.text) :
    ∃ placed trail, Laid column placed cs trail ∧ Trailer trail ∧
      placed.map PlacedWord.word = ws := by
  induction h generalizing ws with
  | ended =>
    rw [List.map_nil, eq_comm, List.map_eq_nil_iff] at hvalues
    subst hvalues
    exact ⟨[], [], .gap blanks_nil, .blanks blanks_nil, rfl⟩
  | @comment column words =>
    rw [List.map_nil, eq_comm, List.map_eq_nil_iff] at hvalues
    subst hvalues
    have hwords : '\n' ∉ words := fun hmem => hfeed (by simp [hmem])
    exact ⟨[], _, .gap blanks_nil, .comment blanks_nil hwords, rfl⟩
  | @blank column c cs ps hc h ih =>
    have hgap : Blanks [c] := List.forall_mem_singleton.mpr hc
    obtain ⟨placed, trail, hlaid, htrailer, hplaced⟩ :=
      ih (fun hmem => hfeed (List.mem_cons_of_mem c hmem)) hlegal hws hvalues
    exact ⟨placed, trail, Laid.behind_gap hgap hlaid, htrailer, hplaced⟩
  | @word column word rest ps hword h ih =>
    cases ws with
    | nil => cases hvalues
    | cons w ws =>
      obtain ⟨htext, hvalues⟩ := List.cons.inj hvalues
      obtain ⟨hw, hws⟩ := List.forall_mem_cons.mp hws
      obtain ⟨-, hlegal⟩ := List.forall_mem_cons.mp hlegal
      obtain ⟨placed, trail, hlaid, htrailer, hplaced⟩ :=
        ih (fun hmem => hfeed (List.mem_append_right word hmem)) hlegal hws hvalues
      simp only at htext
      subst htext
      exact ⟨_, trail, .word blanks_nil hw (hword.endsBefore hw) hlaid, htrailer,
        congrArg (w :: ·) hplaced⟩
  | illegal => cases hlegal _ List.mem_cons_self

/-! ## From the reader's words to the scanner's -/

/-- A word of a line is set apart from what follows it there. -/
def Grammar.PlacedWord.IsApartOn (w : PlacedWord) (line : List Char) : Prop :=
  SetsApart (line.drop (w.column - 1 + w.word.text.length))

/-- A word as the scanner finds it. -/
def Grammar.PlacedWord.piece (w : PlacedWord) : Piece := ⟨true, w.word.text, w.column⟩

theorem pieces_of_blanks {gap : List Char} (hgap : Blanks gap) (column : Nat) (cs : List Char) :
    pieces column (gap ++ cs) = pieces (column + gap.length) cs := by
  induction gap generalizing column with
  | nil => rfl
  | cons c gap ih =>
    obtain ⟨hc, hgap⟩ := List.forall_mem_cons.mp hgap
    rw [List.cons_append, pieces_of_isBlank hc, ih hgap, List.length_cons, Nat.add_right_comm,
      Nat.add_assoc]

theorem pieces_of_trailer {trail : List Char} (h : Trailer trail) (column : Nat) :
    pieces column trail = [] := by
  cases h with
  | blanks hgap =>
    rw [← List.append_nil trail, pieces_of_blanks hgap, pieces]
  | comment hgap => rw [pieces_of_blanks hgap, pieces_comment]

/-- The scanner finds the words that are laid on a line and set apart, and no others. -/
theorem pieces_of_laid {column : Nat} {before cs trail : List Char} {ws : List PlacedWord}
    (h : Laid column ws cs trail) (hcolumn : column = before.length + 1)
    (hapart : ∀ w ∈ ws, w.IsApartOn (before ++ cs)) (htrailer : Trailer trail) :
    pieces column cs = ws.map PlacedWord.piece := by
  induction h generalizing before with
  | gap hgap => rw [pieces_of_blanks hgap, pieces_of_trailer htrailer, List.map_nil]
  | @word column gap cs rest w ws hgap hword hends h ih =>
    obtain ⟨hfirst, hapart⟩ := List.forall_mem_cons.mp hapart
    have hlength : column + gap.length - 1 + w.text.length =
        (before ++ (gap ++ w.text)).length := by
      simp only [List.length_append]
      omega
    have hsplit : before ++ (gap ++ w.text ++ cs) = before ++ (gap ++ w.text) ++ cs :=
      (List.append_assoc ..).symm
    rw [PlacedWord.IsApartOn, hlength, hsplit, List.drop_left] at hfirst
    obtain ⟨t, hfound⟩ := exists_classify?_of_setsApart hword hfirst
    rw [List.append_assoc, pieces_of_blanks hgap, pieces_of_classify? hfound, List.map_cons]
    rw [hsplit] at hapart
    rw [ih (by simp only [List.length_append] at hlength ⊢; omega) hapart htrailer]
    rfl

/-- The lexemes that the words of a line are: the first is the command, the others are arguments. -/
def wordLexemes (number : Nat) : List PlacedWord → List Lexeme
  | [] => []
  | w :: ws => ⟨.command, w.word.text, number, w.column⟩ ::
      ws.map fun w => ⟨.argument, w.word.text, number, w.column⟩

theorem ofPieces_words (number : Nat) (ws : List PlacedWord) :
    Lexeme.ofPieces number false (ws.map PlacedWord.piece) = wordLexemes number ws := by
  have harguments : ∀ ws : List PlacedWord,
      Lexeme.ofPieces number true (ws.map PlacedWord.piece) =
        ws.map fun w => ⟨.argument, w.word.text, number, w.column⟩ := by
    intro ws
    induction ws with
    | nil => rfl
    | cons w ws ih =>
      have hlegal : w.piece.legal = true := rfl
      rw [List.map_cons, List.map_cons, Lexeme.ofPieces, if_pos hlegal, ih]
      rfl
  cases ws with
  | nil => rfl
  | cons w ws =>
    have hlegal : w.piece.legal = true := rfl
    rw [List.map_cons, Lexeme.ofPieces, if_pos hlegal, harguments]
    rfl

/-! ## Both ways -/

section Line

variable {line : List Char} {number : Nat} {p : Phrase} {ws : List PlacedWord}

theorem onLine_of_lexemes (hfeed : '\n' ∉ line) (hspelled : ∀ w ∈ p.words, w.Spelled)
    (hlegal : ∀ x ∈ scanLine number line, x.kind ≠ .illegal)
    (hvalues : (scanLine number line).map Lexeme.value = p.words.map Word.text) :
    p.OnLine line := by
  have hpieces : (scanLine number line).map Lexeme.piece = pieces 1 line := map_piece_ofPieces ..
  have hlegal' : ∀ q ∈ pieces 1 line, q.legal = true := by
    rw [← hpieces, List.forall_mem_map]
    exact fun x hx => by simpa [Lexeme.piece] using hlegal x hx
  have hvalues' : (pieces 1 line).map Piece.value = p.words.map Word.text := by
    rw [← hpieces, List.map_map, ← hvalues]
    rfl
  obtain ⟨ws, trail, hlaid, htrailer, hwords⟩ :=
    (covers_pieces 1 line).exists_laid hfeed hlegal' hspelled hvalues'
  exact Phrase.onLine_iff_laidOn.mpr ⟨ws, hwords, trail, hlaid, htrailer⟩

theorem scanLine_of_laidOn (h : p.LaidOn ws line) (hapart : ∀ w ∈ ws, w.IsApartOn line) :
    scanLine number line = wordLexemes number ws := by
  obtain ⟨-, trail, hlaid, htrailer⟩ := h
  have hpieces : pieces 1 line = ws.map PlacedWord.piece :=
    @pieces_of_laid 1 [] line trail ws hlaid rfl hapart htrailer
  rw [scanLine, hpieces, ofPieces_words]

/-- A line whose lexemes are the words of a phrase is read as its command.  And a line that is read
as a command has the words of a phrase laid on it; if each of them is set apart, they are the
lexemes of the line. -/
theorem scanner_agrees (hfeed : '\n' ∉ line) (number : Nat) :
    (∀ p : Phrase, (∀ w ∈ p.words, w.Spelled) → ¬ p.Overlong → p.InRange →
      (∀ x ∈ scanLine number line, x.kind ≠ .illegal) →
      (scanLine number line).map Lexeme.value = p.words.map Word.text →
        readLine line = .ok (.command p.command)) ∧
    (∀ c, readLine line = .ok (.command c) → ∃ p ws, Phrase.command p = c ∧ p.LaidOn ws line) ∧
    ∀ p ws, Phrase.LaidOn p ws line → (∀ w ∈ ws, w.IsApartOn line) →
      scanLine number line = wordLexemes number ws := by
  refine ⟨fun p hspelled hlong hrange hlegal hvalues => ?_, fun c hc => ?_,
    fun p ws => scanLine_of_laidOn⟩
  · exact readLine_of_inRange (onLine_of_lexemes hfeed hspelled hlegal hvalues) hlong hrange
  · obtain ⟨p, hp, -, -, hcommand⟩ := readLine_eq_command_iff.mp hc
    obtain ⟨ws, hws⟩ := Phrase.onLine_iff_laidOn.mp hp
    exact ⟨p, ws, hcommand, hws⟩

end Line

/-- A call of a function whose name is a keyword, with a number that begins with zeros. -/
def keywordLine : List Char := "\tcall return 007// add".toList

/-- What the line calls. -/
def keywordPhrase : Phrase := .routine .call "return".toList "007".toList

/-- The words of the line. -/
def keywordWords : List PlacedWord :=
  [⟨⟨.routine .call, "call".toList⟩, 2⟩, ⟨⟨.symbol, "return".toList⟩, 7⟩,
    ⟨⟨.index, "007".toList⟩, 14⟩]

theorem keywordPhrase_laidOn : keywordPhrase.LaidOn keywordWords keywordLine := by
  have htab : Blanks ['\t'] := List.forall_mem_singleton.mpr rfl
  have hcall : Word.Spelled ⟨.routine .call, "call".toList⟩ := rfl
  have hname : Word.Spelled ⟨.symbol, "return".toList⟩ := .mk rfl (List.all_eq_true.mp rfl)
  have hnumber : Word.Spelled ⟨.index, "007".toList⟩ := .mk rfl (List.all_eq_true.mp rfl)
  have hends : Terminal.symbol.EndsBefore " 007// add".toList := by rintro c ⟨⟩; rfl
  have hends' : Terminal.index.EndsBefore "// add".toList := by rintro c ⟨⟩; rfl
  exact ⟨rfl, "// add".toList,
    .word htab hcall trivial
      (.word blanks_space hname hends (.word blanks_space hnumber hends' (.gap blanks_nil))),
    .comment blanks_nil (by decide)⟩

theorem scanner_agrees_keyword : '\n' ∉ keywordLine ∧
    (∀ w ∈ keywordWords, w.IsApartOn keywordLine) ∧
    scanLine 3 keywordLine = wordLexemes 3 keywordWords ∧
    readLine keywordLine = .ok (.command (.call "return" 7)) := by
  have hfeed : '\n' ∉ keywordLine := by decide +kernel
  have hapart : ∀ w ∈ keywordWords, w.IsApartOn keywordLine := by
    refine List.forall_mem_cons.mpr ⟨.inr (.inl ⟨' ', rfl, rfl⟩), List.forall_mem_cons.mpr
      ⟨.inr (.inl ⟨' ', rfl, rfl⟩), List.forall_mem_singleton.mpr (.inr (.inr ⟨_, rfl⟩))⟩⟩
  obtain ⟨hreads, -, hscans⟩ := scanner_agrees hfeed 3
  have hlexemes := hscans keywordPhrase keywordWords keywordPhrase_laidOn hapart
  refine ⟨hfeed, hapart, hlexemes, hreads keywordPhrase ?_ ?_ ?_ ?_ ?_⟩
  · obtain ⟨hwords, trail, hlaid, -⟩ := keywordPhrase_laidOn
    rw [← hwords, List.forall_mem_map]
    exact fun w => hlaid.spelled
  · rintro ⟨digits, ⟨⟩, hlong⟩
    exact absurd hlong (by decide)
  · rintro digits ⟨⟩
    decide
  · rw [hlexemes]
    decide
  · rw [hlexemes]
    rfl

end VmToHack
