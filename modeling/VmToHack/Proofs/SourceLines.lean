import VmToHack.Lowering.Source
import VmToHack.Proofs.LineGrammar
set_option autoImplicit false

/-!
# Source lines: which lines of a text are looked at

The reader goes from lexeme to lexeme and hands out the lines on which they stand.  Seen from
the text these are the lines with a lexeme, each once and in order (`significantLines_eq`).
A line has no lexeme exactly if it is blank but for a comment (`lexemes_eq_nil_iff`), and then
it says nothing; so nothing is lost, and a text is read and translated as the list of all its
numbered lines.
-/

namespace VmToHack

open VmToHack.Grammar VmToHack.Text

/-! ## Numbered lines -/

/-- Lines with their numbers, of which the first is given. -/
def numbered (first : Nat) (lines : List (List Char)) : List SourceLine :=
  (lines.zipIdx first).map fun x => ⟨x.2, x.1⟩

/-- The lines of a text, counted from one. -/
def numberedLines (text : List Char) : List SourceLine := numbered 1 (splitLines text)

@[simp] theorem numbered_nil (first : Nat) : numbered first [] = [] := rfl

@[simp] theorem numbered_cons (first : Nat) (line : List Char) (lines : List (List Char)) :
    numbered first (line :: lines) = ⟨first, line⟩ :: numbered (first + 1) lines := rfl

theorem map_text_numbered (first : Nat) (lines : List (List Char)) :
    (numbered first lines).map SourceLine.text = lines := by
  unfold numbered
  rw [List.map_map]
  exact List.zipIdx_map_fst first lines

theorem map_number_numbered (first : Nat) (lines : List (List Char)) :
    (numbered first lines).map SourceLine.number = List.range' first lines.length := by
  unfold numbered
  rw [List.map_map]
  exact List.zipIdx_map_snd first lines

/-- The numbers go up. -/
theorem pairwise_numbered (first : Nat) (lines : List (List Char)) :
    (numbered first lines).Pairwise fun a b => a.number < b.number := by
  have h := List.pairwise_lt_range' (s := first) (n := lines.length)
  rw [← map_number_numbered] at h
  exact List.pairwise_map.mp h

theorem text_mem_of_mem_numberedLines {text : List Char} {line : SourceLine}
    (h : line ∈ numberedLines text) : line.text ∈ splitLines text := by
  rw [← map_text_numbered 1 (splitLines text)]
  exact List.mem_map_of_mem h

/-! ## Lexemes of a line -/

/-- The lexemes of a line. -/
def SourceLine.lexemes (line : SourceLine) : List Lexeme := scanLine line.number line.text

theorem Grammar.trailer_cons_iff {c : Char} {cs : List Char} :
    Trailer (c :: cs) ↔
      isBlank c = true ∧ Trailer cs ∨ c = '/' ∧ ∃ words, cs = '/' :: words ∧ '\n' ∉ words := by
  constructor
  · intro h
    generalize htext : c :: cs = text at h
    cases h with
    | blanks hgap =>
      subst htext
      obtain ⟨hc, hcs⟩ := List.forall_mem_cons.mp hgap
      exact .inl ⟨hc, .blanks hcs⟩
    | @comment gap words hgap hwords =>
      cases gap with
      | nil =>
        cases htext
        exact .inr ⟨rfl, words, rfl, hwords⟩
      | cons x gap =>
        cases htext
        obtain ⟨hc, hcs⟩ := List.forall_mem_cons.mp hgap
        exact .inl ⟨hc, .comment hcs hwords⟩
  · rintro (⟨hc, hgap | ⟨hgap, hwords⟩⟩ | ⟨rfl, words, rfl, hwords⟩)
    · exact .blanks (List.forall_mem_cons.mpr ⟨hc, hgap⟩)
    · exact Trailer.comment (List.forall_mem_cons.mpr ⟨hc, hgap⟩) hwords
    · exact @Trailer.comment [] words (fun _ hmem => absurd hmem List.not_mem_nil) hwords

theorem pieces_eq_nil_iff {column : Nat} {cs : List Char} (hfeed : '\n' ∉ cs) :
    pieces column cs = [] ↔ Trailer cs := by
  induction cs generalizing column with
  | nil =>
    rw [pieces]
    exact iff_of_true rfl (.blanks fun _ hmem => absurd hmem List.not_mem_nil)
  | cons c rest ih =>
    have hrest := @ih (column + 1) fun hmem => hfeed (List.mem_cons_of_mem _ hmem)
    rw [trailer_cons_iff, pieces]
    split
    · next hblank =>
      rw [hrest]
      constructor
      · exact fun htrailer => .inl ⟨hblank, htrailer⟩
      · rintro (⟨-, htrailer⟩ | ⟨rfl, -⟩)
        · exact htrailer
        · exact absurd hblank (by decide)
    · next hblank =>
      split
      · next hslashes =>
        obtain ⟨words, hwords⟩ := List.isPrefixOf_iff_prefix.mp hslashes
        cases hwords
        exact iff_of_true rfl (.inr ⟨rfl, words, rfl, fun hmem => hfeed (by simp [hmem])⟩)
      · next hslashes =>
        -- whether or not a word begins here, there is a piece
        have hpiece : ¬ (isBlank c = true ∧ Trailer rest ∨
            c = '/' ∧ ∃ words, rest = '/' :: words ∧ '\n' ∉ words) := by
          rintro (⟨hc, -⟩ | ⟨rfl, words, rfl, -⟩)
          · exact hblank hc
          · exact hslashes rfl
        split <;> exact iff_of_false (List.cons_ne_nil _ _) hpiece

theorem ofPieces_eq_nil_iff {number : Nat} {begun : Bool} {ps : List Piece} :
    Lexeme.ofPieces number begun ps = [] ↔ ps = [] := by
  cases ps with
  | nil => exact iff_of_true rfl rfl
  | cons p ps =>
    refine iff_of_false ?_ (List.cons_ne_nil _ _)
    rw [Lexeme.ofPieces]
    split <;> exact List.cons_ne_nil _ _

theorem line_of_mem_ofPieces {number : Nat} {begun : Bool} {ps : List Piece} {x : Lexeme}
    (h : x ∈ Lexeme.ofPieces number begun ps) : x.line = number := by
  induction ps generalizing begun with
  | nil => cases h
  | cons p ps ih =>
    rw [Lexeme.ofPieces] at h
    split at h
    · rcases List.mem_cons.mp h with rfl | h
      · rfl
      · exact ih h
    · rcases List.mem_cons.mp h with rfl | h
      · rfl
      · exact ih h

theorem le_line_of_mem_scanLines {number : Nat} {lines : List (List Char)} {x : Lexeme}
    (h : x ∈ scanLines number lines) : number ≤ x.line := by
  induction lines generalizing number with
  | nil => cases h
  | cons line lines ih =>
    rcases List.mem_append.mp h with h | h
    · exact Nat.le_of_eq (line_of_mem_ofPieces h).symm
    · exact Nat.le_of_succ_le (ih h)

/-- A line without lexemes is a trailer. -/
theorem SourceLine.lexemes_eq_nil_iff {line : SourceLine} (hfeed : '\n' ∉ line.text) :
    line.lexemes = [] ↔ Trailer line.text :=
  ofPieces_eq_nil_iff.trans (pieces_eq_nil_iff hfeed)

theorem feed_not_mem_of_unbroken {line : List Char} (h : ∀ c ∈ line, isLineBreak c = false) :
    '\n' ∉ line := fun hmem => absurd (h _ hmem) (by decide)

theorem feed_not_mem_of_mem_splitLines {text line : List Char} (h : line ∈ splitLines text) :
    '\n' ∉ line := feed_not_mem_of_unbroken (not_isLineBreak_of_mem_splitLines h)

theorem splitLines_cons {c : Char} {cs : List Char} (h : c = '\r' → cs.head? ≠ some '\n') :
    splitLines (c :: cs) =
      if isLineBreak c then [] :: splitLines cs else consFirst c (splitLines cs) := by
  rw [splitLines]
  rintro cs' rfl rfl
  exact h rfl rfl

theorem splitLines_cons_of_unbroken {c : Char} (hc : isLineBreak c = false) (cs : List Char) :
    splitLines (c :: cs) = consFirst c (splitLines cs) := by
  rw [splitLines_cons, hc]
  · rfl
  · rintro rfl
    exact absurd hc (by decide)

/-- A line goes on up to the first end of a line. -/
theorem splitLines_append_unbroken {line rest : List Char} {lines : List (List Char)}
    (h : ∀ c ∈ line, isLineBreak c = false) (hrest : splitLines rest = [] :: lines) :
    splitLines (line ++ rest) = line :: lines := by
  induction line with
  | nil => exact hrest
  | cons c cs ih =>
    obtain ⟨hc, hcs⟩ := List.forall_mem_cons.mp h
    rw [List.cons_append, splitLines_cons_of_unbroken hc, ih hcs]
    rfl

/-- A line feed ends a line. -/
theorem splitLines_append_feed {line : List Char} (h : ∀ c ∈ line, isLineBreak c = false)
    (rest : List Char) : splitLines (line ++ '\n' :: rest) = line :: splitLines rest :=
  splitLines_append_unbroken h rfl

/-- A text without an end of a line is one line, unless it is empty. -/
theorem splitLines_of_unbroken {line : List Char} (hne : line ≠ [])
    (h : ∀ c ∈ line, isLineBreak c = false) : splitLines line = [line] := by
  induction line with
  | nil => exact absurd rfl hne
  | cons c cs ih =>
    obtain ⟨hc, hcs⟩ := List.forall_mem_cons.mp h
    rw [splitLines_cons_of_unbroken hc]
    cases cs with
    | nil => rfl
    | cons x xs =>
      rw [ih (List.cons_ne_nil x xs) hcs]
      rfl

/-- Lines as one text, in which a line feed ends each. -/
def endLines (lines : List (List Char)) : List Char := lines.flatMap fun line => line ++ ['\n']

/-- Lines that are ended by line feeds fall apart into these lines. -/
theorem splitLines_endLines {lines : List (List Char)}
    (h : ∀ line ∈ lines, ∀ c ∈ line, isLineBreak c = false) :
    splitLines (endLines lines) = lines := by
  induction lines with
  | nil => rfl
  | cons line lines ih =>
    obtain ⟨hline, hlines⟩ := List.forall_mem_cons.mp h
    have hfirst : endLines (line :: lines) = line ++ '\n' :: endLines lines := by
      simp [endLines]
    rw [hfirst, splitLines_append_feed hline, ih hlines]

/-- A line of a text says nothing exactly if it has no lexeme. -/
theorem readLine_eq_blank_iff_lexemes {text : List Char} {line : SourceLine}
    (h : line ∈ numberedLines text) : readLine line.text = .ok .blank ↔ line.lexemes = [] := by
  have hfeed := feed_not_mem_of_mem_splitLines (text_mem_of_mem_numberedLines h)
  rw [readLine_eq_blank_iff, SourceLine.lexemes_eq_nil_iff hfeed]

/-! ## The lines that the reader hands out -/

/-- Behind the first lexeme of a line the reader passes the other ones, and no more. -/
theorem dropWhile_scanLines {number : Nat} {line : List Char} {lines : List (List Char)}
    {first : Lexeme} {rest : List Lexeme} (h : scanLine number line = first :: rest) :
    (rest ++ scanLines (number + 1) lines).dropWhile (fun x => x.line == first.line) =
      scanLines (number + 1) lines := by
  have hline : ∀ x ∈ first :: rest, x.line = number := by
    rw [← h]
    exact fun x hx => line_of_mem_ofPieces hx
  have hfirst := hline first List.mem_cons_self
  rw [List.dropWhile_append_of_pos, List.dropWhile_eq_self_iff]
  · intro hpos heq
    have hle := le_line_of_mem_scanLines (List.getElem_mem hpos)
    have := eq_of_beq heq
    omega
  · intro x hx
    rw [hline x (List.mem_cons_of_mem _ hx), hfirst, beq_self_eq_true]

theorem Reader.remaining_eq (before lines : List (List Char)) :
    Reader.remaining ⟨(before ++ lines).toArray, scanLines (before.length + 1) lines⟩ =
      (numbered (before.length + 1) lines).filter fun line => !line.lexemes.isEmpty := by
  induction lines generalizing before with
  | nil =>
    rw [Reader.remaining]
    rfl
  | cons line lines ih =>
    have hbehind := ih (before ++ [line])
    rw [List.append_assoc, List.singleton_append, List.length_append, List.length_singleton]
      at hbehind
    rw [numbered_cons, scanLines]
    cases hscan : scanLine (before.length + 1) line with
    | nil =>
      rw [List.nil_append, List.filter_cons_of_neg, hbehind]
      simp [SourceLine.lexemes, hscan]
    | cons first rest =>
      have hfirst : first.line = before.length + 1 :=
        line_of_mem_ofPieces (hscan ▸ List.mem_cons_self : first ∈ scanLine _ line)
      rw [List.filter_cons_of_pos (by simp [SourceLine.lexemes, hscan]), Reader.remaining]
      have hnext : Reader.next?
          ⟨(before ++ line :: lines).toArray,
            first :: rest ++ scanLines (before.length + 1 + 1) lines⟩ =
          some (⟨before.length + 1, line⟩,
            ⟨(before ++ line :: lines).toArray, scanLines (before.length + 1 + 1) lines⟩) := by
        rw [Reader.next?]
        simp only [List.cons_append, dropWhile_scanLines hscan]
        simp [hfirst]
      split
      · next hstop =>
        rw [hnext] at hstop
        cases hstop
      · next handed r' hgo =>
        rw [hnext] at hgo
        cases hgo
        rw [hbehind]

/-- The lines that the reader hands out are those with a lexeme. -/
theorem significantLines_eq (text : List Char) :
    significantLines text = (numberedLines text).filter fun line => !line.lexemes.isEmpty :=
  Reader.remaining_eq [] (splitLines text)

/-! ## Reading and translating all lines -/

section Silent

variable {keep : SourceLine → Bool} {lines : List SourceLine}

/-- Lines that say nothing can be left out. -/
theorem readLines_filter (h : ∀ line ∈ lines, keep line = false → readLine line.text = .ok .blank) :
    readLines (lines.filter keep) = readLines lines := by
  induction lines with
  | nil => rfl
  | cons line lines ih =>
    obtain ⟨hline, hlines⟩ := List.forall_mem_cons.mp h
    cases hkeep : keep line with
    | true => rw [List.filter_cons_of_pos hkeep, readLines, readLines, ih hlines]
    | false =>
      rw [List.filter_cons_of_neg (by simp [hkeep]), ih hlines, readLines, hline hkeep]
      cases readLines lines <;> rfl

theorem translateLines_filter {file : String} {w : Writer}
    (h : ∀ line ∈ lines, keep line = false → readLine line.text = .ok .blank) :
    translateLines file w (lines.filter keep) = translateLines file w lines := by
  induction lines generalizing w with
  | nil => rfl
  | cons line lines ih =>
    obtain ⟨hline, hlines⟩ := List.forall_mem_cons.mp h
    cases hkeep : keep line with
    | true =>
      rw [List.filter_cons_of_pos hkeep, translateLines, translateLines]
      simp only [ih hlines]
    | false =>
      rw [List.filter_cons_of_neg (by simp [hkeep]), ih hlines, translateLines, hline hkeep]

end Silent

theorem readLine_of_no_lexeme {text : List Char} {line : SourceLine} (h : line ∈ numberedLines text)
    (hnone : (!line.lexemes.isEmpty) = false) : readLine line.text = .ok .blank := by
  rw [readLine_eq_blank_iff_lexemes h]
  simpa using hnone

/-- A text is read line by line. -/
theorem readProgram_eq (text : List Char) : readProgram text = readLines (numberedLines text) := by
  unfold readProgram
  rw [significantLines_eq, readLines_filter fun line => readLine_of_no_lexeme]

/-- A text is translated line by line. -/
theorem translateSource_eq (text : List Char) (file : String) (output : Output) :
    translateSource text file output =
      translateLines file ⟨{ unit := unitLabel file }, output⟩ (numberedLines text) := by
  unfold translateSource
  rw [significantLines_eq, translateLines_filter fun line => readLine_of_no_lexeme]

end VmToHack
