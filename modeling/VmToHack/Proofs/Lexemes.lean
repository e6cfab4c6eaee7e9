import VmToHack.Proofs.Columns
import VmToHack.Proofs.SourceLines
set_option autoImplicit false

/-!
# Lexemes: what the scanner makes of a text

The scanner knows nothing of commands.  Where a character of symbols stands it finds a word: the
one keyword with a hyphen, or else a numeral or a symbol that goes as far as it can (`FreeWord`).
Blanks and a comment it passes, and any other character it takes for itself and goes on behind it.

`Covers` is this walk as a relation between the rest of a line and the pieces that are found there;
what is said about pieces is shown by induction on it.  `scan_accounts` says that nothing is lost
and nothing invented: the lexemes of a text go from left to right and from line to line, each stands
where it says, and what they leave out is blank or a comment.
-/

namespace VmToHack

open VmToHack.Grammar VmToHack.Text

namespace Grammar

/-! ## Words that are found anywhere -/

/-- A word that is found in front of a rest when nothing is known about what is wanted: a numeral or
a symbol goes as far as it can. -/
inductive FreeWord : List Char → List Char → Prop where
  | ifGoto (rest : List Char) : FreeWord "if-goto".toList rest
  | numeral {word rest : List Char} (hword : Numeral word)
      (hends : Terminal.index.EndsBefore rest) : FreeWord word rest
  | symbol {word rest : List Char} (hword : SymbolWord word)
      (hends : Terminal.symbol.EndsBefore rest) : FreeWord word rest

theorem freeWord_of_classify? {cs word rest : List Char} {t : Terminal}
    (h : classify? cs = some (t, word, rest)) : cs = word ++ rest ∧ FreeWord word rest := by
  unfold classify? at h
  split at h
  · next hword =>
    cases h
    obtain ⟨happ, hspelled, -⟩ := Terminal.take?_eq_some_iff.mp hword
    cases hspelled
    exact ⟨happ.symm, .ifGoto _⟩
  · split at h
    · next hword =>
      cases h
      obtain ⟨happ, hnumeral, hends⟩ := takeRun?_eq_some_iff.mp hword
      exact ⟨happ.symm, .numeral hnumeral hends⟩
    · obtain ⟨⟨word', rest'⟩, hword, heq⟩ := Option.map_eq_some_iff.mp h
      cases heq
      obtain ⟨happ, hsymbol, hends⟩ := takeRun?_eq_some_iff.mp hword
      exact ⟨happ.symm, .symbol hsymbol hends⟩

theorem FreeWord.ne_nil {word rest : List Char} (h : FreeWord word rest) : word ≠ [] := by
  cases h with
  | ifGoto => decide
  | numeral hword =>
    obtain ⟨-, -⟩ := hword
    exact List.cons_ne_nil _ _
  | symbol hword =>
    obtain ⟨-, -⟩ := hword
    exact List.cons_ne_nil _ _

/-- No run of digits goes over from a text to what stands behind it. -/
def DigitsEnd (before rest : List Char) : Prop :=
  ∀ c ∈ before.getLast?, ∀ d ∈ rest.head?, isDigit d = true → isDigit c = false

theorem digitsEnd_concat {c : Char} (hc : isDigit c = false) (before rest : List Char) :
    DigitsEnd (before ++ [c]) rest := by
  intro x hx d hd hdigit
  rw [List.getLast?_concat] at hx
  cases hx
  exact hc

theorem FreeWord.digitsEnd {word rest : List Char} (h : FreeWord word rest) (before : List Char) :
    DigitsEnd (before ++ word) rest := by
  cases h with
  | ifGoto =>
    have hsplit : before ++ "if-goto".toList = before ++ "if-got".toList ++ ['o'] := by simp
    rw [hsplit]
    exact digitsEnd_concat (by decide) _ _
  | numeral hword hends =>
    intro c hc d hd hdigit
    rw [hends d hd] at hdigit
    cases hdigit
  | symbol hword hends =>
    intro c hc d hd hdigit
    rw [(Bool.or_eq_false_iff.mp (hends d hd)).2] at hdigit
    cases hdigit

/-- Where no character of symbols stands, no word of any terminal begins. -/
theorem Terminal.take?_eq_none_of_head {cs : List Char}
    (h : ∀ c ∈ cs.head?, isSymbolChar c = false) (t : Terminal) : t.take? cs = none := by
  rw [Option.eq_none_iff_forall_ne_some]
  rintro ⟨word, rest⟩ htake
  obtain ⟨rfl, hword, -⟩ := Terminal.take?_eq_some_iff.mp htake
  obtain ⟨c, cs, rfl, hc⟩ := hword.head
  rw [h c rfl] at hc
  cases hc

/-- A word is found exactly where a character of symbols stands. -/
theorem classify?_eq_none_iff {cs : List Char} :
    classify? cs = none ↔ ∀ c ∈ cs.head?, isSymbolChar c = false := by
  constructor
  · intro h c hc
    obtain ⟨rest, rfl⟩ := List.head?_eq_some_iff.mp hc
    unfold classify? at h
    split at h
    · cases h
    · split at h
      · cases h
      · next hindex =>
        rw [Option.map_eq_none_iff] at h
        have hdigit : isDigit c = false := by simpa [takeIndex?, takeRun?] using hindex
        have hstart : isSymbolStart c = false := by simpa [takeSymbol?, takeRun?] using h
        rw [isSymbolChar, hstart, hdigit, Bool.or_false]
  · intro h
    have hindex : takeIndex? cs = none := Terminal.take?_eq_none_of_head h .index
    have hsymbol : takeSymbol? cs = none := Terminal.take?_eq_none_of_head h .symbol
    rw [classify?, Terminal.take?_eq_none_of_head h (.mark .ifGoto), hindex, hsymbol]
    rfl

theorem exists_head_of_classify? {cs word rest : List Char} {t : Terminal}
    (h : classify? cs = some (t, word, rest)) :
    ∃ c more, cs = c :: more ∧ isSymbolChar c = true := by
  cases cs with
  | nil => cases h
  | cons c more =>
    refine ⟨c, more, rfl, ?_⟩
    by_contra hc
    have hnone : classify? (c :: more) = none := by
      rw [classify?_eq_none_iff]
      rintro x ⟨⟩
      simpa using hc
    rw [hnone] at h
    cases h

theorem skipBlanks_eq_self_iff {c : Char} {cs : List Char} :
    skipBlanks (c :: cs) = c :: cs ↔ isBlank c = false ∧ ¬ ['/', '/'] <+: c :: cs := by
  constructor
  · intro hskip
    constructor
    · rw [Bool.eq_false_iff]
      intro hblank
      have hgap : Blanks [c] := by simpa [Blanks] using hblank
      have hbehind : skipBlanks (c :: cs) = skipBlanks cs := hgap.skip cs
      have hle := (State.skipBlanks_suffix cs).length_le
      rw [← hbehind, hskip] at hle
      exact Nat.not_succ_le_self _ hle
    · rintro ⟨words, hwords⟩
      apply beforeComment_ne_nil (List.cons_ne_nil c cs) hskip
      rw [← hwords]
      rfl
  · rintro ⟨hblank, hcomment⟩
    unfold skipBlanks
    rw [List.dropWhile_cons_of_neg (by simp [hblank])]
    split
    · next words hwords => exact absurd ⟨words, hwords.symm⟩ hcomment
    · rfl

/-- Where neither a blank nor a comment stands, nothing is passed. -/
theorem skipBlanks_eq_self {c : Char} {cs : List Char} (hblank : ¬ isBlank c = true)
    (hcomment : ¬ ['/', '/'].isPrefixOf (c :: cs) = true) : skipBlanks (c :: cs) = c :: cs := by
  rw [List.isPrefixOf_iff_prefix] at hcomment
  exact skipBlanks_eq_self_iff.mpr ⟨by simpa using hblank, hcomment⟩

end Grammar

/-! ## One piece -/

section Pieces

variable {column : Nat} {c : Char} {cs rest word : List Char} {t : Terminal}

theorem pieces_of_isBlank (hc : isBlank c = true) :
    pieces column (c :: cs) = pieces (column + 1) cs := by
  rw [pieces, if_pos hc]

theorem pieces_comment (column : Nat) (words : List Char) :
    pieces column ('/' :: '/' :: words) = [] := by
  rw [pieces]
  rfl

theorem pieces_of_classify? (h : classify? cs = some (t, word, rest)) :
    pieces column cs = ⟨true, word, column⟩ :: pieces (column + word.length) rest := by
  obtain ⟨c, more, rfl, hc⟩ := exists_head_of_classify? h
  have hblank : ¬ isBlank c = true := by simp [isBlank_eq_false_of_isSymbolChar hc]
  have hcomment : ¬ ['/', '/'].isPrefixOf (c :: more) = true := by
    rw [List.isPrefixOf_iff_prefix]
    rintro ⟨words, hwords⟩
    cases hwords
    exact absurd hc (by decide)
  rw [pieces, if_neg hblank, if_neg hcomment]
  split
  · next hfound =>
    rw [h] at hfound
    cases hfound
    rfl
  · next hfound =>
    rw [h] at hfound
    cases hfound

theorem pieces_of_illegal (hc : isSymbolChar c = false) (hskip : skipBlanks (c :: cs) = c :: cs) :
    pieces column (c :: cs) = ⟨false, [c], column⟩ :: pieces (column + 1) cs := by
  obtain ⟨hblank, hcomment⟩ := skipBlanks_eq_self_iff.mp hskip
  have hnone : classify? (c :: cs) = none := by
    rw [classify?_eq_none_iff]
    rintro x ⟨⟩
    exact hc
  rw [pieces, if_neg (by simp [hblank]), if_neg (by rwa [List.isPrefixOf_iff_prefix])]
  split
  · next hfound =>
    rw [hnone] at hfound
    cases hfound
  · rfl

end Pieces

/-! ## How pieces cover a line -/

/-- Pieces cover a text that begins at a column: what they leave out is blank, but for a comment at
the end. -/
inductive Covers : Nat → List Char → List Piece → Prop where
  | ended {column : Nat} : Covers column [] []
  | comment {column : Nat} {words : List Char} : Covers column ('/' :: '/' :: words) []
  | blank {column : Nat} {c : Char} {cs : List Char} {ps : List Piece} (hc : isBlank c = true)
      (h : Covers (column + 1) cs ps) : Covers column (c :: cs) ps
  | word {column : Nat} {word rest : List Char} {ps : List Piece} (hword : FreeWord word rest)
      (h : Covers (column + word.length) rest ps) :
      Covers column (word ++ rest) (⟨true, word, column⟩ :: ps)
  | illegal {column : Nat} {c : Char} {rest : List Char} {ps : List Piece}
      (hc : isSymbolChar c = false) (hskip : skipBlanks (c :: rest) = c :: rest)
      (h : Covers (column + 1) rest ps) : Covers column (c :: rest) (⟨false, [c], column⟩ :: ps)

theorem covers_pieces (column : Nat) (cs : List Char) : Covers column cs (pieces column cs) := by
  induction column, cs using pieces.induct with
  | case1 column =>
    rw [pieces]
    exact .ended
  | case2 column c cs hc ih =>
    rw [pieces_of_isBlank hc]
    exact .blank hc ih
  | case3 column c cs hc hcomment =>
    obtain ⟨words, hwords⟩ := List.isPrefixOf_iff_prefix.mp hcomment
    have hcs : c :: cs = '/' :: '/' :: words := hwords.symm
    rw [hcs, pieces_comment]
    exact .comment
  | case4 column c cs hc t word rest hcomment hword ih =>
    rw [pieces_of_classify? hword]
    obtain ⟨happ, hfree⟩ := freeWord_of_classify? hword
    rw [happ]
    exact .word hfree ih
  | case5 column c cs hc hcomment hnone ih =>
    have hchar : isSymbolChar c = false := classify?_eq_none_iff.mp hnone c rfl
    have hskip : skipBlanks (c :: cs) = c :: cs := skipBlanks_eq_self hc hcomment
    rw [pieces_of_illegal hchar hskip]
    exact .illegal hchar hskip ih

/-! ## What follows for the pieces -/

/-- A piece between two parts of a line.  A word is one that could be no longer there; any other
piece is a character at which no word begins, nor a blank or a comment. -/
structure Piece.StandsBetween (p : Piece) (before after : List Char) : Prop where
  column_eq : p.column = before.length + 1
  word : p.legal = true → p.value = "if-goto".toList ∨
    (Numeral p.value ∧ (∀ c ∈ before.getLast?, isDigit c = false) ∧
      ∀ c ∈ after.head?, isDigit c = false) ∨
    (SymbolWord p.value ∧ ∀ c ∈ after.head?, isSymbolChar c = false)
  character : p.legal = false → ∃ c, p.value = [c] ∧ skipBlanks (c :: after) = c :: after ∧
    ∀ t : Terminal, t.take? (c :: after) = none

/-- A piece stands on a line at its column. -/
def Piece.StandsOn (p : Piece) (line : List Char) : Prop :=
  ∃ before after, line = before ++ p.value ++ after ∧ p.StandsBetween before after

/-- A piece ends where another one begins, or in front of that. -/
structure Piece.Precedes (p q : Piece) : Prop where
  begins : p.column < q.column
  ends : p.column + p.value.length ≤ q.column

/-- A column is one of those that the piece takes up. -/
def Piece.Holds (p : Piece) (column : Nat) : Prop :=
  p.column ≤ column ∧ column < p.column + p.value.length

/-- All that pieces leave out of a text that begins at a column is blank, up to a comment at the
end. -/
def LeavesBlanks (column : Nat) (cs : List Char) (ps : List Piece) : Prop :=
  ∃ body tail, cs = body ++ tail ∧ (tail = [] ∨ ['/', '/'] <+: tail) ∧
    (∀ p ∈ ps, p.column + p.value.length ≤ column + body.length) ∧
    ∀ i c, body[i]? = some c → isBlank c = true ∨ ∃ p ∈ ps, p.Holds (column + i)

section Covers

variable {column : Nat} {before word rest cs : List Char} {ps : List Piece}

/-- Every piece stands in its place. -/
theorem Covers.standsOn (h : Covers column cs ps) (hcolumn : column = before.length + 1)
    (hdigits : DigitsEnd before cs) : ∀ p ∈ ps, p.StandsOn (before ++ cs) := by
  induction h generalizing before with
  | ended => exact List.forall_mem_nil _
  | comment => exact List.forall_mem_nil _
  | @blank column c cs ps hc h ih =>
    have hdigit : isDigit c = false :=
      (Bool.or_eq_false_iff.mp (isSymbolChar_eq_false_of_isBlank hc)).2
    rw [List.append_cons]
    exact ih (by simp [hcolumn]) (digitsEnd_concat hdigit before cs)
  | @word column word rest ps hword h ih =>
    refine List.forall_mem_cons.mpr
      ⟨⟨before, rest, by simp, hcolumn, fun _ => ?_, fun h => Bool.noConfusion h⟩, ?_⟩
    · cases hword with
      | ifGoto => exact .inl rfl
      | numeral hword hends =>
        refine .inr (.inl ⟨hword, fun c hc => ?_, hends⟩)
        obtain ⟨hfirst, -⟩ := hword
        exact hdigits c hc _ rfl hfirst
      | symbol hword hends => exact .inr (.inr ⟨hword, hends⟩)
    · rw [← List.append_assoc]
      refine ih ?_ (hword.digitsEnd before)
      rw [hcolumn, List.length_append]
      omega
  | @illegal column c rest ps hc hskip h ih =>
    have hnone : ∀ t : Terminal, t.take? (c :: rest) = none := by
      refine Terminal.take?_eq_none_of_head ?_
      rintro x ⟨⟩
      exact hc
    refine List.forall_mem_cons.mpr
      ⟨⟨before, rest, by simp, hcolumn, fun h => Bool.noConfusion h,
        fun _ => ⟨c, rfl, hskip, hnone⟩⟩, ?_⟩
    rw [List.append_cons]
    exact ih (by simp [hcolumn]) (digitsEnd_concat (Bool.or_eq_false_iff.mp hc).2 before rest)

/-- The pieces go from left to right and do not overlap. -/
theorem Covers.pairwise (h : Covers column cs ps) :
    (∀ p ∈ ps, column ≤ p.column) ∧ ps.Pairwise Piece.Precedes := by
  induction h with
  | ended => exact ⟨nofun, .nil⟩
  | comment => exact ⟨nofun, .nil⟩
  | blank hc h ih => exact ⟨fun p hp => Nat.le_of_succ_le (ih.1 p hp), ih.2⟩
  | @word column word rest ps hword h ih =>
    have hpos : 0 < word.length := List.length_pos_iff.mpr hword.ne_nil
    obtain ⟨hcolumns, hpairs⟩ := ih
    refine ⟨List.forall_mem_cons.mpr ⟨Nat.le_refl _, fun p hp => ?_⟩,
      List.pairwise_cons.mpr ⟨fun p hp => ⟨?_, hcolumns p hp⟩, hpairs⟩⟩
    · exact Nat.le_of_add_right_le (hcolumns p hp)
    · exact Nat.lt_of_lt_of_le (Nat.lt_add_of_pos_right hpos) (hcolumns p hp)
  | @illegal column c rest ps hc hskip h ih =>
    obtain ⟨hcolumns, hpairs⟩ := ih
    refine ⟨List.forall_mem_cons.mpr ⟨Nat.le_refl _, fun p hp => ?_⟩,
      List.pairwise_cons.mpr ⟨fun p hp => ⟨hcolumns p hp, hcolumns p hp⟩, hpairs⟩⟩
    exact Nat.le_of_succ_le (hcolumns p hp)

/-- A piece in front leaves out no more. -/
theorem LeavesBlanks.cons (legal : Bool) (word : List Char)
    (h : LeavesBlanks (column + word.length) rest ps) :
    LeavesBlanks column (word ++ rest) (⟨legal, word, column⟩ :: ps) := by
  obtain ⟨body, tail, rfl, htail, hends, hholds⟩ := h
  refine ⟨word ++ body, tail, by simp, htail, ?_, fun i c hi => ?_⟩
  · rw [List.length_append]
    refine List.forall_mem_cons.mpr ⟨?_, fun p hp => ?_⟩
    · exact Nat.add_le_add_left (Nat.le_add_right _ _) column
    · have := hends p hp
      omega
  · by_cases hlt : i < word.length
    · exact .inr ⟨_, List.mem_cons_self, Nat.le_add_right column i, Nat.add_lt_add_left hlt column⟩
    · rw [List.getElem?_append_right (Nat.le_of_not_lt hlt)] at hi
      obtain hblank | ⟨p, hp, hplace⟩ := hholds _ c hi
      · exact .inl hblank
      · have hsame : column + word.length + (i - word.length) = column + i := by omega
        rw [hsame] at hplace
        exact .inr ⟨p, List.mem_cons_of_mem _ hp, hplace⟩

/-- The pieces leave out nothing but blanks and a comment. -/
theorem Covers.leavesBlanks (h : Covers column cs ps) : LeavesBlanks column cs ps := by
  induction h with
  | ended => exact ⟨[], [], rfl, .inl rfl, nofun, nofun⟩
  | @comment column words => exact ⟨[], _, rfl, .inr ⟨words, rfl⟩, nofun, nofun⟩
  | @blank column c cs ps hc h ih =>
    obtain ⟨body, tail, rfl, htail, hends, hholds⟩ := ih
    refine ⟨c :: body, tail, rfl, htail, fun p hp => ?_, fun i x hi => ?_⟩
    · have := hends p hp
      rw [List.length_cons]
      omega
    · cases i with
      | zero =>
        cases hi
        exact .inl hc
      | succ i =>
        have := hholds i x hi
        rwa [Nat.add_right_comm] at this
  | word hword h ih => exact ih.cons true _
  | @illegal column c rest ps hc hskip h ih => exact LeavesBlanks.cons false [c] ih

end Covers

/-! ## From pieces to lexemes -/

/-- A lexeme without its line and without its part in the command. -/
def Lexeme.piece (x : Lexeme) : Piece := ⟨x.kind != .illegal, x.value, x.column⟩

/-- A lexeme is a word, not a character at which none begins. -/
def Lexeme.isWord (x : Lexeme) : Bool := x.kind != .illegal

theorem map_piece_ofPieces (number : Nat) (begun : Bool) (ps : List Piece) :
    (Lexeme.ofPieces number begun ps).map Lexeme.piece = ps := by
  induction ps generalizing begun with
  | nil => rfl
  | cons p ps ih =>
    obtain ⟨legal, value, column⟩ := p
    cases legal with
    | true =>
      rw [Lexeme.ofPieces, if_pos rfl, List.map_cons, ih]
      cases begun <;> rfl
    | false =>
      rw [Lexeme.ofPieces, if_neg Bool.false_ne_true, List.map_cons, ih]
      rfl

/-- Behind the first word all words are arguments. -/
theorem kinds_begun (number : Nat) (ps : List Piece) :
    ((Lexeme.ofPieces number true ps).filter Lexeme.isWord).map Lexeme.kind =
      List.replicate (ps.countP Piece.legal) .argument := by
  induction ps with
  | nil => rfl
  | cons p ps ih =>
    cases hlegal : p.legal with
    | true =>
      rw [Lexeme.ofPieces, List.countP_cons_of_pos hlegal, if_pos hlegal,
        List.filter_cons_of_pos rfl, List.map_cons, ih, List.replicate_succ]
      rfl
    | false =>
      have hnot : ¬ p.legal = true := by simp [hlegal]
      rw [Lexeme.ofPieces, List.countP_cons_of_neg hnot, if_neg hnot,
        List.filter_cons_of_neg (by simp [Lexeme.isWord]), ih]

/-- The first word is the command. -/
theorem kinds_of_ofPieces (number : Nat) (ps : List Piece) :
    (Lexeme.ofPieces number false ps).filter Lexeme.isWord = [] ∨
      ∃ n, ((Lexeme.ofPieces number false ps).filter Lexeme.isWord).map Lexeme.kind =
        .command :: List.replicate n .argument := by
  induction ps with
  | nil => exact .inl rfl
  | cons p ps ih =>
    rw [Lexeme.ofPieces]
    split
    · right
      refine ⟨ps.countP Piece.legal, ?_⟩
      rw [List.filter_cons_of_pos rfl, List.map_cons, kinds_begun]
      rfl
    · rwa [List.filter_cons_of_neg (by simp [Lexeme.isWord])]

/-- The lexemes of a text are those of its lines, line by line. -/
theorem scan_eq (text : List Char) :
    scan text = (numberedLines text).flatMap SourceLine.lexemes := by
  have hlines : ∀ (lines : List (List Char)) (number : Nat),
      scanLines number lines = (numbered number lines).flatMap SourceLine.lexemes := by
    intro lines
    induction lines with
    | nil => exact fun number => rfl
    | cons line lines ih =>
      intro number
      rw [scanLines, ih, numbered_cons, List.flatMap_cons]
      rfl
  exact hlines (splitLines text) 1

/-- A lexeme stands on an earlier line than another one, or on the same line in front of it. -/
def Lexeme.Precedes (x y : Lexeme) : Prop :=
  x.line < y.line ∨ x.line = y.line ∧ x.piece.Precedes y.piece

/-- The lexemes of a line account for all of it: each is found in its place, what they leave out is
blank up to a comment at the end, and of the words the first is the command and the others are its
arguments. -/
structure SourceLine.Accounted (line : SourceLine) : Prop where
  numbered : ∀ x ∈ line.lexemes, x.line = line.number
  standing : ∀ x ∈ line.lexemes, x.piece.StandsOn line.text
  covering : LeavesBlanks 1 line.text (line.lexemes.map Lexeme.piece)
  kinds : line.lexemes.filter Lexeme.isWord = [] ∨
    ∃ n, (line.lexemes.filter Lexeme.isWord).map Lexeme.kind =
      .command :: List.replicate n .argument

theorem map_piece_lexemes (line : SourceLine) :
    line.lexemes.map Lexeme.piece = pieces 1 line.text := map_piece_ofPieces _ _ _

theorem accounted (line : SourceLine) : line.Accounted := by
  have hcovers := covers_pieces 1 line.text
  have hbegin : DigitsEnd [] line.text := nofun
  refine ⟨fun x hx => line_of_mem_ofPieces hx, fun x hx => ?_, ?_, kinds_of_ofPieces _ _⟩
  · have hpiece : x.piece ∈ pieces 1 line.text := by
      rw [← map_piece_lexemes]
      exact List.mem_map_of_mem hx
    exact hcovers.standsOn rfl hbegin _ hpiece
  · rw [map_piece_lexemes]
    exact hcovers.leavesBlanks

/-- The lexemes of a text go from line to line and on each from left to right, and those of a line
account for all of it. -/
theorem scan_accounts (text : List Char) :
    scan text = (numberedLines text).flatMap SourceLine.lexemes ∧
      (scan text).Pairwise Lexeme.Precedes ∧ ∀ line ∈ numberedLines text, line.Accounted := by
  refine ⟨scan_eq text, ?_, fun line _ => accounted line⟩
  rw [scan_eq, List.pairwise_flatMap]
  constructor
  · intro line _
    have hpairs : (line.lexemes.map Lexeme.piece).Pairwise Piece.Precedes := by
      rw [map_piece_lexemes]
      exact (covers_pieces 1 line.text).pairwise.2
    have hnumbered := (accounted line).numbered
    refine (List.pairwise_map.mp hpairs).imp_of_mem fun hx hy hprecedes => ?_
    exact .inr ⟨(hnumbered _ hx).trans (hnumbered _ hy).symm, hprecedes⟩
  · refine (pairwise_numbered 1 (splitLines text)).imp fun {a b} hlt x hx y hy => .inl ?_
    rw [(accounted a).numbered x hx, (accounted b).numbered y hy]
    exact hlt

end VmToHack
