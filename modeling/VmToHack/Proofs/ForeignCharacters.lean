import VmToHack.Proofs.Agreement
set_option autoImplicit false

/-!
# Foreign characters: what they do to their neighbours

A character that belongs to no word, to no gap and to no comment sign is a lexeme of its own
wherever it stands in front of the comment.  No word goes over it, not even the one keyword with a
hyphen (`IsForeign.take?_append`), so the scanner finds in front of it and behind it what it would
find there if the line ended, and began, at that character (`IsForeign.pieces_append`).

What is found behind it stands further to the right, and its first word is no longer the command if
there is a word in front (`Lexeme.behind`).  `foreign_character_parts_line` puts the two together.
-/

namespace VmToHack

open VmToHack.Grammar VmToHack.Text

/-- A character that belongs to no word, to no gap and to no comment sign. -/
structure IsForeign (c : Char) : Prop where
  notSymbol : isSymbolChar c = false
  notBlank : isBlank c = false
  notSlash : c ≠ '/'
  notHyphen : c ≠ '-'

/-! ## Words in front of a foreign character -/

namespace IsForeign

variable {c : Char} (hc : IsForeign c)

include hc

theorem not_mem_word {t : Terminal} {word : List Char} (h : t.Spelled word) : c ∉ word := by
  intro hmem
  have hchar : isSymbolChar c = true ∨ c = '-' := by
    obtain rfl | hsymbol | hnumeral := h.cases
    · have hletters : ∀ x ∈ "if-goto".toList, isSymbolChar x = true ∨ x = '-' := by
        simp [isSymbolChar, isSymbolStart]
      exact hletters c hmem
    · exact .inl (Terminal.Spelled.isSymbolChar_of_mem (t := .symbol) hsymbol rfl c hmem)
    · exact .inl (Terminal.Spelled.isSymbolChar_of_mem (t := .index) hnumeral rfl c hmem)
  rcases hchar with hsymbol | hhyphen
  · rw [hc.notSymbol] at hsymbol
    cases hsymbol
  · exact hc.notHyphen hhyphen

/-- What ends a word at the end of a text ends it in front of a foreign character too. -/
theorem endsBefore_append_iff (t : Terminal) (rest v : List Char) :
    t.EndsBefore (rest ++ c :: v) ↔ t.EndsBefore rest := by
  have hdigit : isDigit c = false := (Bool.or_eq_false_iff.mp hc.notSymbol).2
  cases rest with
  | nil =>
    cases t with
    | symbol => simp [Terminal.EndsBefore, hc.notSymbol]
    | index => simp [Terminal.EndsBefore, hdigit]
    | _ => exact Iff.rfl
  | cons x rest => cases t <;> exact Iff.rfl

/-- A terminal takes the same word with and without a foreign character behind the text. -/
theorem take?_append (t : Terminal) (u v : List Char) :
    t.take? (u ++ c :: v) = (t.take? u).map fun (word, rest) => (word, rest ++ c :: v) := by
  ext ⟨word, rest⟩
  rw [Terminal.take?_eq_some_iff, Option.map_eq_some_iff]
  constructor
  · rintro ⟨happ, hword, hends⟩
    obtain ⟨more, rfl, rfl⟩ | ⟨more, rfl, hrest⟩ := List.append_eq_append_iff.mp happ
    · rw [hc.endsBefore_append_iff] at hends
      exact ⟨(word, more), Terminal.take?_eq_some_iff.mpr ⟨rfl, hword, hends⟩, rfl⟩
    · -- the word reaches to the foreign character, and it cannot go on over it
      cases more with
      | nil =>
        rw [List.nil_append] at hrest
        rw [List.append_nil] at hword ⊢
        subst hrest
        have hends' : t.EndsBefore [] := (hc.endsBefore_append_iff t [] v).mp hends
        exact ⟨(u, []), Terminal.take?_eq_some_iff.mpr ⟨List.append_nil u, hword, hends'⟩, rfl⟩
      | cons x more =>
        obtain ⟨rfl, -⟩ := List.cons.inj hrest
        exact absurd (List.mem_append_right u List.mem_cons_self) (hc.not_mem_word hword)
  · rintro ⟨⟨word', rest'⟩, htake, heq⟩
    cases heq
    obtain ⟨rfl, hword, hends⟩ := Terminal.take?_eq_some_iff.mp htake
    exact ⟨(List.append_assoc ..).symm, hword, (hc.endsBefore_append_iff t _ v).mpr hends⟩

theorem classify?_append (u v : List Char) :
    classify? (u ++ c :: v) =
      (classify? u).map fun (t, word, rest) => (t, word, rest ++ c :: v) := by
  have hindex : takeIndex? (u ++ c :: v) =
      (takeIndex? u).map fun (word, rest) => (word, rest ++ c :: v) := hc.take?_append .index u v
  have hsymbol : takeSymbol? (u ++ c :: v) =
      (takeSymbol? u).map fun (word, rest) => (word, rest ++ c :: v) := hc.take?_append .symbol u v
  rw [classify?, classify?, hc.take?_append, hindex, hsymbol]
  cases (Terminal.mark .ifGoto).take? u with
  | some found => rfl
  | none =>
    cases takeIndex? u with
    | some found => rfl
    | none => cases takeSymbol? u <;> rfl

/-- A foreign character ends what stands in front of it, and is not passed itself. -/
theorem skipBlanks_append {x : Char} {u : List Char} (hskip : skipBlanks (x :: u) = x :: u)
    (v : List Char) : skipBlanks (x :: u ++ c :: v) = x :: u ++ c :: v := by
  obtain ⟨hblank, hcomment⟩ := skipBlanks_eq_self_iff.mp hskip
  refine skipBlanks_eq_self_iff.mpr ⟨hblank, ?_⟩
  rintro ⟨words, hwords⟩
  cases u with
  | nil =>
    cases hwords
    exact hc.notSlash rfl
  | cons y u =>
    cases hwords
    exact hcomment ⟨u, rfl⟩

/-- The scanner finds in front of a foreign character what it would find if the line ended there,
and behind it what it would find if the line began there. -/
theorem pieces_append {column : Nat} {u : List Char} (hcomment : ¬ ['/', '/'] <:+: u)
    (v : List Char) :
    pieces column (u ++ c :: v) =
      pieces column u ++ ⟨false, [c], column + u.length⟩ :: pieces (column + u.length + 1) v := by
  induction column, u using pieces.induct with
  | case1 column =>
    have hskip : skipBlanks (c :: v) = c :: v := skipBlanks_cons hc.notBlank hc.notSlash
    rw [List.nil_append, pieces_of_illegal hc.notSymbol hskip, pieces]
    rfl
  | case2 column x u hx ih =>
    have hrest : ¬ ['/', '/'] <:+: u := fun h => hcomment (h.trans (List.suffix_cons x u).isInfix)
    have hcolumn : column + 1 + u.length = column + (x :: u).length := Nat.succ_add_eq_add_succ ..
    rw [List.cons_append, pieces_of_isBlank hx, pieces_of_isBlank hx, ih hrest, hcolumn]
  | case3 column x u hx hslashes =>
    exact absurd (List.isPrefixOf_iff_prefix.mp hslashes).isInfix hcomment
  | case4 column x u hx t word rest hslashes hword ih =>
    obtain ⟨happ, -⟩ := freeWord_of_classify? hword
    have hrest : ¬ ['/', '/'] <:+: rest := fun h =>
      hcomment (h.trans (happ ▸ (List.suffix_append word rest).isInfix))
    have hfound : classify? (x :: u ++ c :: v) = some (t, word, rest ++ c :: v) := by
      rw [hc.classify?_append, hword]
      rfl
    have hcolumn : column + word.length + rest.length = column + (x :: u).length := by
      rw [happ, List.length_append, Nat.add_assoc]
    rw [pieces_of_classify? hfound, pieces_of_classify? hword, ih hrest, hcolumn, List.cons_append]
  | case5 column x u hx hslashes hnone ih =>
    have hrest : ¬ ['/', '/'] <:+: u := fun h => hcomment (h.trans (List.suffix_cons x u).isInfix)
    have hchar : isSymbolChar x = false := classify?_eq_none_iff.mp hnone x rfl
    have hskip : skipBlanks (x :: u) = x :: u := skipBlanks_eq_self hx hslashes
    have hskip' : skipBlanks (x :: (u ++ c :: v)) = x :: (u ++ c :: v) :=
      hc.skipBlanks_append hskip v
    have hcolumn : column + 1 + u.length = column + (x :: u).length := Nat.succ_add_eq_add_succ ..
    rw [pieces_of_illegal hchar hskip, List.cons_append, pieces_of_illegal hchar hskip', ih hrest,
      hcolumn, List.cons_append]

end IsForeign

/-! ## Lexemes that stand further to the right -/

/-- A piece that comes to stand so many columns further to the right. -/
def Piece.moved (width : Nat) (p : Piece) : Piece := { p with column := p.column + width }

/-- A lexeme that comes to stand so many columns further to the right.  On a line that has begun it
is no command. -/
def Lexeme.behind (width : Nat) (begun : Bool) (x : Lexeme) : Lexeme where
  kind := if begun && x.kind == .command then .argument else x.kind
  value := x.value
  line := x.line
  column := x.column + width

theorem pieces_add (column width : Nat) (cs : List Char) :
    pieces (column + width) cs = (pieces column cs).map (Piece.moved width) := by
  induction column, cs using pieces.induct with
  | case1 column => rw [pieces, pieces, List.map_nil]
  | case2 column c cs hc ih =>
    rw [pieces_of_isBlank hc, pieces_of_isBlank hc, ← ih, Nat.add_right_comm]
  | case3 column c cs hc hslashes =>
    obtain ⟨words, hwords⟩ := List.isPrefixOf_iff_prefix.mp hslashes
    have hcs : c :: cs = '/' :: '/' :: words := hwords.symm
    rw [hcs, pieces_comment, pieces_comment, List.map_nil]
  | case4 column c cs hc t word rest hslashes hword ih =>
    rw [pieces_of_classify? hword, pieces_of_classify? hword, List.map_cons, ← ih,
      Nat.add_right_comm]
    rfl
  | case5 column c cs hc hslashes hnone ih =>
    have hchar : isSymbolChar c = false := classify?_eq_none_iff.mp hnone c rfl
    have hskip : skipBlanks (c :: cs) = c :: cs := skipBlanks_eq_self hc hslashes
    rw [pieces_of_illegal hchar hskip, pieces_of_illegal hchar hskip, List.map_cons, ← ih,
      Nat.add_right_comm]
    rfl

section Lexemes

variable (number : Nat)

theorem ofPieces_append (begun : Bool) (ps qs : List Piece) :
    Lexeme.ofPieces number begun (ps ++ qs) =
      Lexeme.ofPieces number begun ps ++
        Lexeme.ofPieces number (begun || ps.any Piece.legal) qs := by
  induction ps generalizing begun with
  | nil => simp [Lexeme.ofPieces]
  | cons p ps ih =>
    rw [List.cons_append, Lexeme.ofPieces, Lexeme.ofPieces, ih, ih]
    cases hlegal : p.legal <;> simp [hlegal]

/-- The lexemes of pieces on a line that may have begun in front of them. -/
theorem ofPieces_moved (width : Nat) (begun : Bool) (ps : List Piece) :
    Lexeme.ofPieces number begun (ps.map (Piece.moved width)) =
      (Lexeme.ofPieces number false ps).map (Lexeme.behind width begun) := by
  have hgeneral : ∀ b, Lexeme.ofPieces number (begun || b) (ps.map (Piece.moved width)) =
      (Lexeme.ofPieces number b ps).map (Lexeme.behind width begun) := by
    induction ps with
    | nil => exact fun b => rfl
    | cons p ps ih =>
      intro b
      have hwords := ih true
      rw [Bool.or_true] at hwords
      have hmoved : (Piece.moved width p).legal = p.legal := rfl
      rw [List.map_cons, Lexeme.ofPieces, Lexeme.ofPieces, hmoved]
      split
      · rw [hwords, List.map_cons]
        cases begun <;> cases b <;> rfl
      · rw [ih, List.map_cons]
        cases begun <;> rfl
  have h := hgeneral false
  rwa [Bool.or_false] at h

theorem any_isWord_ofPieces (begun : Bool) (ps : List Piece) :
    (Lexeme.ofPieces number begun ps).any Lexeme.isWord = ps.any Piece.legal := by
  conv_rhs => rw [← map_piece_ofPieces number begun ps, List.any_map]
  rfl

end Lexemes

/-! ## The line with the character -/

section Line

variable {u v : List Char} {c : Char}

/-- A text without an end of a line is scanned as one line. -/
theorem scan_of_unbroken {line : List Char} (h : ∀ x ∈ line, isLineBreak x = false) :
    scan line = scanLine 1 line := by
  by_cases hne : line = []
  · subst hne
    rw [scan, scanLine, pieces]
    rfl
  · rw [scan, splitLines_of_unbroken hne h, scanLines, scanLines, List.append_nil]

/-- Behind a foreign character that stands so many columns in, the lexemes of a text move to the
right by as much and by one, behind what stands in front. -/
theorem scanLine_append_foreign (hc : IsForeign c) (hcomment : ¬ ['/', '/'] <:+: u)
    (number : Nat) :
    scanLine number (u ++ c :: v) =
      scanLine number u ++ ⟨.illegal, [c], number, u.length + 1⟩ ::
        (scanLine number v).map
          (Lexeme.behind (u.length + 1) ((scanLine number u).any Lexeme.isWord)) := by
  have hbehind : pieces (1 + u.length + 1) v = (pieces 1 v).map (Piece.moved (u.length + 1)) :=
    pieces_add 1 (u.length + 1) v
  rw [scanLine, hc.pieces_append hcomment, hbehind, ofPieces_append, Bool.false_or,
    Lexeme.ofPieces, if_neg Bool.false_ne_true, ofPieces_moved, scanLine, any_isWord_ofPieces,
    Nat.add_comm 1]
  rfl

/-- A foreign character does not disturb its neighbours.  The lexemes of a line in which one stands
in front of the comment are those of the text in front of it, the character itself, and those of
the text behind it, which have moved to the right and have no command if there is a word in front;
on any line, and so also if the line is the whole text. -/
theorem foreign_character_parts_line (hu : ∀ x ∈ u, isLineBreak x = false)
    (hv : ∀ x ∈ v, isLineBreak x = false) (hbreak : isLineBreak c = false) (hc : IsForeign c)
    (hcomment : ¬ ['/', '/'] <:+: u) :
    (∀ number, scanLine number (u ++ c :: v) =
      scanLine number u ++ ⟨.illegal, [c], number, u.length + 1⟩ ::
        (scanLine number v).map
          (Lexeme.behind (u.length + 1) ((scanLine number u).any Lexeme.isWord))) ∧
    scan (u ++ c :: v) =
      scan u ++ ⟨.illegal, [c], 1, u.length + 1⟩ ::
        (scan v).map (Lexeme.behind (u.length + 1) ((scan u).any Lexeme.isWord)) := by
  have hline : ∀ x ∈ u ++ c :: v, isLineBreak x = false :=
    List.forall_mem_append.mpr ⟨hu, List.forall_mem_cons.mpr ⟨hbreak, hv⟩⟩
  refine ⟨scanLine_append_foreign hc hcomment, ?_⟩
  rw [scan_of_unbroken hline, scan_of_unbroken hu, scan_of_unbroken hv]
  exact scanLine_append_foreign hc hcomment 1

/-- A dollar sign between two slashes, behind a keyword that breaks off. -/
theorem foreign_character_parts_line_dollar :
    IsForeign '$' ∧ ¬ ['/', '/'] <:+: "add if-g/".toList ∧
      scan ("add if-g/".toList ++ '$' :: "/oto x// $".toList) =
        [⟨.command, "add".toList, 1, 1⟩, ⟨.argument, "if".toList, 1, 5⟩,
          ⟨.illegal, ['-'], 1, 7⟩, ⟨.argument, "g".toList, 1, 8⟩, ⟨.illegal, ['/'], 1, 9⟩] ++
        ⟨.illegal, ['$'], 1, 10⟩ ::
          [⟨.illegal, ['/'], 1, 1⟩, ⟨.command, "oto".toList, 1, 2⟩,
            ⟨.argument, "x".toList, 1, 6⟩].map (Lexeme.behind 10 true) := by
  have hforeign : IsForeign '$' := ⟨by decide, by decide, by decide, by decide⟩
  have hcomment : ¬ ['/', '/'] <:+: "add if-g/".toList := by simp [List.infix_cons_iff]
  have hu : ∀ x ∈ "add if-g/".toList, isLineBreak x = false := by simp [isLineBreak]
  have hv : ∀ x ∈ "/oto x// $".toList, isLineBreak x = false := by simp [isLineBreak]
  obtain ⟨-, hscan⟩ := foreign_character_parts_line hu hv (by decide) hforeign hcomment
  have hfront : scan "add if-g/".toList = [⟨.command, "add".toList, 1, 1⟩,
      ⟨.argument, "if".toList, 1, 5⟩, ⟨.illegal, ['-'], 1, 7⟩, ⟨.argument, "g".toList, 1, 8⟩,
      ⟨.illegal, ['/'], 1, 9⟩] := by decide +kernel
  have hbehind : scan "/oto x// $".toList = [⟨.illegal, ['/'], 1, 1⟩,
      ⟨.command, "oto".toList, 1, 2⟩, ⟨.argument, "x".toList, 1, 6⟩] := by decide +kernel
  rw [hfront, hbehind] at hscan
  exact ⟨hforeign, hcomment, hscan⟩

end Line

end VmToHack
