import VmToHack.Proofs.Concatenation
set_option autoImplicit false

/-!
# Line ends: the lines of a text with the characters that end them

A text is its lines with what ends each of them, written one behind the other
(`joinLines_endedLines`).  Lines that are written so fall apart again, but for one thing: a line that
ends with a carriage return and an empty one behind it that ends with a line feed are then one line
(`EndedLine.Joins`).  There is no such place among the lines of a text (`seams_endedLines`); where one
comes about, it lowers the numbers of the lines behind it by one (`Renumbered`).
-/

namespace VmToHack

open VmToHack.Text

/-! ## Lines with their ends -/

/-- A line and what ends it, which is nothing where the text ends. -/
structure EndedLine where
  text : List Char
  ending : List Char
  deriving DecidableEq, Repr

/-- Puts a character in front of the first of some lines. -/
def EndedLine.consFirst (c : Char) : List EndedLine → List EndedLine
  | [] => [⟨[c], []⟩]
  | line :: lines => { line with text := c :: line.text } :: lines

/-- The lines of a text, with the characters that end them. -/
def endedLines : List Char → List EndedLine
  | [] => []
  | '\r' :: '\n' :: cs => ⟨[], ['\r', '\n']⟩ :: endedLines cs
  | c :: cs =>
    if isLineBreak c then ⟨[], [c]⟩ :: endedLines cs else EndedLine.consFirst c (endedLines cs)

/-- Lines with their ends, as one text. -/
def joinLines (lines : List EndedLine) : List Char :=
  lines.flatMap fun line => line.text ++ line.ending

/-- What ends a line: one character, or a carriage return with a line feed. -/
def IsLineEnd (ending : List Char) : Prop :=
  ending = ['\r', '\n'] ∨ ∃ c, isLineBreak c = true ∧ ending = [c]

/-- Every line ends as a line does, and only the last one may lack an end. -/
inductive WellEnded : List EndedLine → Prop where
  | nil : WellEnded []
  | last {text : List Char} (htext : ∀ c ∈ text, isLineBreak c = false) : WellEnded [⟨text, []⟩]
  | cons {text ending : List Char} {lines : List EndedLine}
      (htext : ∀ c ∈ text, isLineBreak c = false) (hending : IsLineEnd ending)
      (h : WellEnded lines) : WellEnded (⟨text, ending⟩ :: lines)

theorem map_text_consFirst (c : Char) (lines : List EndedLine) :
    (EndedLine.consFirst c lines).map EndedLine.text =
      Text.consFirst c (lines.map EndedLine.text) := by
  cases lines <;> rfl

/-- Seen without their ends these are the lines of the text. -/
theorem map_text_endedLines (text : List Char) :
    (endedLines text).map EndedLine.text = splitLines text := by
  fun_induction endedLines text with
  | case1 => rfl
  | case2 cs ih => exact congrArg ([] :: ·) ih
  | case3 c cs hreturn hc ih =>
    rw [splitLines, if_pos hc, ← ih]
    · rfl
    · exact hreturn
  | case4 c cs hreturn hc ih =>
    rw [splitLines, if_neg hc, ← ih]
    · exact map_text_consFirst c _
    · exact hreturn

theorem joinLines_cons (line : EndedLine) (lines : List EndedLine) :
    joinLines (line :: lines) = line.text ++ (line.ending ++ joinLines lines) := by
  rw [joinLines, List.flatMap_cons, List.append_assoc]
  rfl

theorem joinLines_consFirst (c : Char) (lines : List EndedLine) :
    joinLines (EndedLine.consFirst c lines) = c :: joinLines lines := by
  cases lines <;> rfl

theorem joinLines_endedLines (text : List Char) : joinLines (endedLines text) = text := by
  fun_induction endedLines text with
  | case1 => rfl
  | case2 cs ih => exact congrArg ('\r' :: '\n' :: ·) ih
  | case3 c cs _ _ ih => exact congrArg (c :: ·) ih
  | case4 c cs _ _ ih => rw [joinLines_consFirst, ih]

theorem WellEnded.consFirst {c : Char} {lines : List EndedLine} (h : WellEnded lines)
    (hc : isLineBreak c = false) : WellEnded (EndedLine.consFirst c lines) := by
  cases h with
  | nil => exact .last (List.forall_mem_singleton.mpr hc)
  | last htext => exact .last (List.forall_mem_cons.mpr ⟨hc, htext⟩)
  | cons htext hending h => exact .cons (List.forall_mem_cons.mpr ⟨hc, htext⟩) hending h

theorem wellEnded_endedLines (text : List Char) : WellEnded (endedLines text) := by
  have hnil : ∀ c ∈ ([] : List Char), isLineBreak c = false := nofun
  fun_induction endedLines text with
  | case1 => exact .nil
  | case2 cs ih => exact .cons hnil (.inl rfl) ih
  | case3 c cs _ hc ih => exact .cons hnil (.inr ⟨c, hc, rfl⟩) ih
  | case4 c cs _ hc ih => exact ih.consFirst (Bool.eq_false_iff.mpr hc)

/-- Only an empty line that a line feed ends begins with a line feed. -/
theorem WellEnded.exists_feed {lines : List EndedLine} (h : WellEnded lines)
    (hhead : (joinLines lines).head? = some '\n') : ∃ rest, lines = ⟨[], ['\n']⟩ :: rest := by
  have hfeed : ∀ {xs : List Char}, ¬ ∀ c ∈ '\n' :: xs, isLineBreak c = false :=
    fun h => absurd (h _ List.mem_cons_self) (by decide)
  cases h with
  | nil => cases hhead
  | @last text htext =>
    rw [joinLines_cons] at hhead
    cases text with
    | nil => cases hhead
    | cons x xs =>
      cases hhead
      exact absurd htext hfeed
  | @cons text ending lines htext hending h =>
    rw [joinLines_cons] at hhead
    cases text with
    | nil =>
      obtain rfl | ⟨c, -, rfl⟩ := hending
      · cases hhead
      · cases hhead
        exact ⟨lines, rfl⟩
    | cons x xs =>
      cases hhead
      exact absurd htext hfeed

/-! ## Places where two ends of lines become one -/

/-- A line ends with a carriage return, and behind it stands an empty one that ends with a line
feed.  Written one behind the other these two are one line. -/
def EndedLine.Joins (line next : EndedLine) : Prop := line.ending = ['\r'] ∧ next = ⟨[], ['\n']⟩

instance (line next : EndedLine) : Decidable (line.Joins next) :=
  inferInstanceAs (Decidable (_ ∧ _))

/-- The number of such places in lines in a row. -/
def seams : List EndedLine → Nat
  | line :: next :: lines => (if line.Joins next then 1 else 0) + seams (next :: lines)
  | _ => 0

theorem seams_cons_of_apart {line : EndedLine} {lines : List EndedLine}
    (h : ∀ next ∈ lines.head?, ¬ line.Joins next) : seams (line :: lines) = seams lines := by
  cases lines with
  | nil => rfl
  | cons next lines => rw [seams, if_neg (h next rfl), Nat.zero_add]

/-- The lines of a text do not join. -/
theorem seams_endedLines (text : List Char) : seams (endedLines text) = 0 := by
  fun_induction endedLines text with
  | case1 => rfl
  | case2 cs ih =>
    rw [seams_cons_of_apart, ih]
    rintro next - ⟨⟨⟩, -⟩
  | case3 c cs hreturn hc ih =>
    rw [seams_cons_of_apart, ih]
    rintro next hnext ⟨⟨⟩, rfl⟩
    obtain ⟨lines, hlines⟩ := List.head?_eq_some_iff.mp hnext
    refine hreturn (joinLines lines) rfl ?_
    rw [← joinLines_endedLines cs, hlines]
    rfl
  | case4 c cs _ _ ih =>
    rw [← ih]
    rcases endedLines cs with _ | ⟨line, _ | ⟨next, lines⟩⟩ <;> rfl

theorem seams_take_le (lines : List EndedLine) (n : Nat) : seams (lines.take n) ≤ seams lines := by
  induction lines generalizing n with
  | nil => simp
  | cons line lines ih =>
    cases n with
    | zero => exact Nat.zero_le _
    | succ n =>
      rw [List.take_succ_cons]
      cases lines with
      | nil => simp
      | cons next lines =>
        cases n with
        | zero => exact Nat.zero_le _
        | succ n => exact Nat.add_le_add_left (ih (n + 1)) _

/-- A line with one number has another one where the lines are written one behind the other: each
seam in front of it lowers the number by one. -/
def Renumbered (lines : List EndedLine) (n n' : Nat) : Prop :=
  0 < n ∧ n = n' + seams (lines.take n)

section Renumbered

variable {line next : EndedLine} {lines : List EndedLine} {n n' : Nat}

theorem renumbered_one (line : EndedLine) (lines : List EndedLine) :
    Renumbered (line :: lines) 1 1 :=
  ⟨Nat.one_pos, rfl⟩

theorem Renumbered.behind_apart (h : Renumbered lines n n')
    (hapart : ∀ next ∈ lines.head?, ¬ line.Joins next) :
    Renumbered (line :: lines) (n + 1) (n' + 1) := by
  obtain ⟨hpos, hnumbers⟩ := h
  refine ⟨Nat.succ_pos n, ?_⟩
  rw [List.take_succ_cons, seams_cons_of_apart]
  · omega
  · intro next hnext
    rw [List.head?_take, if_neg hpos.ne'] at hnext
    exact hapart next hnext

theorem Renumbered.behind_joined (h : Renumbered (next :: lines) n n') (hjoins : line.Joins next) :
    Renumbered (line :: next :: lines) (n + 1) n' := by
  obtain ⟨hpos, hnumbers⟩ := h
  refine ⟨Nat.succ_pos n, ?_⟩
  obtain ⟨n, rfl⟩ := Nat.exists_eq_succ_of_ne_zero hpos.ne'
  rw [List.take_succ_cons] at hnumbers
  rw [List.take_succ_cons, List.take_succ_cons, seams, if_pos hjoins]
  omega

end Renumbered

/-! ## The lines of lines written one behind the other -/

theorem splitLines_lineEnd {ending rest : List Char} (h : IsLineEnd ending)
    (hapart : ending = ['\r'] → rest.head? ≠ some '\n') :
    splitLines (ending ++ rest) = [] :: splitLines rest := by
  obtain rfl | ⟨c, hc, rfl⟩ := h
  · rfl
  · rw [List.singleton_append, splitLines_cons, if_pos hc]
    rintro rfl
    exact hapart rfl

/-- Lines that do not join fall apart again. -/
theorem splitLines_of_apart {text ending : List Char} {lines : List EndedLine}
    (htext : ∀ c ∈ text, isLineBreak c = false) (hending : IsLineEnd ending)
    (hended : WellEnded lines)
    (hapart : ∀ next ∈ lines.head?, ¬ EndedLine.Joins ⟨text, ending⟩ next) :
    splitLines (joinLines (⟨text, ending⟩ :: lines)) = text :: splitLines (joinLines lines) := by
  rw [joinLines_cons]
  refine splitLines_append_unbroken htext (splitLines_lineEnd hending fun hreturn hhead => ?_)
  obtain ⟨rest, rfl⟩ := hended.exists_feed hhead
  exact hapart _ rfl ⟨hreturn, rfl⟩

/-- Of two lines that join the second one is lost. -/
theorem splitLines_of_joins {text ending : List Char} {next : EndedLine} {lines : List EndedLine}
    (htext : ∀ c ∈ text, isLineBreak c = false) (h : EndedLine.Joins ⟨text, ending⟩ next) :
    splitLines (joinLines (⟨text, ending⟩ :: next :: lines)) =
      text :: splitLines (joinLines lines) := by
  obtain ⟨rfl, rfl⟩ := h
  rw [joinLines_cons, joinLines_cons]
  exact splitLines_append_unbroken htext rfl

theorem numberedLines_of_splitLines {text line rest : List Char}
    (h : splitLines text = line :: splitLines rest) :
    numberedLines text = ⟨1, line⟩ :: (numberedLines rest).map (SourceLine.down 1) := by
  rw [numberedLines, h, numbered_cons, numbered_add]
  rfl

theorem numbered_one_cons (line : List Char) (lines : List (List Char)) :
    numbered 1 (line :: lines) = ⟨1, line⟩ :: (numbered 1 lines).map (SourceLine.down 1) := by
  rw [numbered_cons, numbered_add]

end VmToHack
