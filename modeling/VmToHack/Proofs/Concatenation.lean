import VmToHack.Proofs.Ledger
import VmToHack.Proofs.Lexemes
import VmToHack.Proofs.Reading
set_option autoImplicit false

/-!
# Concatenation: texts one behind the other

A text that ends where a line ends falls into the same lines whatever stands behind it, and what
stands behind it into the lines that it has alone; unless a carriage return at the end of the one
and a line feed at the start of the other become one end of a line (`splitLines_append`).

Every line is scanned and read for itself and only its number is put to what comes of it.  So the
lexemes of two texts in a row are those of the one and those of the other, which stand so many lines
further down (`scan_append`), and the same holds of commands and errors (`readProgram_append`).
-/

namespace VmToHack

open VmToHack.Grammar VmToHack.Text

/-! ## Lines of two texts -/

theorem splitLines_eq_nil_iff {text : List Char} : splitLines text = [] ↔ text = [] := by
  fun_cases splitLines text with
  | case1 => exact iff_of_true rfl rfl
  | case2 cs => exact iff_of_false (List.cons_ne_nil _ _) (List.cons_ne_nil _ _)
  | case3 c cs => exact iff_of_false (List.cons_ne_nil _ _) (List.cons_ne_nil _ _)
  | case4 c cs =>
    refine iff_of_false ?_ (List.cons_ne_nil _ _)
    cases splitLines cs <;> exact List.cons_ne_nil _ _

/-- A text that ends with an end of a line keeps its lines apart from those behind it, unless the
two texts meet inside one such end. -/
theorem splitLines_append {text text' : List Char}
    (hend : ∀ c ∈ text.getLast?, isLineBreak c = true)
    (hseam : text.getLast? = some '\r' → text'.head? ≠ some '\n') :
    splitLines (text ++ text') = splitLines text ++ splitLines text' := by
  have hlast : ∀ {a c : Char} {cs : List Char}, cs.getLast? = some c →
      (a :: cs).getLast? = some c := by
    intro a c cs hc
    rw [List.getLast?_cons, hc]
    rfl
  fun_induction splitLines text with
  | case1 => rfl
  | case2 cs ih =>
    have hcs := ih (fun c hc => hend c (hlast (hlast hc))) fun hc => hseam (hlast (hlast hc))
    rw [List.cons_append, List.cons_append, splitLines, hcs]
    rfl
  | case3 c cs hreturn hc ih =>
    have hcs := ih (fun x hx => hend x (hlast hx)) fun hx => hseam (hlast hx)
    have hapart : c = '\r' → (cs ++ text').head? ≠ some '\n' := by
      rintro rfl
      cases cs with
      | nil => exact hseam rfl
      | cons x cs =>
        rintro hx
        cases hx
        exact hreturn cs rfl rfl
    rw [List.cons_append, splitLines_cons hapart, if_pos hc, hcs]
    rfl
  | case4 c cs hreturn hc ih =>
    have hcs := ih (fun x hx => hend x (hlast hx)) fun hx => hseam (hlast hx)
    have hne : cs ≠ [] := by
      rintro rfl
      exact hc (hend c rfl)
    rw [List.cons_append, splitLines_cons_of_unbroken (Bool.eq_false_iff.mpr hc), hcs]
    obtain ⟨line, lines, hlines⟩ := List.exists_cons_of_ne_nil (mt splitLines_eq_nil_iff.mp hne)
    rw [hlines]
    rfl

/-! ## Lines further down -/

/-- A line that stands so many lines further down. -/
def SourceLine.down (count : Nat) (line : SourceLine) : SourceLine :=
  { line with number := line.number + count }

/-- A lexeme that stands so many lines further down. -/
def Lexeme.down (count : Nat) (x : Lexeme) : Lexeme := { x with line := x.line + count }

/-- An error that stands so many lines further down. -/
def Diagnostic.down (count : Nat) (d : Diagnostic) : Diagnostic := { d with line := d.line + count }

/-- What is said by lines that stand so many lines further down. -/
def Program.down (count : Nat) (p : Program) : Program :=
  { p with errors := p.errors.map (Diagnostic.down count) }

/-- What is said by lines in a row, of which the last ones say the second program. -/
def Program.append (p p' : Program) : Program :=
  ⟨p.commands ++ p'.commands, p.errors ++ p'.errors⟩

theorem numbered_append (first : Nat) (lines lines' : List (List Char)) :
    numbered first (lines ++ lines') =
      numbered first lines ++ numbered (first + lines.length) lines' := by
  simp only [numbered, List.zipIdx_append, List.map_append]

theorem numbered_add (first count : Nat) (lines : List (List Char)) :
    numbered (first + count) lines = (numbered first lines).map (SourceLine.down count) := by
  induction lines generalizing first with
  | nil => rfl
  | cons line lines ih =>
    rw [numbered_cons, numbered_cons, List.map_cons, ← ih, Nat.add_right_comm]
    rfl

theorem lexemes_down (count : Nat) (line : SourceLine) :
    (line.down count).lexemes = line.lexemes.map (Lexeme.down count) := by
  have hpieces : ∀ (begun : Bool) (ps : List Piece),
      Lexeme.ofPieces (line.number + count) begun ps =
        (Lexeme.ofPieces line.number begun ps).map (Lexeme.down count) := by
    intro begun ps
    induction ps generalizing begun with
    | nil => rfl
    | cons p ps ih =>
      rw [Lexeme.ofPieces, Lexeme.ofPieces, ih, ih]
      split <;> rfl
  exact hpieces false _

theorem readLines_down (count : Nat) (lines : List SourceLine) :
    readLines (lines.map (SourceLine.down count)) =
      (readLines lines).map (Program.down count) := by
  induction lines with
  | nil => rfl
  | cons line lines ih =>
    have hread : readLine (line.down count).text = readLine line.text := rfl
    rw [List.map_cons, readLines, readLines, hread, ih]
    cases readLine line.text with
    | error o => rfl
    | ok reading =>
      cases readLines lines with
      | error o => rfl
      | ok p => cases reading <;> rfl

/-- Lines in a row are read one part after the other. -/
theorem readLines_append (lines lines' : List SourceLine) :
    readLines (lines ++ lines') =
      (do
        let p ← readLines lines
        let p' ← readLines lines'
        return p.append p') := by
  induction lines with
  | nil =>
    rw [List.nil_append]
    cases readLines lines' <;> rfl
  | cons line lines ih =>
    rw [List.cons_append, readLines, readLines, ih]
    cases readLine line.text with
    | error o => rfl
    | ok reading =>
      cases readLines lines with
      | error o => rfl
      | ok p =>
        cases readLines lines' with
        | error o => rfl
        | ok p' => cases reading <;> rfl

/-! ## Texts in a row -/

section Texts

variable {text text' : List Char} (hend : text.getLast? = some '\n')

include hend

/-- Behind a line feed the lines of another text follow. -/
theorem numberedLines_append :
    numberedLines (text ++ text') = numberedLines text ++
      (numberedLines text').map (SourceLine.down (splitLines text).length) := by
  have hbreak : ∀ c ∈ text.getLast?, isLineBreak c = true := by
    rw [hend]
    rintro c ⟨⟩
    rfl
  have hlines : splitLines (text ++ text') = splitLines text ++ splitLines text' := by
    refine splitLines_append hbreak fun h => ?_
    rw [hend] at h
    cases h
  rw [numberedLines, hlines, numbered_append, numbered_add]
  rfl

theorem scan_append :
    scan (text ++ text') =
      scan text ++ (scan text').map (Lexeme.down (splitLines text).length) := by
  rw [scan_eq, numberedLines_append hend, List.flatMap_append, scan_eq, scan_eq, List.flatMap_map,
    List.map_flatMap]
  simp only [lexemes_down]

/-- A numeral that is not evaluated ends the reading of both texts, the first one in front. -/
theorem readProgram_append :
    readProgram (text ++ text') =
      (do
        let p ← readProgram text
        let p' ← readProgram text'
        return p.append (p'.down (splitLines text).length)) := by
  rw [readProgram_eq, numberedLines_append hend, readLines_append, readLines_down, readProgram_eq,
    readProgram_eq]
  cases readLines (numberedLines text) with
  | error o => rfl
  | ok p => cases readLines (numberedLines text') <;> rfl

end Texts

theorem Evaluable.exists_program {text : List Char} (h : Evaluable text) :
    ∃ p, readProgram text = .ok p := by
  rw [readProgram_eq, readLines_eq h.readable]
  exact ⟨_, rfl⟩

/-- A line that is read is a program of its own. -/
theorem readProgram_line {line : List Char} (hline : ∀ c ∈ line, isLineBreak c = false)
    {reading : Reading} (hread : readLine line = .ok reading) :
    readProgram (line ++ ['\n']) = .ok (Program.cons ⟨1, line⟩ reading ⟨[], []⟩) := by
  have hlines : splitLines (line ++ ['\n']) = [line] := splitLines_append_feed hline []
  rw [readProgram_eq, numberedLines, hlines, numbered_cons, numbered_nil]
  exact readLines_cons hread rfl

/-- What a line says in front of a program, further down. -/
theorem down_append_down (line : List Char) (reading : Reading) (p : Program) (count : Nat) :
    ((Program.cons ⟨1, line⟩ reading ⟨[], []⟩).append (p.down 1)).down count =
      Program.cons ⟨count + 1, line⟩ reading (p.down (count + 1)) := by
  have herrors : (p.errors.map (Diagnostic.down 1)).map (Diagnostic.down count) =
      p.errors.map (Diagnostic.down (count + 1)) := by
    rw [List.map_map]
    refine List.map_congr_left fun d _ => ?_
    rw [Nat.add_comm count]
    exact congrArg (fun line => (⟨line, d.error⟩ : Diagnostic)) (Nat.add_assoc ..)
  cases reading with
  | blank => exact congrArg (Program.mk p.commands) herrors
  | command c => exact congrArg (Program.mk (c :: p.commands)) herrors
  | error e =>
    have hfirst : Diagnostic.down count ⟨1, e⟩ = ⟨count + 1, e⟩ :=
      congrArg (fun line => (⟨line, e⟩ : Diagnostic)) (Nat.add_comm 1 count)
    exact congrArg (Program.mk p.commands) (congrArg₂ List.cons hfirst herrors)

/-- Whatever one line says, the texts around it are read as they are alone: the commands and errors
of the first text, those of the line, and those of the second text so many lines further down. -/
theorem errors_stay_on_their_line {text text' : List Char} (hend : text.getLast? = some '\n')
    (h : Evaluable text) (h' : Evaluable text') :
    ∃ p p', readProgram text = .ok p ∧ readProgram text' = .ok p' ∧
      readProgram (text ++ text') = .ok (p.append (p'.down (splitLines text).length)) ∧
      scan (text ++ text') = scan text ++ (scan text').map (Lexeme.down (splitLines text).length) ∧
      ∀ line reading, (∀ c ∈ line, isLineBreak c = false) → readLine line = .ok reading →
        readProgram (text ++ (line ++ '\n' :: text')) =
          .ok (p.append (Program.cons ⟨(splitLines text).length + 1, line⟩ reading
            (p'.down ((splitLines text).length + 1)))) := by
  obtain ⟨p, hp⟩ := h.exists_program
  obtain ⟨p', hp'⟩ := h'.exists_program
  refine ⟨p, p', hp, hp', ?_, scan_append hend, ?_⟩
  · rw [readProgram_append hend, hp, hp']
    rfl
  · intro line reading hline hread
    have hlines : splitLines (line ++ ['\n']) = [line] := splitLines_append_feed hline []
    have hbehind : readProgram (line ++ '\n' :: text') =
        .ok ((Program.cons ⟨1, line⟩ reading ⟨[], []⟩).append (p'.down 1)) := by
      rw [show line ++ '\n' :: text' = (line ++ ['\n']) ++ text' by simp,
        readProgram_append List.getLast?_concat, readProgram_line hline hread, hp', hlines]
      rfl
    rw [readProgram_append hend, hp, hbehind, ← down_append_down]
    rfl

/-- A line that breaks off behind a keyword, between two texts that have malformed lines as well. -/
theorem errors_stay_on_their_line_mixed :
    mixedText.getLast? = some '\n' ∧ Evaluable mixedText ∧ Evaluable "\x0bsub\npop".toList ∧
      ∃ p p' reading, readProgram mixedText = .ok p ∧
        readProgram "\x0bsub\npop".toList = .ok p' ∧ readLine "@ push".toList = .ok reading ∧
        readProgram (mixedText ++ ("@ push".toList ++ '\n' :: "\x0bsub\npop".toList)) =
          .ok (p.append (Program.cons ⟨6, "@ push".toList⟩ reading (p'.down 6))) := by
  have hend : mixedText.getLast? = some '\n' := by decide
  have h : Evaluable mixedText := evaluable_of_length_le (by decide)
  have h' : Evaluable "\x0bsub\npop".toList := evaluable_of_length_le (by decide)
  have hbreak : ∀ c ∈ "@ push".toList, isLineBreak c = false := by simp [isLineBreak]
  have hshort : ShortRuns "@ push".toList := shortRuns_of_length_le (by decide)
  obtain ⟨reading, hread⟩ := exists_readLine_eq_ok_iff.mpr fun _ => not_overlong_of_shortRuns hshort
  have hlength : (splitLines mixedText).length = 5 := by decide
  obtain ⟨p, p', hp, hp', -, -, hline⟩ := errors_stay_on_their_line hend h h'
  rw [hlength] at hline
  exact ⟨hend, h, h', p, p', reading, hp, hp', hread, hline _ reading hbreak hread⟩

end VmToHack
