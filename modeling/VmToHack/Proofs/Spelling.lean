import Mathlib.Data.Nat.Digits.Defs
import VmToHack.CommandLine.Listing
import VmToHack.Proofs.Ledger
import VmToHack.Proofs.Reading
set_option autoImplicit false

/-!
# Spelling: commands written out and read back

The text of a command spells a phrase, and the phrase spells the command again: parts that are
not there leave no blank behind, and a number is written without leading zeros, whatever the
numeral was from which it was read.  So commands that the language has (`Command.Spellable`) come
back as they were, one from each line (`readProgram_of_texts`).  What is read from a text has no
other commands, and therefore a listing of it lists itself.
-/

namespace VmToHack

open VmToHack.Grammar VmToHack.Text

/-! ## Spellable commands -/

/-- A number that an index or a count can be. -/
def IsIndex (n : Int) : Prop := 0 ≤ n ∧ n ≤ maxNumber

/-- A command of the language: its operator is one of the nine and its segment one of the
eight, its names are symbols, and its number is in range. -/
def Command.Spellable : Command → Prop
  | .arithmetic op => ∃ o : Operator, o.mnemonic = op
  | .push segment index => (∃ g : Segment, g.name = segment) ∧ IsIndex index
  | .pop segment index => (∃ g : Segment, g.name = segment) ∧ IsIndex index
  | .label name => SymbolWord name.toList
  | .goto name => SymbolWord name.toList
  | .ifGoto name => SymbolWord name.toList
  | .function name locals => SymbolWord name.toList ∧ IsIndex locals
  | .call name args => SymbolWord name.toList ∧ IsIndex args
  | .ret => True
  | .other _ => False

/-! ## Numbers -/

/-- The digits with which a number is written. -/
def numeralOf (n : Nat) : List Char := n.repr.toList

theorem numeral_numeralOf (n : Nat) : Numeral (numeralOf n) := by
  have hdigits : ∀ c ∈ numeralOf n, isDigit c = true := by
    intro c hc
    rw [numeralOf, Nat.toList_repr] at hc
    have hdigit := Nat.isDigit_of_mem_toDigits (by decide) (by decide) hc
    simpa [Char.isDigit, isDigit, Char.le_def] using hdigit
  cases htext : numeralOf n with
  | nil =>
    rw [numeralOf, Nat.toList_repr] at htext
    exact absurd htext Nat.toDigits_ne_nil
  | cons c cs =>
    rw [htext] at hdigits
    exact .mk (hdigits c List.mem_cons_self) fun x hx => hdigits x (List.mem_cons_of_mem _ hx)

theorem numeralValue_numeralOf (n : Nat) : numeralValue (numeralOf n) = n := by
  have hvalue : Nat.ofDigitChars 10 (Nat.toDigits 10 n) 0 = n :=
    Nat.ofDigitChars_toDigits (by decide) (by decide)
  rw [numeralOf, Nat.toList_repr]
  exact hvalue

/-- A number in range is written with five digits at most. -/
theorem length_numeralOf_le {n : Nat} (h : n ≤ maxNumber) :
    (numeralOf n).length ≤ numeralLimit := by
  have hpow : n < 10 ^ 5 := Nat.lt_of_le_of_lt h (by decide)
  have hlength : n.repr.length ≤ 5 := Nat.repr_length n 5 (by decide) hpow
  exact Nat.le_trans hlength (by decide)

theorem toList_toString_natCast (n : Nat) : (toString (n : Int)).toList = numeralOf n := rfl

/-- A number in range is a natural number. -/
theorem IsIndex.exists_nat {n : Int} (h : IsIndex n) : ∃ k : Nat, n = k ∧ k ≤ maxNumber := by
  obtain ⟨k, rfl⟩ := Int.eq_ofNat_of_zero_le h.1
  exact ⟨k, rfl, Int.ofNat_le.mp h.2⟩

/-! ## Texts -/

theorem SymbolWord.ne_empty {name : String} (h : SymbolWord name.toList) : name ≠ "" := by
  rintro rfl
  cases h

theorem Grammar.Numeral.ne_empty {text : String} (h : Numeral text.toList) : text ≠ "" := by
  rintro rfl
  cases h

/-- Parts that are all there, with spaces between them. -/
theorem toList_spaced {a b c : String} (ha : a ≠ "") (hb : b ≠ "") (hc : c ≠ "") :
    (" ".intercalate ([a, b, c].filter fun part => !part.isEmpty)).toList =
      a.toList ++ [' '] ++ b.toList ++ [' '] ++ c.toList := by
  simp [ha, hb, hc]

/-- A part that is missing at the end leaves no space behind. -/
theorem toList_spaced_empty {a b : String} (ha : a ≠ "") (hb : b ≠ "") :
    (" ".intercalate ([a, b, ""].filter fun part => !part.isEmpty)).toList =
      a.toList ++ [' '] ++ b.toList := by
  simp [ha, hb]

theorem name_ne_empty_of_direction (d : Direction) : d.name ≠ "" := by cases d <;> decide

theorem name_ne_empty_of_segment (g : Segment) : g.name ≠ "" := by cases g <;> decide

theorem name_ne_empty_of_labelVerb (v : LabelVerb) : v.name ≠ "" := by cases v <;> decide

theorem name_ne_empty_of_routineVerb (v : RoutineVerb) : v.name ≠ "" := by cases v <;> decide

theorem toString_ne_empty (n : Nat) : toString (n : Int) ≠ "" :=
  Numeral.ne_empty (numeral_numeralOf n)

namespace Grammar.Phrase

theorem inRange_of_numeral? {p : Phrase} {n : Nat} (hp : p.numeral? = some (numeralOf n))
    (hn : n ≤ maxNumber) : p.InRange ∧ ¬ p.Overlong := by
  constructor
  · intro digits hdigits
    rw [hp] at hdigits
    cases hdigits
    rwa [numeralValue_numeralOf]
  · rintro ⟨digits, hdigits, hlong⟩
    rw [hp] at hdigits
    cases hdigits
    exact Nat.not_lt_of_le (length_numeralOf_le hn) hlong

theorem inRange_of_no_numeral {p : Phrase} (hp : p.numeral? = none) : p.InRange ∧ ¬ p.Overlong := by
  constructor
  · intro digits hdigits
    rw [hp] at hdigits
    cases hdigits
  · rintro ⟨digits, hdigits, -⟩
    rw [hp] at hdigits
    cases hdigits

theorem spelled_move (d : Direction) (g : Segment) (n : Nat) :
    (Phrase.move d g (numeralOf n)).Spelled
      (" ".intercalate ([d.name, g.name, toString (n : Int)].filter fun part =>
        !part.isEmpty)).toList := by
  rw [toList_spaced (name_ne_empty_of_direction d) (name_ne_empty_of_segment g)
    (toString_ne_empty n), toList_toString_natCast]
  exact .move d g blanks_space blanks_space (numeral_numeralOf n)

theorem spelled_mark (v : LabelVerb) {name : String} (h : SymbolWord name.toList) :
    (Phrase.mark v name.toList).Spelled
      (" ".intercalate ([v.name, name, ""].filter fun part => !part.isEmpty)).toList := by
  rw [toList_spaced_empty (name_ne_empty_of_labelVerb v) (SymbolWord.ne_empty h)]
  exact .mark v blanks_space h

theorem spelled_routine (v : RoutineVerb) {name : String} (h : SymbolWord name.toList) (n : Nat) :
    (Phrase.routine v name.toList (numeralOf n)).Spelled
      (" ".intercalate ([v.name, name, toString (n : Int)].filter fun part =>
        !part.isEmpty)).toList := by
  rw [toList_spaced (name_ne_empty_of_routineVerb v) (SymbolWord.ne_empty h) (toString_ne_empty n),
    toList_toString_natCast]
  exact .routine v blanks_space h blanks_space (List.cons_ne_nil _ _) (numeral_numeralOf n)

end Grammar.Phrase

/-- The text of a spellable command is a phrase that spells the command. -/
theorem Command.Spellable.exists_phrase {c : Command} (h : c.Spellable) :
    ∃ p : Phrase, p.Spelled c.text.toList ∧ (p.InRange ∧ ¬ p.Overlong) ∧ p.command = c := by
  cases c with
  | arithmetic op =>
    obtain ⟨o, rfl⟩ := h
    exact ⟨.operator o, .operator o, Phrase.inRange_of_no_numeral rfl, rfl⟩
  | push segment index =>
    obtain ⟨⟨g, rfl⟩, hindex⟩ := h
    obtain ⟨n, rfl, hn⟩ := hindex.exists_nat
    refine ⟨.move .push g (numeralOf n), Phrase.spelled_move .push g n,
      Phrase.inRange_of_numeral? rfl hn, ?_⟩
    rw [Phrase.command, numeralValue_numeralOf]
  | pop segment index =>
    obtain ⟨⟨g, rfl⟩, hindex⟩ := h
    obtain ⟨n, rfl, hn⟩ := hindex.exists_nat
    refine ⟨.move .pop g (numeralOf n), Phrase.spelled_move .pop g n,
      Phrase.inRange_of_numeral? rfl hn, ?_⟩
    rw [Phrase.command, numeralValue_numeralOf]
  | label name =>
    refine ⟨.mark .label name.toList, Phrase.spelled_mark .label h,
      Phrase.inRange_of_no_numeral rfl, ?_⟩
    rw [Phrase.command, String.ofList_toList]
  | goto name =>
    refine ⟨.mark .goto name.toList, Phrase.spelled_mark .goto h,
      Phrase.inRange_of_no_numeral rfl, ?_⟩
    rw [Phrase.command, String.ofList_toList]
  | ifGoto name =>
    refine ⟨.mark .ifGoto name.toList, Phrase.spelled_mark .ifGoto h,
      Phrase.inRange_of_no_numeral rfl, ?_⟩
    rw [Phrase.command, String.ofList_toList]
  | function name locals =>
    obtain ⟨hname, hlocals⟩ := h
    obtain ⟨n, rfl, hn⟩ := hlocals.exists_nat
    refine ⟨.routine .function name.toList (numeralOf n), Phrase.spelled_routine .function hname n,
      Phrase.inRange_of_numeral? rfl hn, ?_⟩
    rw [Phrase.command, numeralValue_numeralOf, String.ofList_toList]
  | call name args =>
    obtain ⟨hname, hargs⟩ := h
    obtain ⟨n, rfl, hn⟩ := hargs.exists_nat
    refine ⟨.routine .call name.toList (numeralOf n), Phrase.spelled_routine .call hname n,
      Phrase.inRange_of_numeral? rfl hn, ?_⟩
    rw [Phrase.command, numeralValue_numeralOf, String.ofList_toList]
  | ret => exact ⟨.ret, .ret, Phrase.inRange_of_no_numeral rfl, rfl⟩
  | other name => exact absurd h id

/-- What a phrase spells is spellable, if its number is in range. -/
theorem Grammar.Phrase.spellable_command {p : Phrase} {text : List Char} (h : p.Spelled text)
    (hrange : p.InRange) : p.command.Spellable := by
  have hindex : ∀ digits, p.numeral? = some digits → IsIndex (numeralValue digits) :=
    fun digits hdigits => ⟨Int.natCast_nonneg _, Int.ofNat_le.mpr (hrange digits hdigits)⟩
  have hsymbol : ∀ name : List Char, SymbolWord name → SymbolWord (String.ofList name).toList := by
    intro name hname
    rwa [String.toList_ofList]
  cases h with
  | operator o => exact ⟨o, rfl⟩
  | @move d g _ _ digits =>
    cases d with
    | push => exact ⟨⟨g, rfl⟩, hindex digits rfl⟩
    | pop => exact ⟨⟨g, rfl⟩, hindex digits rfl⟩
  | @mark v _ name _ hname => cases v <;> exact hsymbol name hname
  | @routine v _ name _ digits _ hname =>
    cases v with
    | function => exact ⟨hsymbol name hname, hindex digits rfl⟩
    | call => exact ⟨hsymbol name hname, hindex digits rfl⟩
  | ret => trivial

/-! ## Lines -/

/-- The letters and digits of symbols lie above the first line breaks and below the others. -/
theorem not_isLineBreak_of_isSymbolChar {c : Char} (h : isSymbolChar c = true) :
    isLineBreak c = false := by
  obtain ⟨hlow, hhigh⟩ := toNat_bounds_of_isSymbolChar h
  rw [Bool.eq_false_iff]
  intro hbreak
  simp only [isLineBreak, Bool.or_eq_true, Bool.and_eq_true, decide_eq_true_eq, beq_iff_eq]
    at hbreak
  omega

theorem Grammar.SymbolWord.not_isLineBreak {name : List Char} (h : SymbolWord name) :
    ∀ c ∈ name, isLineBreak c = false := by
  obtain ⟨hc, hcs⟩ := h
  refine List.forall_mem_cons.mpr ⟨?_, fun x hx => not_isLineBreak_of_isSymbolChar (hcs x hx)⟩
  exact not_isLineBreak_of_isSymbolChar (by rw [isSymbolChar, hc, Bool.true_or])

/-- A phrase is written on one line. -/
theorem Grammar.Phrase.Spelled.not_isLineBreak {p : Phrase} {text : List Char}
    (h : p.Spelled text) : ∀ c ∈ text, isLineBreak c = false := by
  have hgap : ∀ gap, Blanks gap → ∀ c ∈ gap, isLineBreak c = false := by
    intro gap hgap c hc
    rcases isBlank_iff.mp (hgap c hc) with rfl | rfl <;> rfl
  have hname : ∀ name, SymbolWord name → ∀ c ∈ name, isLineBreak c = false :=
    fun _ => Grammar.SymbolWord.not_isLineBreak
  have hnumeral : ∀ digits, Numeral digits → ∀ c ∈ digits, isLineBreak c = false := by
    intro digits hdigits c hc
    refine not_isLineBreak_of_isSymbolChar ?_
    cases hdigits with
    | mk hfirst hrest =>
      rcases List.mem_cons.mp hc with rfl | hc
      · rw [isSymbolChar, hfirst, Bool.or_true]
      · rw [isSymbolChar, hrest c hc, Bool.or_true]
  have hkeyword : ∀ t ∈ Terminal.keywords, ∀ w ∈ t.keyword?,
      w.toList.all (fun c => isLineBreak c == false) = true := by
    decide +kernel
  have hword : ∀ {t : Terminal} {w : String}, t.keyword? = some w → ∀ c ∈ w.toList,
      isLineBreak c = false := by
    intro t w hw c hc
    exact beq_iff_eq.mp (List.all_eq_true.mp (hkeyword t (Terminal.mem_keywords hw) w hw) c hc)
  cases h with
  | operator o => exact hword (t := .operator o) rfl
  | move d g h₁ h₂ h₃ =>
    have hd := hword (t := .move d) rfl
    have hg := hword (t := .segment g) rfl
    simp only [List.forall_mem_append]
    exact ⟨⟨⟨⟨hd, hgap _ h₁⟩, hg⟩, hgap _ h₂⟩, hnumeral _ h₃⟩
  | mark v h₁ h₂ =>
    have hv := hword (t := .mark v) rfl
    simp only [List.forall_mem_append]
    exact ⟨⟨hv, hgap _ h₁⟩, hname _ h₂⟩
  | routine v h₁ h₂ h₃ _ h₄ =>
    have hv := hword (t := .routine v) rfl
    simp only [List.forall_mem_append]
    exact ⟨⟨⟨⟨hv, hgap _ h₁⟩, hname _ h₂⟩, hgap _ h₃⟩, hnumeral _ h₄⟩
  | ret => exact hword (t := .ret) rfl

theorem Grammar.Phrase.Spelled.ne_nil {p : Phrase} {text : List Char} (h : p.Spelled text) :
    text ≠ [] := by
  cases h with
  | operator o => cases o <;> decide
  | move d g => cases d <;> simp [Direction.name]
  | mark v => cases v <;> simp [LabelVerb.name]
  | routine v => cases v <;> simp [RoutineVerb.name]
  | ret => decide

/-- Lines with line feeds between them fall apart into these lines, if the last is not empty. -/
theorem splitLines_intercalate {lines : List (List Char)}
    (h : ∀ line ∈ lines, line ≠ [] ∧ ∀ c ∈ line, isLineBreak c = false) :
    splitLines (['\n'].intercalate lines) = lines := by
  induction lines with
  | nil => rfl
  | cons line lines ih =>
    obtain ⟨⟨hne, hline⟩, hlines⟩ := List.forall_mem_cons.mp h
    cases lines with
    | nil =>
      rw [List.intercalate_singleton]
      exact splitLines_of_unbroken hne hline
    | cons next lines =>
      rw [List.intercalate_cons_cons, List.append_assoc, List.singleton_append,
        splitLines_append_feed hline, ih hlines]

/-! ## Reading back -/

/-- The texts of commands, with line feeds between them. -/
def joinTexts (cs : List Command) : String := "\n".intercalate (cs.map Command.text)

/-- What a program prints on its output stream: a line feed ends each line. -/
def CommandLine.Transcript.printed (t : CommandLine.Transcript) : List Char :=
  endLines (t.out.map String.toList)

theorem Command.Spellable.readLine_text {c : Command} (h : c.Spellable) :
    readLine c.text.toList = .ok (.command c) := by
  obtain ⟨p, hp, ⟨hrange, hlong⟩, hcommand⟩ := h.exists_phrase
  refine readLine_eq_command_iff.mpr ⟨p, ?_, hlong, hrange, hcommand⟩
  exact ⟨[], c.text.toList, [], by simp, blanks_nil, hp, .blanks blanks_nil⟩

/-- A text is on one line, which is not empty. -/
theorem Command.Spellable.line {c : Command} (h : c.Spellable) :
    c.text.toList ≠ [] ∧ ∀ x ∈ c.text.toList, isLineBreak x = false := by
  obtain ⟨p, hp, -⟩ := h.exists_phrase
  exact ⟨hp.ne_nil, hp.not_isLineBreak⟩

theorem readLines_of_texts {cs : List Command} (h : ∀ c ∈ cs, c.Spellable) (first : Nat) :
    readLines (numbered first (cs.map fun c => c.text.toList)) = .ok ⟨cs, []⟩ := by
  induction cs generalizing first with
  | nil => rfl
  | cons c cs ih =>
    obtain ⟨hc, hcs⟩ := List.forall_mem_cons.mp h
    have hread : readLine (SourceLine.mk first c.text.toList).text = .ok (.command c) :=
      hc.readLine_text
    rw [List.map_cons, numbered_cons]
    exact readLines_cons hread (ih hcs (first + 1))

/-- Where the lines of a text are the texts of commands, these commands are read. -/
theorem readProgram_of_texts {cs : List Command} (h : ∀ c ∈ cs, c.Spellable) {text : List Char}
    (hlines : splitLines text = cs.map fun c => c.text.toList) :
    readProgram text = .ok ⟨cs, []⟩ := by
  rw [readProgram_eq, numberedLines, hlines]
  exact readLines_of_texts h 1

theorem readProgram_joinTexts {cs : List Command} (h : ∀ c ∈ cs, c.Spellable) :
    readProgram (joinTexts cs).toList = .ok ⟨cs, []⟩ := by
  refine readProgram_of_texts h ?_
  rw [joinTexts, String.toList_intercalate, List.map_map]
  refine splitLines_intercalate ?_
  intro line hline
  obtain ⟨c, hc, rfl⟩ := List.mem_map.mp hline
  exact (h c hc).line

/-- What a line says is spellable. -/
theorem spellable_of_command? {line : SourceLine} {c : Command} (h : line.command? = some c) :
    c.Spellable := by
  obtain ⟨p, ⟨_, _, _, -, -, hspelled, -⟩, -, hrange, rfl⟩ :=
    readLine_eq_command_iff.mp (command?_eq_some_iff.mp h)
  exact p.spellable_command hspelled hrange

/-- What is read from a text is spellable. -/
theorem spellable_of_readProgram {text : List Char} {p : Program} (h : Evaluable text)
    (hp : readProgram text = .ok p) : ∀ c ∈ p.commands, c.Spellable := by
  rw [readProgram_eq, readLines_eq h.readable] at hp
  cases hp
  intro c hc
  obtain ⟨line, -, hline⟩ := List.mem_filterMap.mp hc
  exact spellable_of_command? hline

/-- A listing of commands alone lists the same commands again. -/
theorem listText_printed {cs : List Command} (h : ∀ c ∈ cs, c.Spellable)
    {t : CommandLine.Transcript} (ht : t.out = cs.map Command.text) :
    CommandLine.listText false t.printed = { out := t.out, ending := .exit 0 } := by
  have hlines : splitLines t.printed = cs.map fun c => c.text.toList := by
    rw [CommandLine.Transcript.printed, ht, List.map_map]
    refine splitLines_endLines ?_
    intro line hline
    obtain ⟨c, hc, rfl⟩ := List.mem_map.mp hline
    exact (h c hc).line.2
  rw [CommandLine.listText, readProgram_of_texts h hlines, ht]
  rfl

/-- Commands that are written out are read back as they were, and nothing else is read.  So what
is read from a text is read again from its texts, and the listing of a text lists itself. -/
theorem listing_reads_back {cs : List Command} {text : List Char} (hcs : ∀ c ∈ cs, c.Spellable)
    (h : Evaluable text) :
    readProgram (joinTexts cs).toList = .ok ⟨cs, []⟩ ∧
    ∃ p, readProgram text = .ok p ∧
      readProgram (joinTexts p.commands).toList = .ok ⟨p.commands, []⟩ ∧
      (CommandLine.listText false text).out = p.commands.map Command.text ∧
      CommandLine.listText false (CommandLine.listText false text).printed =
        { out := (CommandLine.listText false text).out, ending := .exit 0 } := by
  refine ⟨readProgram_joinTexts hcs, ?_⟩
  obtain ⟨p, hp⟩ : ∃ p, readProgram text = .ok p :=
    ⟨_, (readProgram_eq text).trans (readLines_eq h.readable)⟩
  have hspellable := spellable_of_readProgram h hp
  have hout : (CommandLine.listText false text).out = p.commands.map Command.text := by
    rw [CommandLine.listText, hp]
    rfl
  exact ⟨p, hp, readProgram_joinTexts hspellable, hout, listText_printed hspellable hout⟩

/-- Commands with names like keywords, names of signs alone, and the greatest number. -/
def oddCommands : List Command :=
  [.function ".:" 0, .label "add", .ifGoto "pushconstant7", .push "constant" 32767,
    .arithmetic "not", .call "_.call" 12, .pop "static" 3, .ret]

theorem listing_reads_back_odd :
    (∀ c ∈ oddCommands, c.Spellable) ∧ Evaluable mixedText ∧
    readProgram (joinTexts oddCommands).toList = .ok ⟨oddCommands, []⟩ ∧
    ∃ p, readProgram mixedText = .ok p ∧
      readProgram (joinTexts p.commands).toList = .ok ⟨p.commands, []⟩ ∧
      (CommandLine.listText false mixedText).out = p.commands.map Command.text ∧
      CommandLine.listText false (CommandLine.listText false mixedText).printed =
        { out := (CommandLine.listText false mixedText).out, ending := .exit 0 } := by
  have hsymbol : ∀ name ∈ [".:", "add", "pushconstant7", "_.call"], SymbolWord name.toList := by
    simp only [List.forall_mem_cons]
    refine ⟨.mk rfl ?_, .mk rfl ?_, .mk rfl ?_, .mk rfl ?_,
      fun name hname => absurd hname List.not_mem_nil⟩ <;>
    exact List.all_eq_true.mp rfl
  have hcs : ∀ c ∈ oddCommands, c.Spellable := by
    simp only [oddCommands, List.forall_mem_cons]
    refine ⟨⟨hsymbol _ (by decide), by decide, by decide⟩, hsymbol _ (by decide),
      hsymbol _ (by decide), ⟨⟨.constant, rfl⟩, by decide, by decide⟩, ⟨.not, rfl⟩,
      ⟨hsymbol _ (by decide), by decide, by decide⟩, ⟨⟨.static, rfl⟩, by decide, by decide⟩,
      trivial, fun c hc => absurd hc List.not_mem_nil⟩
  have h : Evaluable mixedText := evaluable_of_length_le (by decide)
  exact ⟨hcs, h, listing_reads_back hcs h⟩

end VmToHack
