import VmToHack.Proofs.Ledger
set_option autoImplicit false

/-!
# Overlong lines: what ends a pass

A pass over a source is meant to go on behind every bad line: a line that is malformed, or has
too large an index, becomes an issue, and the commands of the other lines are written
(`TakesAll`).  One kind of line is not like that.  A command whose numeral has more digits than
are ever evaluated ends the pass in front of it, and with it goes what stands behind it
(`translateSource_of_not_evaluable`).  `translation_takes_all_iff` says that there is no other
exception.
-/

namespace VmToHack

open VmToHack.Grammar VmToHack.Text

/-! ## What is expected of a pass -/

/-- The commands on lines: one for each line with a phrase in range, however long its numeral
is. -/
inductive CommandsOn : List (List Char) → List Command → Prop where
  | nil : CommandsOn [] []
  | command {line : List Char} {lines : List (List Char)} {p : Phrase} {cs : List Command}
      (hp : p.OnLine line) (hrange : p.InRange) (h : CommandsOn lines cs) :
      CommandsOn (line :: lines) (p.command :: cs)
  | skip {line : List Char} {lines : List (List Char)} {cs : List Command}
      (hnone : ∀ p : Phrase, p.OnLine line → ¬ p.InRange) (h : CommandsOn lines cs) :
      CommandsOn (line :: lines) cs

/-- A line that is malformed or has too large an index, however long. -/
def IsBad (line : List Char) : Prop :=
  ¬ Trailer line ∧ ∀ p : Phrase, p.OnLine line → ¬ p.InRange

/-- A pass that takes every line: bad lines become one issue each, and the commands on the
other lines are written. -/
structure TakesAll (file : String) (text : List Char) (w : Writer) (tally : Tally) : Prop where
  written : ∃ commands, CommandsOn (splitLines text) commands ∧
    w = ((Writer.ofFile file).writeAll commands).1
  reported : ∀ line ∈ numberedLines text, IsBad line.text →
    ∃ i ∈ tally.issues, i.line = line.number ∧ i.kind = .parse ∧
      ∀ j ∈ tally.issues, j.line = line.number → j = i

/-! ## Lines that are read -/

/-- On lines that are read, the commands are those that the lines say. -/
theorem commandsOn_of_readable {lines : List SourceLine}
    (h : ∀ line ∈ lines, ∃ r, readLine line.text = .ok r) :
    CommandsOn (lines.map SourceLine.text) (lines.filterMap SourceLine.command?) := by
  induction lines with
  | nil => exact .nil
  | cons line lines ih =>
    obtain ⟨hline, hlines⟩ := List.forall_mem_cons.mp h
    rw [exists_readLine_eq_ok_iff] at hline
    cases hcommand : line.command? with
    | some c =>
      rw [List.filterMap_cons_some hcommand]
      obtain ⟨p, hp, -, hrange, rfl⟩ :=
        readLine_eq_command_iff.mp (command?_eq_some_iff.mp hcommand)
      exact .command hp hrange (ih hlines)
    | none =>
      rw [List.filterMap_cons_none hcommand]
      refine .skip (fun p hp hrange => ?_) (ih hlines)
      rw [command?_eq_some_iff.mpr (readLine_of_inRange hp (hline p hp) hrange)] at hcommand
      cases hcommand

/-- A bad line that is read says an error. -/
theorem exists_error_of_isBad {line : List Char} (h : IsBad line)
    (hread : ∃ r, readLine line = .ok r) : ∃ e, readLine line = .ok (.error e) := by
  obtain ⟨htrailer, hrange⟩ := h
  obtain ⟨r, hr⟩ := hread
  cases r with
  | blank => exact absurd (readLine_eq_blank_iff.mp hr) htrailer
  | command c =>
    obtain ⟨p, hp, -, hin, -⟩ := readLine_eq_command_iff.mp hr
    exact absurd hin (hrange p hp)
  | error e => exact ⟨e, hr⟩

/-- The issue of a line that says an error. -/
theorem issue_of_error {line : SourceLine} {e : LineError}
    (h : readLine line.text = .ok (.error e)) (n : Naming) (file : String) :
    LedgerEntry.issue? file ⟨line, line.outcome n⟩ = some (Issue.ofLineError file line e) := by
  rw [SourceLine.outcome, h]
  rfl

/-- Where every numeral is evaluated, every line is taken. -/
theorem takesAll_of_evaluable {text : List Char} (h : Evaluable text) (file : String) :
    ∃ w tally, translateSource text file {} = (w, .ok tally) ∧ TakesAll file text w tally := by
  refine ⟨_, _, translateSource_of_evaluable h file, ⟨_, ?commands, rfl⟩, ?reported⟩
  case commands =>
    have hcommands := commandsOn_of_readable h.readable
    rwa [numberedLines, map_text_numbered, ← numberedLines] at hcommands
  case reported =>
    intro line hline hbad
    obtain ⟨e, he, rfl⟩ := exists_entry_of_mem hline
    obtain ⟨f, hf⟩ := exists_error_of_isBad hbad (h.readable _ hline)
    obtain ⟨n, houtcome⟩ := exists_outcome_of_mem_ledger he
    have hissue : e.issue? file = some (Issue.ofLineError file e.line f) := by
      rw [← issue_of_error hf n file, ← houtcome]
    obtain ⟨hmem, hnumber⟩ := (mem_issues_iff he _).mpr hissue
    refine ⟨_, hmem, hnumber, rfl, fun j hj hjnumber => ?_⟩
    rw [(mem_issues_iff he j).mp ⟨hj, hjnumber⟩] at hissue
    exact Option.some.inj hissue

/-! ## Where a pass ends -/

/-- The first line that breaks a rule. -/
theorem exists_first_of_not_forall {α : Type} {P : α → Prop} {xs : List α}
    (h : ¬ ∀ x ∈ xs, P x) :
    ∃ before x after, xs = before ++ x :: after ∧ (∀ y ∈ before, P y) ∧ ¬ P x := by
  induction xs with
  | nil => exact absurd (fun x hx => absurd hx List.not_mem_nil) h
  | cons x xs ih =>
    by_cases hx : P x
    · have hxs : ¬ ∀ y ∈ xs, P y := fun hall => h (List.forall_mem_cons.mpr ⟨hx, hall⟩)
      obtain ⟨before, y, after, rfl, hbefore, hy⟩ := ih hxs
      exact ⟨x :: before, y, after, rfl, List.forall_mem_cons.mpr ⟨hx, hbefore⟩, hy⟩
    · exact ⟨[], x, xs, rfl, fun y hy => absurd hy List.not_mem_nil, hx⟩

/-- A pass that ends at an overlong numeral: the lines before it are written, and nothing of the
lines behind it. -/
def EndsAtOverlong (file : String) (text : List Char) : Prop :=
  ∃ before line after commands, ∃ p : Phrase, ∃ digits,
    splitLines text = before ++ line :: after ∧
    (∀ l ∈ before, ∀ q : Phrase, q.OnLine l → ¬ q.Overlong) ∧
    p.OnLine line ∧ p.numeral? = some digits ∧ numeralLimit < digits.length ∧
    CommandsOn before commands ∧
    translateSource text file {} =
      (((Writer.ofFile file).writeAll commands).1,
        .error (.overlong ⟨p.command.kind, digits.length⟩))

theorem endsAtOverlong_of_not_evaluable {text : List Char} (h : ¬ Evaluable text) (file : String) :
    EndsAtOverlong file text := by
  have hlines : ¬ ∀ line ∈ numberedLines text, ∃ r, readLine line.text = .ok r := by
    intro hall
    apply h
    rw [Evaluable, ← map_text_numbered 1 (splitLines text)]
    intro cs hcs
    obtain ⟨line, hline, rfl⟩ := List.mem_map.mp hcs
    exact exists_readLine_eq_ok_iff.mp (hall line hline)
  obtain ⟨before, line, after, hsplit, hbefore, hline⟩ := exists_first_of_not_forall hlines
  rw [exists_readLine_eq_ok_iff] at hline
  simp only [not_forall, not_not] at hline
  obtain ⟨p, hp, digits, hdigits, hlong⟩ := hline
  refine ⟨before.map SourceLine.text, line.text, after.map SourceLine.text, _, p, digits, ?_, ?_,
    hp, hdigits, hlong, commandsOn_of_readable hbefore, ?_⟩
  · rw [← map_text_numbered 1 (splitLines text)]
    exact (congrArg (List.map SourceLine.text) hsplit).trans (by simp)
  · intro cs hcs
    obtain ⟨l, hl, rfl⟩ := List.mem_map.mp hcs
    exact exists_readLine_eq_ok_iff.mp (hbefore l hl)
  · rw [translateSource_eq, hsplit]
    refine @translateLines_append file _ #[] before (line :: after) _ (.error (.overlong _))
      hbefore ?_
    rw [translateLines, readLine_of_overlong hp hdigits hlong]
    rfl

/-- A pass takes every line exactly if no numeral in a command is overlong; otherwise it ends at
the first that is. -/
theorem translation_takes_all_iff (file : String) (text : List Char) :
    ((∃ w tally, translateSource text file {} = (w, .ok tally) ∧ TakesAll file text w tally) ↔
      Evaluable text) ∧
    (¬ Evaluable text → EndsAtOverlong file text) := by
  refine ⟨⟨?_, fun h => takesAll_of_evaluable h file⟩,
    fun h => endsAtOverlong_of_not_evaluable h file⟩
  rintro ⟨w, tally, hresult, -⟩
  by_contra h
  obtain ⟨_, _, _, _, _, _, -, -, -, -, -, -, herror⟩ := endsAtOverlong_of_not_evaluable h file
  rw [hresult] at herror
  cases herror

/-- A push of a constant with one digit more than is evaluated. -/
def overlongPush : List Char :=
  "push".toList ++ [' '] ++ "constant".toList ++ [' '] ++ List.replicate (numeralLimit + 1) '1'

/-- The line with that push, and a good line behind it. -/
def overlongText : List Char := overlongPush ++ '\n' :: "push constant 7\n".toList

theorem onLine_overlongPush :
    (Phrase.move .push .constant (List.replicate (numeralLimit + 1) '1')).OnLine overlongPush := by
  have hdigits : Numeral (List.replicate (numeralLimit + 1) '1') := by
    refine @Run.mk isDigit isDigit '1' (List.replicate numeralLimit '1') rfl fun c hc => ?_
    rw [List.eq_of_mem_replicate hc]
    rfl
  exact ⟨[], overlongPush, [], by simp, blanks_nil,
    .move .push .constant blanks_space blanks_space hdigits, .blanks blanks_nil⟩

theorem overlongText_not_evaluable : ¬ Evaluable overlongText := by
  intro h
  have hbreak : ∀ c ∈ overlongPush, isLineBreak c = false := by
    have hwords : ("push".toList ++ [' '] ++ "constant".toList ++ [' ']).all
        (fun c => !isLineBreak c) = true := by
      decide
    intro c hc
    rcases List.mem_append.mp hc with hc | hc
    · simpa using List.all_eq_true.mp hwords c hc
    · rw [List.eq_of_mem_replicate hc]
      rfl
  have hline : overlongPush ∈ splitLines overlongText := by
    rw [overlongText, splitLines_append_feed hbreak]
    exact List.mem_cons_self
  refine h _ hline _ onLine_overlongPush ⟨_, rfl, ?_⟩
  rw [List.length_replicate]
  exact Nat.lt_succ_self _

/-- The overlong push becomes no issue, and the command behind it is not written. -/
theorem overlong_push_ends_translation :
    ¬ ∃ w tally, translateSource overlongText "Test.vm" {} = (w, .ok tally) ∧
      TakesAll "Test.vm" overlongText w tally := by
  rintro ⟨w, tally, hresult, -⟩
  obtain ⟨_, _, _, _, _, _, -, -, -, -, -, -, herror⟩ :=
    endsAtOverlong_of_not_evaluable overlongText_not_evaluable "Test.vm"
  rw [hresult] at herror
  cases herror

end VmToHack
