import VmToHack.Proofs.Columns
import VmToHack.Proofs.Spelling
set_option autoImplicit false

/-!
# Diagnostics: whether they point at what they quote

An error of a line says where it shows and quotes what it is about.  Place and words are made
apart from each other: the place of a reading that is stuck is the character that it cannot pass,
while the words quote the next word, whatever white space there is in between; and the place of an
index is looked up in the whole line, comment included, in the form that the words give it.

`diagnostic_points_iff` says exactly when the two agree, and `diagnostics_point_elsewhere` shows the
three ways in which they do not.
-/

namespace VmToHack

open VmToHack.Grammar VmToHack.Text

/-! ## Pointing -/

/-- The part of the line that the words of a fault quote. -/
def LineFault.quoted? : LineFault → Option (List Char)
  | .unfinished => none
  | .unexpectedToken _ word _ => some word
  | .unexpectedInput rest => some ((firstWord? rest).getD rest)
  | .outOfRange _ value => some (numeralOf value)

/-- How the words of a fault show what they quote: between marks, a number as it is. -/
def LineFault.shown (text : List Char) : LineFault → String
  | .outOfRange _ _ => String.ofList text
  | _ => String.ofList (quote text)

theorem message_of_quoted? {f : LineFault} {text : List Char} (h : f.quoted? = some text) :
    ∃ before after, f.message = before ++ f.shown text ++ after := by
  cases f with
  | unfinished => cases h
  | unexpectedToken t word expected =>
    cases h
    refine ⟨"unexpected " ++ t.name ++ " ",
      ", expected " ++ ", ".intercalate (expectedNames expected), ?_⟩
    unfold LineFault.message LineFault.shown
    simp only [String.append_assoc]
  | unexpectedInput rest =>
    cases h
    exact ⟨"unexpected input ", "", String.append_empty.symm⟩
  | outOfRange kind value =>
    cases h
    refine ⟨kind.name ++ " argument ", " out of range (max " ++ toString maxNumber ++ ")", ?_⟩
    have hshown : String.ofList (numeralOf value) = toString value := String.ofList_toList
    unfold LineFault.message LineFault.shown
    rw [hshown]
    generalize toString maxNumber = limit
    simp only [String.append_assoc]

/-- What a fault is about begins where a reading has come to: a text that may not come next there,
or the index of the command. -/
def LineFault.BeginsAt (s : State) (rest : List Char) : LineFault → Prop
  | .unfinished => False
  | .unexpectedToken t word _ => skipBlanks rest = rest ∧ ¬ s.Admits rest ∧
      ∃ after, classify? rest = some (t, word, after)
  | .unexpectedInput _ => skipBlanks rest = rest ∧ ¬ s.Admits rest ∧ classify? rest = none
  | .outOfRange _ value => ∃ digits trail p, rest = digits ++ trail ∧ Numeral digits ∧
      Terminal.index.EndsBefore trail ∧ s.after? .index digits = some (.complete p) ∧
        numeralValue digits = value

/-- The column of an error is the place in front of the comment where that begins which the error
is about, and the text stands there. -/
def LineError.PointsAt (e : LineError) (line text : List Char) : Prop :=
  ∃ front rest s, line = front ++ rest ∧ State.start.ReadsTo line s rest ∧
    e.fault.BeginsAt s rest ∧ e.column = front.length + 1 ∧
      front.length < (beforeComment line).length ∧ text <+: rest

/-- What has to be so for an error to point at what it quotes.  A text that is no word must not
begin with white space in front of others, and a number must be written without leading zeros and
must not stand in the comment again. -/
def LineFault.PlainOn (line : List Char) : LineFault → Prop
  | .unexpectedInput rest => (∀ c ∈ rest.head?, isSpace c = false) ∨ ∀ c ∈ rest, isSpace c = true
  | .outOfRange _ value => (∃ p : Phrase, p.OnLine line ∧ p.numeral? = some (numeralOf value)) ∧
      ¬ numeralOf value <:+: comment line
  | _ => True

/-- The first word stands at the front of a text unless white space does. -/
theorem firstWord_isPrefix_iff {rest : List Char} (hne : rest ≠ []) :
    (firstWord? rest).getD rest <+: rest ↔
      (∀ c ∈ rest.head?, isSpace c = false) ∨ ∀ c ∈ rest, isSpace c = true := by
  obtain ⟨c, cs, rfl⟩ := List.exists_cons_of_ne_nil hne
  cases hc : isSpace c with
  | true =>
    cases hfirst : firstWord? (c :: cs) with
    | none => exact iff_of_true (List.prefix_refl _) (.inr (firstWord?_eq_none_iff.mp hfirst))
    | some word =>
      obtain ⟨x, more, rfl, hx⟩ := exists_cons_of_firstWord? hfirst
      refine iff_of_false ?_ ?_
      · intro hfront
        obtain ⟨rfl, -⟩ := List.cons_prefix_cons.mp hfront
        rw [hx] at hc
        cases hc
      · rintro (hhead | hall)
        · rw [hhead c rfl] at hc
          cases hc
        · rw [firstWord?_eq_none_iff.mpr hall] at hfirst
          cases hfirst
  | false =>
    rw [firstWord?_cons_of_not_isSpace hc]
    have hhead : ∀ x ∈ (c :: cs).head?, isSpace x = false := by
      rintro x ⟨⟩
      exact hc
    refine iff_of_true ?_ (.inl hhead)
    exact List.cons_prefix_cons.mpr ⟨rfl, List.takeWhile_prefix _⟩

section Pointing

variable {line text : List Char}

theorem lt_length_beforeComment {front rest : List Char} (hfront : '/' ∉ front) (hne : rest ≠ [])
    (hskip : skipBlanks rest = rest) :
    front.length < (beforeComment (front ++ rest)).length := by
  rw [beforeComment_append hfront, List.length_append]
  exact Nat.lt_add_of_pos_right (List.length_pos_iff.mpr (beforeComment_ne_nil hne hskip))

/-- An error of a reading that is stuck is in the right place, so it points at its text if that
stands there. -/
theorem pointsAt_ofStuck_iff {s : State} {rest : List Char}
    (hreads : State.start.ReadsTo line s rest) (hne : rest ≠ []) (hskip : skipBlanks rest = rest)
    (hadmits : ¬ s.Admits rest) :
    (LineError.ofStuck line s rest).PointsAt line text ↔ text <+: rest := by
  obtain ⟨front, rfl, hfront⟩ := hreads.exists_front
  have hcolumn : (LineError.ofStuck (front ++ rest) s rest).column = front.length + 1 := by
    rw [← restColumn_append front rest]
    unfold LineError.ofStuck
    split <;> rfl
  constructor
  · rintro ⟨front', rest', -, hline, -, -, hcolumn', -, htext⟩
    have hlength : front.length = front'.length := by
      rw [hcolumn] at hcolumn'
      exact Nat.succ_inj.mp hcolumn'
    obtain ⟨-, rfl⟩ := List.append_inj hline hlength
    exact htext
  · intro htext
    refine ⟨front, rest, s, rfl, hreads, ?_, hcolumn,
      lt_length_beforeComment hfront hne hskip, htext⟩
    unfold LineError.ofStuck
    split
    · next t word after hclassify => exact ⟨hskip, hadmits, after, hclassify⟩
    · next hclassify => exact ⟨hskip, hadmits, hclassify⟩

/-- An error of range points at the index if the number is written as the error writes it and
nowhere behind. -/
theorem pointsAt_outOfRange_iff {p : Phrase} {digits : List Char} {value : Nat}
    (hp : p.OnLine line) (hdigits : p.numeral? = some digits)
    (hvalue : numeralValue digits = value) (hpos : 0 < value) (kind : Kind) :
    LineError.PointsAt ⟨.outOfRange kind value, lastColumn (numeralOf value) line⟩ line
        (numeralOf value) ↔
      (LineFault.outOfRange kind value).PlainOn line := by
  have hword : Numeral (numeralOf value) := numeral_numeralOf value
  have hne : numeralOf value ≠ [] := by
    obtain ⟨c, cs, hcons, -⟩ := Terminal.Spelled.head (t := .index) hword
    rw [hcons]
    exact List.cons_ne_nil c cs
  constructor
  · rintro ⟨front, rest, s, hline, hreads, ⟨digits', trail, p', rfl, hnumeral, hends, hafter, -⟩,
      hcolumn, -, -⟩
    -- The machine has no choice, so this index is the one of the phrase.
    have hrun : (State.complete p').run trail = .ended (.complete p) := by
      have hindex : Terminal.index.Spelled digits' := hnumeral
      rw [← State.run_word blanks_nil hindex hends hafter]
      exact hreads.run_eq.symm.trans (read_eq_complete_iff.mpr hp)
    obtain ⟨rfl, htrailer⟩ := State.run_complete_iff.mp hrun
    have hindex : p'.numeral? = some digits' := State.numeral?_of_after? hafter
    obtain rfl : digits' = digits := Option.some.inj (hindex.symm.trans hdigits)
    rw [hline] at hcolumn
    obtain ⟨hfront, htail⟩ := (lastColumn_append_eq_iff hne).mp hcolumn
    have hsame : numeralOf value = digits' := by
      apply eq_of_isPrefix_of_numeralValue (isPrefix_of_isPrefix_append hword hends hfront)
      · rw [numeralValue_numeralOf, hvalue]
      · rwa [numeralValue_numeralOf]
    refine ⟨⟨p', hp, by rw [hsame, hindex]⟩, ?_⟩
    obtain ⟨front', hline', hclear⟩ := hreads.exists_front
    have hslash : '/' ∉ front' ++ digits' := by
      rw [List.mem_append, not_or]
      exact ⟨hclear, Terminal.Spelled.slash_not_mem (t := .index) hnumeral⟩
    rw [hline', ← List.append_assoc, comment_append hslash, hsame,
      ← infix_tail_iff hnumeral htrailer]
    rwa [hsame] at htail
  · rintro ⟨⟨p', hp', hdigits'⟩, hcomment⟩
    obtain ⟨s, trail, hreads, -, htrailer, hafter⟩ := hp'.readsTo hdigits'
    obtain ⟨front, rfl, hfront⟩ := hreads.exists_front
    have hslash : '/' ∉ front ++ numeralOf value := by
      rw [List.mem_append, not_or]
      exact ⟨hfront, Terminal.Spelled.slash_not_mem (t := .index) hword⟩
    have htail : ¬ numeralOf value <:+: (numeralOf value ++ trail).tail := by
      rwa [infix_tail_iff hword htrailer, ← comment_append hslash, List.append_assoc]
    refine ⟨front, numeralOf value ++ trail, s, rfl, hreads,
      ⟨_, trail, p', rfl, hword, htrailer.endsBefore .index, hafter, numeralValue_numeralOf value⟩,
      (lastColumn_append_eq_iff hne).mpr ⟨List.prefix_append _ trail, htail⟩, ?_,
      List.prefix_append _ trail⟩
    exact lt_length_beforeComment hfront (List.append_ne_nil_of_left_ne_nil hne trail)
      (Terminal.Spelled.skip (t := .index) hword trail)

/-- The error of a phrase whose number is out of range. -/
theorem eq_outOfRange_of_ofCommand {p : Phrase} {e : LineError}
    (h : Reading.ofCommand line p.command = .error e) :
    ∃ digits, p.numeral? = some digits ∧ maxNumber < numeralValue digits ∧
      e = ⟨.outOfRange p.command.kind (numeralValue digits),
        lastColumn (numeralOf (numeralValue digits)) line⟩ := by
  unfold Reading.ofCommand at h
  rw [p.number?_command] at h
  cases hdigits : p.numeral? with
  | none =>
    rw [hdigits] at h
    cases h
  | some digits =>
    simp only [hdigits, Option.map_some] at h
    split at h
    · cases h
    · next hgt =>
      cases h
      exact ⟨digits, rfl, by omega, rfl⟩

/-- The errors of a line that quote some of it: a reading is stuck, or an index is out of range. -/
theorem error_cases {e : LineError} (hfeed : '\n' ∉ line) (h : readLine line = .ok (.error e))
    (hquoted : e.fault.quoted? = some text) :
    (∃ s rest, e = LineError.ofStuck line s rest ∧ State.start.ReadsTo line s rest ∧ rest ≠ [] ∧
      skipBlanks rest = rest ∧ ¬ s.Admits rest) ∨
    ∃ (p : Phrase) (digits : List Char) (kind : Kind) (value : Nat), p.OnLine line ∧
      p.numeral? = some digits ∧ numeralValue digits = value ∧ 0 < value ∧
        e = ⟨.outOfRange kind value, lastColumn (numeralOf value) line⟩ := by
  unfold readLine at h
  split at h
  · cases h
  · next p hread =>
    right
    by_cases hlong : p.Overlong
    · obtain ⟨digits, hdigits, hlength⟩ := hlong
      rw [Phrase.toCommand_eq_error hdigits hlength] at h
      cases h
    · rw [Phrase.toCommand_eq_ok hlong] at h
      obtain ⟨digits, hdigits, hgt, rfl⟩ := eq_outOfRange_of_ofCommand (Except.ok.inj h)
      exact ⟨p, digits, _, _, read_eq_complete_iff.mp hread, hdigits, rfl,
        Nat.zero_lt_of_lt hgt, rfl⟩
  · cases h
    cases hquoted
  · next s rest hread =>
    cases h
    exact .inl ⟨s, rest, rfl, State.readsTo_of_run_stuck hfeed hread⟩

/-- What an error of a stuck reading quotes stands in front of the rest exactly if it is plain. -/
theorem isPrefix_iff_plainOn {s : State} {rest : List Char} (hne : rest ≠ [])
    (hquoted : (LineError.ofStuck line s rest).fault.quoted? = some text) :
    text <+: rest ↔ (LineError.ofStuck line s rest).fault.PlainOn line := by
  unfold LineError.ofStuck at hquoted ⊢
  split at hquoted
  · next t word after hclassify =>
    cases hquoted
    obtain ⟨happ, -⟩ := classify?_append hclassify
    exact iff_of_true ⟨after, happ⟩ trivial
  · cases hquoted
    exact firstWord_isPrefix_iff hne

/-- An error that quotes some of its line points at it exactly if it is plain on the line. -/
theorem pointsAt_iff_plainOn {e : LineError} (hfeed : '\n' ∉ line)
    (h : readLine line = .ok (.error e)) (hquoted : e.fault.quoted? = some text) :
    e.PointsAt line text ↔ e.fault.PlainOn line := by
  obtain ⟨s, rest, rfl, hreads, hne, hskip, hadmits⟩ |
    ⟨p, digits, kind, value, hp, hdigits, hvalue, hpos, rfl⟩ := error_cases hfeed h hquoted
  · rw [pointsAt_ofStuck_iff hreads hne hskip hadmits]
    exact isPrefix_iff_plainOn hne hquoted
  · cases hquoted
    exact pointsAt_outOfRange_iff hp hdigits hvalue hpos kind

/-- The words of an error show what they quote from the line, and the error points at it exactly
if it is plain on the line; an error about a word that may not come next always does. -/
theorem diagnostic_points_iff {e : LineError} (hfeed : '\n' ∉ line)
    (h : readLine line = .ok (.error e)) (hquoted : e.fault.quoted? = some text) :
    (∃ before after, e.fault.message = before ++ e.fault.shown text ++ after) ∧
      (e.PointsAt line text ↔ e.fault.PlainOn line) :=
  ⟨message_of_quoted? hquoted, pointsAt_iff_plainOn hfeed h hquoted⟩

end Pointing

/-- A word where an index is wanted, behind a tab. -/
def wordForIndex : List Char := "push constant\tx // x".toList

theorem diagnostic_points_iff_word :
    ∃ e, readLine wordForIndex = .ok (.error e) ∧ e.fault.quoted? = some ['x'] ∧
      e.PointsAt wordForIndex ['x'] := by
  have hread : readLine wordForIndex =
      .ok (.error ⟨.unexpectedToken .symbol ['x'] [.index], 15⟩) := by
    decide +kernel
  obtain ⟨-, hpoints⟩ := diagnostic_points_iff (by decide) hread rfl
  exact ⟨_, hread, rfl, hpoints.mpr trivial⟩

/-- The number stands in the comment again. -/
def repeatedNumber : List Char := "push constant 40000 // 40000".toList

/-- The number has a leading zero, which the error does not show. -/
def paddedNumber : List Char := "push constant 040000".toList

/-- A space that is no blank stands in front of the word that the error quotes. -/
def spacedWord : List Char := "push\u00a0constant 7".toList

/-- A line has an error that quotes some of it and points elsewhere. -/
def PointsElsewhere (line : List Char) : Prop :=
  ∃ e text, readLine line = .ok (.error e) ∧ e.fault.quoted? = some text ∧ ¬ e.PointsAt line text

theorem diagnostics_point_elsewhere :
    PointsElsewhere repeatedNumber ∧ PointsElsewhere paddedNumber ∧ PointsElsewhere spacedWord := by
  refine ⟨?repeated, ?padded, ?spaced⟩
  case repeated =>
    have hread : readLine repeatedNumber = .ok (.error ⟨.outOfRange .push 40000, 24⟩) := by
      decide +kernel
    refine ⟨_, _, hread, rfl, ?_⟩
    rw [pointsAt_iff_plainOn (by decide) hread rfl]
    rintro ⟨-, hcomment⟩
    exact hcomment ⟨"// ".toList, [], by decide +kernel⟩
  case padded =>
    have hread : readLine paddedNumber = .ok (.error ⟨.outOfRange .push 40000, 16⟩) := by
      decide +kernel
    have hphrase : read paddedNumber =
        .ended (.complete (.move .push .constant "040000".toList)) := by
      decide +kernel
    refine ⟨_, _, hread, rfl, ?_⟩
    rw [pointsAt_iff_plainOn (by decide) hread rfl]
    rintro ⟨⟨p, hp, hdigits⟩, -⟩
    have hp := read_eq_complete_iff.mpr hp
    rw [hphrase] at hp
    cases hp
    exact absurd hdigits (by decide +kernel)
  case spaced =>
    have hread : readLine spacedWord =
        .ok (.error ⟨.unexpectedInput "\u00a0constant 7".toList, 5⟩) := by
      decide +kernel
    refine ⟨_, _, hread, rfl, ?_⟩
    rw [pointsAt_iff_plainOn (by decide) hread rfl]
    rintro (hhead | hall)
    · exact absurd (hhead _ rfl) (by decide)
    · exact absurd (hall 'c' (by decide)) (by decide)

end VmToHack
