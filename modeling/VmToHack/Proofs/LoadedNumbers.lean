import VmToHack.Proofs.OneLine
set_option autoImplicit false

/-!
# Loaded numbers: which of them an instruction can hold

An index that is read is in range, so it can be loaded as it is.  The code of a call loads the
number of its arguments together with the size of the frame above them, and nothing is looked at
after that addition: a call with almost as many arguments as are read has a number that no
instruction can hold.  `output_loadable_iff` says that there is no other way to get one, whatever
the text and the name of its file; a symbol is never written like a number.  As long as the name
does not break a line, that is so for the lines of the text that is put out, too.

This is about every text.  Where a numeral is too long to be evaluated the pass ends, and what
has been written by then counts (`writer_translateSource`).
-/

namespace VmToHack

open VmToHack.Grammar VmToHack.Hack VmToHack.Text

/-! ## What is written for a text -/

/-- A line that is read, whatever it says. -/
def SourceLine.isRead (line : SourceLine) : Bool := (readLine line.text).isOk

/-- The commands of a text that are written: those in front of the first line that is not read. -/
def writtenCommands (text : List Char) : List Command :=
  ((numberedLines text).takeWhile SourceLine.isRead).filterMap SourceLine.command?

theorem exists_of_isRead {line : SourceLine} (h : line.isRead = true) :
    ∃ r, readLine line.text = .ok r := by
  unfold SourceLine.isRead at h
  cases hread : readLine line.text with
  | ok r => exact ⟨r, rfl⟩
  | error o =>
    rw [hread] at h
    cases h

/-- A pass over lines of which the first is not read writes nothing more. -/
theorem translateLines_of_head {file : String} {lines : List SourceLine}
    (h : ∀ line ∈ lines.head?, line.isRead = false) (w : Writer) :
    ∃ result, translateLines file w lines = (w, result) := by
  cases lines with
  | nil => exact ⟨_, rfl⟩
  | cons line lines =>
    have hline := h line rfl
    unfold SourceLine.isRead at hline
    cases hread : readLine line.text with
    | ok r =>
      rw [hread] at hline
      cases hline
    | error o =>
      refine ⟨.error (.overlong o), ?_⟩
      rw [translateLines, hread]

/-- What is written for a text, also if the pass over it does not come to its end. -/
theorem writer_translateSource (file : String) (text : List Char) :
    (translateSource text file {}).1 =
      ((Writer.ofFile file).writeAll (writtenCommands text)).1 := by
  have hread : ∀ line ∈ (numberedLines text).takeWhile SourceLine.isRead,
      ∃ r, readLine line.text = .ok r := fun line hline =>
    exists_of_isRead (List.all_eq_true.mp List.all_takeWhile line hline)
  have hrest : ∀ line ∈ ((numberedLines text).dropWhile SourceLine.isRead).head?,
      line.isRead = false := by
    intro line hline
    have hnot := List.head?_dropWhile_not SourceLine.isRead (numberedLines text)
    rw [hline] at hnot
    simpa using hnot
  obtain ⟨result, hresult⟩ := @translateLines_of_head file _ hrest
    ((Writer.ofFile file).writeAll (writtenCommands text)).1
  have hall := @translateLines_append file { unit := unitLabel file } #[] _ _ _ _ hread hresult
  rw [List.takeWhile_append_dropWhile] at hall
  rw [translateSource_eq]
  exact congrArg Prod.fst hall

theorem lines_translateSource (file : String) (text : List Char) :
    (translateSource text file {}).1.output.lines =
      (sites { unit := unitLabel file } (writtenCommands text)).flatMap Site.lines := by
  rw [writer_translateSource]
  exact lines_writeAll { unit := unitLabel file } #[] _

theorem spellable_of_mem_writtenCommands {text : List Char} {c : Command}
    (h : c ∈ writtenCommands text) : c.Spellable := by
  obtain ⟨line, -, hline⟩ := List.mem_filterMap.mp h
  exact spellable_of_command? hline

/-! ## Loads of numbers -/

/-- A line, as it is written, that loads a number. -/
def LoadsNumber (line : String) (digits : List Char) : Prop :=
  line.toList = '@' :: digits ∧ Numeral digits

theorem Grammar.Numeral.not_mem {digits : List Char} (h : Numeral digits) {c : Char}
    (hc : isDigit c = false) : c ∉ digits := by
  intro hmem
  rw [h.isDigit_of_mem hmem] at hc
  cases hc

/-- A symbol is no numeral. -/
theorem Hack.IsAssemblyName.not_numeral {name : List Char} (h : IsAssemblyName name) :
    ¬ Numeral name := by
  rintro ⟨hc, -⟩
  have hfirst := h.2
  simp [hc] at hfirst

/-- No name in code is written like a number, whatever the name of the file is. -/
theorem CodeName.not_numeral {n : Naming} {c : Command} {name : String} (h : CodeName n c name)
    (hc : c.Spellable) : ¬ Numeral name.toList := by
  intro hnumeral
  have hgiven : ∀ label, c.labelName? = some label → ¬ Numeral label.toList :=
    fun label hlabel => (isAssemblyName_of_symbolWord (hc.symbolWord hlabel)).not_numeral
  cases h with
  | cell x => exact (isAssemblyName_cell x).not_numeral hnumeral
  | @static index hindex =>
    have hname : Numeral (staticSymbol (n.unit, index)).toList := hnumeral
    refine hname.not_mem (c := '.') (by decide) ?_
    rw [toList_staticSymbol]
    exact List.mem_append_right _ List.mem_cons_self
  | given hname => exact hgiven _ hname hnumeral
  | @inScope label hname =>
    unfold Naming.labelSymbol at hnumeral
    split at hnumeral
    · exact hgiven _ hname hnumeral
    · exact hnumeral.not_mem (c := '$') (by decide) (by simp)
  | @made mark hmark => exact hnumeral.not_mem (by decide) (n.label mark).mem_symbol

theorem toList_text_number (k : Nat) :
    (Line.number k).text.toList = '@' :: numeralOf k := by
  rw [Line.text, String.toList_append, toList_toString_natCast]
  rfl

theorem loadsNumber_number (k : Nat) : LoadsNumber (Line.number k).text (numeralOf k) :=
  ⟨toList_text_number k, numeral_numeralOf k⟩

/-- A number is loaded as it is. -/
theorem LoadsNumber.eq_of_number {k : Nat} {digits : List Char}
    (h : LoadsNumber (Line.number k).text digits) : numeralValue digits = k := by
  obtain ⟨htext, -⟩ := h
  rw [toList_text_number] at htext
  rw [← (List.cons.inj htext).2, numeralValue_numeralOf]

theorem not_loadsNumber_comment (words : String) (digits : List Char) :
    ¬ LoadsNumber (Line.comment words).text digits := by
  rintro ⟨htext, -⟩
  simp [Line.text] at htext

/-- The line of code that loads a number is one with a number. -/
theorem CodeLine.number_of_loads {n : Naming} {c : Command} {l : Line} {digits : List Char}
    (h : CodeLine n c l) (hc : c.Spellable) (hload : LoadsNumber l.text digits) :
    ∃ k, CodeNumber c k ∧ (numeralValue digits : Int) = k := by
  obtain ⟨htext, hdigits⟩ := hload
  cases h with
  | @symbol name hname =>
    have hname' : name.toList = digits := by simpa [Line.text] using htext
    exact absurd (hname' ▸ hdigits) (hname.not_numeral hc)
  | @number k hk =>
    obtain ⟨k, rfl⟩ := Int.eq_ofNat_of_zero_le (hk.nonneg hc)
    exact ⟨k, hk, congrArg Int.ofNat (LoadsNumber.eq_of_number ⟨htext, hdigits⟩)⟩
  | label hname => simp [Line.text] at htext
  | @compute dest comp jump =>
    refine absurd ?_ (not_mem_text_compute (c := '@') (by decide) dest comp jump)
    rw [htext]
    exact List.mem_cons_self

/-- The number that a command's code loads is in range, but for the frame of a call. -/
theorem CodeNumber.lt_loadLimit {c : Command} {k : Int} (h : CodeNumber c k) (hc : c.Spellable)
    (hcall : ∀ name (args : Int), c = .call name args → args + frameSize < loadLimit) :
    k < loadLimit := by
  cases h with
  | index h =>
    have hmax : k ≤ maxNumber := by
      rcases h with rfl | rfl
      · exact hc.2.2
      · exact hc.2.2
    exact Int.lt_of_le_of_lt hmax (by decide)
  | offset h =>
    have hlt : frameSize < loadLimit := by decide
    exact Int.ofNat_lt.mpr (Nat.lt_of_le_of_lt h hlt)
  | frame h => exact hcall _ _ h

/-- A block loads no number beyond the limit if its command is no call with too many arguments. -/
theorem Site.loads_lt {s : Site} (hc : s.command.Spellable)
    (hcall : ∀ name (args : Int), s.command = .call name args → args + frameSize < loadLimit) :
    ∀ l ∈ s.lines, ∀ digits, LoadsNumber l.text digits → numeralValue digits < loadLimit := by
  intro l hl digits hload
  obtain ⟨rest, hlines, -⟩ := s.comments_iff
  cases hr : s.block.refusal with
  | none =>
    obtain ⟨code, hcode, hblock⟩ := code_of_refusal_eq_none hr
    have hblock : s.lines = .comment s.command.text :: code := hblock
    rw [hblock] at hl
    rcases List.mem_cons.mp hl with rfl | hl
    · exact absurd hload (not_loadsNumber_comment _ _)
    · obtain ⟨k, hk, hvalue⟩ := (codeLine_of_mem_code hcode l hl).number_of_loads hc hload
      have hlt := hk.lt_loadLimit hc hcall
      omega
  | some r =>
    rw [s.lines_of_refusal hr] at hl
    simp only [List.mem_cons, List.not_mem_nil, or_false] at hl
    rcases hl with rfl | rfl <;> exact absurd hload (not_loadsNumber_comment _ _)

theorem number_mem_of_call (n : Naming) (name : String) (args : Int) :
    Line.number (args + frameSize) ∈ (Site.mk n (.call name args)).lines := by
  have hcode : Line.number (args + frameSize) ∈ callCode name args n.returnLabel := by
    simp [callCode]
  exact List.mem_cons_of_mem _ hcode

/-! ## The output of a translation -/

/-- Every number that the lines of an output load, as they are written, fits an instruction. -/
def Output.Loadable (o : Output) : Prop :=
  ∀ l ∈ o.lines, ∀ digits, LoadsNumber l.text digits → numeralValue digits < loadLimit

/-- Every number that the lines of a text load fits an instruction. -/
def LoadableText (text : String) : Prop :=
  ∀ line ∈ splitLines text.toList, ∀ digits, LoadsNumber (String.ofList line) digits →
    numeralValue digits < loadLimit

theorem loadableText_iff {o : Output} (h : ∀ l ∈ o.lines, OneLine l.text) :
    LoadableText o.text ↔ o.Loadable := by
  unfold LoadableText Output.Loadable
  rw [splitLines_text h, List.forall_mem_map]
  simp only [String.ofList_toList]

/-- If the name of a file does not break a line, what is written for its text does not either. -/
theorem oneLine_translateSource {file : String} (hfile : OneLine (unitLabel file))
    (text : List Char) : ∀ l ∈ (translateSource text file {}).1.output.lines, OneLine l.text := by
  have hstart : Naming.Unbroken { unit := unitLabel file } :=
    ⟨hfile, fun _ hmem => absurd hmem List.not_mem_nil⟩
  have hcommands : ∀ c ∈ writtenCommands text, c.Unbroken :=
    fun c hc => (spellable_of_mem_writtenCommands hc).unbroken
  intro l hl
  rw [lines_translateSource] at hl
  obtain ⟨s, hs, hl⟩ := List.mem_flatMap.mp hl
  exact oneLine_of_mem_sites hstart hcommands hs l hl

theorem loadable_translateSource_iff (file : String) (text : List Char) :
    (translateSource text file {}).1.output.Loadable ↔
      ∀ name (args : Int), .call name args ∈ writtenCommands text →
        args + frameSize < loadLimit := by
  have hcommands := map_command_sites { unit := unitLabel file } (writtenCommands text)
  unfold Output.Loadable
  rw [lines_translateSource]
  constructor
  · intro h name args hcall
    have hspellable := spellable_of_mem_writtenCommands hcall
    rw [← hcommands] at hcall
    obtain ⟨⟨n, c⟩, hs, rfl⟩ := List.mem_map.mp hcall
    obtain ⟨k, rfl, -⟩ := hspellable.2.exists_nat
    have hlt := h _ (List.mem_flatMap.mpr ⟨_, hs, number_mem_of_call n name k⟩) _
      (loadsNumber_number (k + frameSize))
    rw [numeralValue_numeralOf] at hlt
    exact_mod_cast hlt
  · intro h l hl
    obtain ⟨s, hs, hl⟩ := List.mem_flatMap.mp hl
    have hc := command_mem_of_mem_sites hs
    refine Site.loads_lt (spellable_of_mem_writtenCommands hc) ?_ l hl
    intro name args hcall
    exact h name args (hcall ▸ hc)

/-- All numbers can be loaded exactly if no call that is written has so many arguments that they
exceed the limit together with a frame.  That is so of the lines that are written, and of the lines
of their text if the name of the file does not break a line. -/
theorem output_loadable_iff (file : String) (text : List Char) :
    let o := (translateSource text file {}).1.output
    let fits : Prop := ∀ name (args : Int), .call name args ∈ writtenCommands text →
      args + frameSize < loadLimit
    (o.Loadable ↔ fits) ∧ (OneLine (unitLabel file) → (LoadableText o.text ↔ fits)) := by
  have hloadable := loadable_translateSource_iff file text
  refine ⟨hloadable, fun hfile => ?_⟩
  exact (loadableText_iff (oneLine_translateSource hfile text)).trans hloadable

/-- A call with the greatest number of arguments less four. -/
def largeCall : List Char := "call f 32763\n".toList

/-- The call is taken without an issue, and its block loads one more than the greatest number. -/
theorem largeCall_not_loadable :
    (translateSource largeCall "Test.vm" {}).2 = .ok ⟨1, []⟩ ∧
      ¬ (translateSource largeCall "Test.vm" {}).1.output.Loadable ∧
      ¬ LoadableText (translateSource largeCall "Test.vm" {}).1.output.text := by
  have hnot : ¬ (translateSource largeCall "Test.vm" {}).1.output.Loadable := by
    intro h
    have hmem : Line.number (32768 : Nat) ∈
        (translateSource largeCall "Test.vm" {}).1.output.lines := by
      decide +kernel
    have hlt := h _ hmem _ (loadsNumber_number 32768)
    rw [numeralValue_numeralOf] at hlt
    exact absurd hlt (by decide)
  have hfile : OneLine (unitLabel "Test.vm") := by decide +kernel
  have htext := loadableText_iff (oneLine_translateSource hfile largeCall)
  exact ⟨by decide +kernel, hnot, htext.not.mpr hnot⟩

end VmToHack
