import VmToHack.Proofs.OneLine
import VmToHack.Proofs.Submissions
set_option autoImplicit false

/-!
# Refusals: a failed command changes nothing

Which commands are refused, and why, depends on the command alone (`Command.RefusedAs`): an
operator or a kind that does not exist, a pop to a constant, an index that the pointer or the
temporary segment does not have, or an unknown segment.

A refused command leaves two comments in the output and the names as they were.  So whatever is
submitted behind it is written as if it had not been there.  The one other failure is a number that
is not printed.  If it is the command's own, nothing is written; if it is a counter, or the size of
a frame, then the names have moved on and the block ends in front of it, as in
`overlong_call_unfinished`.  `failed_command_inert` says all of this.
-/

namespace VmToHack

open VmToHack.Hack VmToHack.Text

/-! ## Which commands are refused -/

/-- The sorts of errors that a refusal is reported as. -/
inductive RefusalSort where
  /-- a command that does not exist -/
  | unsupported
  /-- a pop to what is no cell -/
  | invalidPop
  /-- an index or a segment that does not exist -/
  | segmentIndex
  deriving DecidableEq, Repr, Inhabited

/-- The sort of a refusal. -/
def Refusal.sort : Refusal → RefusalSort
  | .operator _ | .kind _ => .unsupported
  | .constantPop => .invalidPop
  | .pointerIndex _ | .tempIndex _ | .segment _ => .segmentIndex

/-- The commands that are refused, by the sort of error. -/
inductive Command.RefusedAs : Command → RefusalSort → Prop where
  | operator {op : String} (h : ∀ o : Operator, o.mnemonic ≠ op) :
      RefusedAs (.arithmetic op) .unsupported
  | kind (name : String) : RefusedAs (.other name) .unsupported
  | constantPop (index : Int) : RefusedAs (.pop "constant" index) .invalidPop
  | pointer {c : Command} {index : Int} (hc : c = .push "pointer" index ∨ c = .pop "pointer" index)
      (h0 : index ≠ 0) (h1 : index ≠ 1) : RefusedAs c .segmentIndex
  | temp {c : Command} {index : Int} (hc : c = .push "temp" index ∨ c = .pop "temp" index)
      (h : 7 < index) : RefusedAs c .segmentIndex
  | segment {c : Command} {segment : String} {index : Int}
      (hc : c = .push segment index ∨ c = .pop segment index)
      (h : ∀ g : Segment, g.name ≠ segment) : RefusedAs c .segmentIndex

section Refusals

variable {n : Naming} {c : Command} {r : Refusal}

theorem refusedAs_of_place {segment : String} {index : Int}
    (hc : c = .push segment index ∨ c = .pop segment index)
    (h : place n segment index = .error r) : c.RefusedAs r.sort := by
  have hlimit : (tempSize : Int) = 8 := rfl
  cases unplaced_of_place h with
  | segment hnone =>
    refine .segment hc fun g hg => ?_
    rw [Segment.ofName?_eq_some_iff.mpr hg] at hnone
    cases hnone
  | temp hsize => exact .temp hc (by omega)
  | pointer h0 h1 => exact .pointer hc h0 h1

theorem refusedAs_of_code (h : c.code n = .error r) : c.RefusedAs r.sort := by
  cases c with
  | arithmetic op =>
    obtain ⟨hnone, rfl⟩ := code_arithmetic_eq_error h
    refine .operator fun o ho => ?_
    rw [Operator.ofMnemonic?_eq_some_iff.mpr ho] at hnone
    cases hnone
  | push segment index => exact refusedAs_of_place (.inl rfl) (code_push_eq_error h)
  | pop segment index =>
    rcases code_pop_eq_error h with hp | ⟨k, hp, rfl⟩
    · exact refusedAs_of_place (.inr rfl) hp
    · obtain ⟨g, hg, hplace⟩ := place_eq_ok hp
      obtain rfl := Segment.ofName?_eq_some_iff.mp hg
      cases placedAt_of_place hplace with
      | constant => exact .constantPop index
  | other name =>
    cases h
    exact .kind name
  | _ => cases h

theorem code_of_place {segment : String} {index : Int}
    (hc : c = .push segment index ∨ c = .pop segment index)
    (h : place n segment index = .error r) : c.code n = .error r := by
  rcases hc with rfl | rfl
  · rw [Command.code, h]
    rfl
  · rw [Command.code, h]
    rfl

theorem exists_code_of_refusedAs {sort : RefusalSort} (h : c.RefusedAs sort) (n : Naming) :
    ∃ r, c.code n = .error r ∧ r.sort = sort := by
  cases h with
  | @operator op h =>
    have hnone : Operator.ofMnemonic? op = none := by
      rw [Option.eq_none_iff_forall_ne_some]
      exact fun o ho => h o (Operator.ofMnemonic?_eq_some_iff.mp ho)
    refine ⟨.operator op, ?_, rfl⟩
    rw [Command.code, hnone]
  | kind name => exact ⟨.kind name, rfl, rfl⟩
  | constantPop index => exact ⟨.constantPop, rfl, rfl⟩
  | @pointer c index hc h0 h1 =>
    refine ⟨.pointerIndex index, code_of_place hc ?_, rfl⟩
    show Segment.pointer.place n index = _
    rw [Segment.place_pointer, pointerCell?_eq_none_iff.mpr ⟨h0, h1⟩]
  | @temp c index hc h =>
    have hlimit : (tempSize : Int) = 8 := rfl
    refine ⟨.tempIndex index, code_of_place hc ?_, rfl⟩
    show Segment.temp.place n index = _
    rw [Segment.place_temp, if_neg (by omega)]
  | @segment c segment index hc h =>
    have hnone : Segment.ofName? segment = none := by
      rw [Option.eq_none_iff_forall_ne_some]
      exact fun g hg => h g (Segment.ofName?_eq_some_iff.mp hg)
    refine ⟨.segment segment, code_of_place hc ?_, rfl⟩
    rw [place, hnone]

theorem refusal_eq_some_iff : (c.block n).refusal = some r ↔ c.code n = .error r := by
  cases h : c.code n with
  | error r' => simp [block_of_error h, eq_comm]
  | ok p => simp [block_of_code h]

/-- A command is refused for what it is, whatever the names are. -/
theorem refused_iff (n : Naming) (c : Command) (sort : RefusalSort) :
    (∃ r, (c.block n).refusal = some r ∧ r.sort = sort) ↔ c.RefusedAs sort := by
  constructor
  · rintro ⟨r, hr, rfl⟩
    exact refusedAs_of_code (refusal_eq_some_iff.mp hr)
  · intro h
    obtain ⟨r, hcode, hsort⟩ := exists_code_of_refusedAs h n
    exact ⟨r, refusal_eq_some_iff.mpr hcode, hsort⟩

/-- A refused command has no number but its own. -/
theorem cut?_of_refusedAs {sort : RefusalSort} (h : c.RefusedAs sort) : c.cut? n = none := by
  obtain ⟨r, hcode, -⟩ := exists_code_of_refusedAs h n
  by_contra hcut
  have hrefusal := refusal_of_cut? hcut
  rw [refusal_eq_some_iff.mpr hcode] at hrefusal
  cases hrefusal

end Refusals

/-! ## Submitting -/

/-- An output has grown by some lines. -/
structure Grown (before after : Output) (lines : List String) : Prop where
  text : after.text = before.text ++ renderTexts lines
  oneLine : ∀ line ∈ lines, OneLine line

/-- What the submission of a command does to a writer, and what it reports. -/
structure SubmitSettled (w : Writer) (c : Command) (w' : Writer) (fault : Option SubmitFault) :
    Prop where
  /-- Exactly the commands that are to be refused are, for their reason. -/
  refuses : ∀ sort, (∃ r, fault = some (.write (.refused r)) ∧ r.sort = sort) ↔
    c.HasText ∧ c.RefusedAs sort
  /-- The only other failure is a number that is not printed. -/
  overlong : fault = some .overlong ↔ ¬ c.Printed w.naming
  notClosed : fault ≠ some (.write .closed)
  /-- A refused command leaves the names, and its header and a remark in the output. -/
  refused : ∀ r, fault = some (.write (.refused r)) → w'.naming = w.naming ∧
    Grown w.output w'.output ["// " ++ c.text, "// " ++ r.remark c]
  /-- A command that does not fail has its header as its only comment. -/
  translated : fault = none → ∃ code, Grown w.output w'.output (("// " ++ c.text) :: code) ∧
    ∀ line ∈ code, ¬ IsComment line
  /-- A command without a text leaves everything as it was. -/
  untouched : ¬ c.HasText → w' = w
  /-- Of a block that is cut there is no other comment, and the names move on. -/
  unfinished : c.HasText → fault = some .overlong → w'.naming = w.naming.after c ∧
    ∃ code, Grown w.output w'.output (("// " ++ c.text) :: code) ∧ ∀ line ∈ code, ¬ IsComment line

/-- Two writers put out the same for a command, with the same report, and go on with the same
names. -/
structure SameSubmit (w w' : Writer) (c : Command) : Prop where
  naming : w.naming = w'.naming
  fault : (w.submit c).2 = (w'.submit c).2
  after : (w.submit c).1.naming = (w'.submit c).1.naming
  blocks : ∃ more, (w.submit c).1.output.blocks.toList = w.output.blocks.toList ++ more ∧
    (w'.submit c).1.output.blocks.toList = w'.output.blocks.toList ++ more

section Submit

variable {w : Writer} {c : Command}

/-- The text of an output that has taken another block. -/
theorem text_push (room : Option Nat) (blocks : Array (List Line)) (lines : List Line) :
    Output.text ⟨room, blocks.push lines⟩ =
      Output.text ⟨room, blocks⟩ ++ renderTexts (lines.map Line.text) := by
  simp only [Output.text, Array.toList_push, List.map_append, List.map_singleton,
    String.join_append, String.join_cons, String.join_nil, String.append_empty]
  rfl

theorem grown_submit (hroom : w.output.room = none) (hn : w.naming.Unbroken) (hc : c.Unbroken)
    (htext : c.HasText) :
    Grown w.output (w.submit c).1.output ((c.offered w.naming).map Line.text) := by
  refine ⟨?_, ?_⟩
  · rw [Writer.submit_of_unlimited hroom htext, text_push, ← hroom]
  · intro line hline
    obtain ⟨l, hl, rfl⟩ := List.mem_map.mp hline
    exact oneLine_block hn hc l ((isPrefix_offered w.naming c).subset hl)

/-- A command without a text. -/
theorem submitSettled_of_not_hasText (h : ¬ c.HasText) :
    SubmitSettled w c (w.submit c).1 (w.submit c).2 := by
  rw [Writer.submit_of_not_hasText h]
  refine ⟨fun sort => ?refuses, ?overlong, nofun, nofun, nofun, fun _ => rfl,
    fun htext => ?unfinished⟩
  case refuses => exact iff_of_false (by simp) fun hrefused => h hrefused.1
  case overlong => exact iff_of_true rfl fun hprinted => h hprinted.hasText
  case unfinished => exact absurd htext h

/-- A command with a text that is cut at another number. -/
theorem submitSettled_of_cut (hroom : w.output.room = none) (hn : w.naming.Unbroken)
    (hc : c.Unbroken) (htext : c.HasText) {code : List Line} (hcut : c.cut? w.naming = some code) :
    SubmitSettled w c (w.submit c).1 (w.submit c).2 := by
  obtain ⟨rest, hlines, hrefusal⟩ := block_of_cut? hcut
  have hfault : (w.submit c).2 = some .overlong := by
    rw [Writer.submit_of_unlimited hroom htext, hrefusal, hcut]
    rfl
  rw [hfault]
  refine ⟨fun sort => ?refuses, ?overlong, nofun, nofun, nofun, fun h => absurd htext h,
    fun _ _ => ⟨?naming, ?grown⟩⟩
  case refuses =>
    refine iff_of_false (by simp) fun ⟨_, hrefused⟩ => ?_
    rw [cut?_of_refusedAs hrefused] at hcut
    cases hcut
  case overlong =>
    refine iff_of_true rfl fun hprinted => ?_
    rw [(printed_iff.mp hprinted).2] at hcut
    cases hcut
  case naming => rw [Writer.naming_submit, if_pos htext]
  case grown =>
    have hgrown := grown_submit hroom hn hc htext
    rw [Command.offered, hcut] at hgrown
    refine ⟨code.map Line.text, hgrown, ?_⟩
    intro line hline
    obtain ⟨l, hl, rfl⟩ := List.mem_map.mp hline
    obtain ⟨whole, hwhole, hblock⟩ := code_of_refusal_eq_none hrefusal
    rw [hblock] at hlines
    have hmem : l ∈ whole := by
      rw [(List.cons.inj hlines).2]
      exact List.mem_append_left rest hl
    exact (codeLine_of_mem_code hwhole l hmem).not_isComment

/-- A command that is printed. -/
theorem submitSettled_of_printed (hroom : w.output.room = none) (hn : w.naming.Unbroken)
    (hc : c.Unbroken) (hprinted : c.Printed w.naming) :
    SubmitSettled w c (w.submit c).1 (w.submit c).2 := by
  have htext := hprinted.hasText
  have hfault : (w.submit c).2 =
      (c.block w.naming).refusal.map fun r => .write (.refused r) := by
    rw [Writer.submit_of_unlimited hroom htext, (printed_iff.mp hprinted).2]
    simp
  have hrefused : ∀ r, (w.submit c).2 = some (.write (.refused r)) ↔
      (c.block w.naming).refusal = some r := by
    intro r
    rw [hfault]
    cases (c.block w.naming).refusal <;> simp
  have hgrown := grown_submit hroom hn hc htext
  rw [offered_of_printed hprinted] at hgrown
  constructor
  case refuses =>
    intro sort
    simp only [hrefused]
    exact (refused_iff w.naming c sort).trans (and_iff_right htext).symm
  case overlong =>
    refine iff_of_false ?_ (not_not_intro hprinted)
    rw [hfault]
    cases (c.block w.naming).refusal <;> simp
  case notClosed =>
    rw [hfault]
    cases (c.block w.naming).refusal <;> simp
  case refused =>
    intro r hr
    have hrefusal := (hrefused r).mp hr
    refine ⟨?_, ?_⟩
    · rw [Writer.naming_submit, if_pos htext, ← naming_block,
        Command.naming_block_of_refusal hrefusal]
    · have hlines : (c.block w.naming).lines = [.comment c.text, .comment (r.remark c)] :=
        Site.lines_of_refusal (s := ⟨w.naming, c⟩) hrefusal
      rwa [hlines] at hgrown
  case translated =>
    intro hnone
    have hrefusal : (c.block w.naming).refusal = none := by
      rw [hfault] at hnone
      simpa using hnone
    obtain ⟨code, hcode, hlines⟩ := code_of_refusal_eq_none hrefusal
    rw [hlines] at hgrown
    refine ⟨code.map Line.text, hgrown, ?_⟩
    intro line hline
    obtain ⟨l, hl, rfl⟩ := List.mem_map.mp hline
    exact (codeLine_of_mem_code hcode l hl).not_isComment
  case untouched => exact fun h => absurd htext h
  case unfinished =>
    intro _ hoverlong
    rw [hfault] at hoverlong
    cases hrefusal : (c.block w.naming).refusal <;> simp [hrefusal] at hoverlong

theorem submitSettled_submit (hroom : w.output.room = none) (hn : w.naming.Unbroken)
    (hc : c.Unbroken) : SubmitSettled w c (w.submit c).1 (w.submit c).2 := by
  by_cases htext : c.HasText
  · cases hcut : c.cut? w.naming with
    | none => exact submitSettled_of_printed hroom hn hc (printed_iff.mpr ⟨htext, hcut⟩)
    | some code => exact submitSettled_of_cut hroom hn hc htext hcut
  · exact submitSettled_of_not_hasText htext

theorem sameSubmit_of_naming {w' : Writer} (hroom : w.output.room = none)
    (hroom' : w'.output.room = none) (h : w.naming = w'.naming) (c : Command) :
    SameSubmit w w' c := by
  by_cases htext : c.HasText
  · have hw := Writer.submit_of_unlimited hroom htext
    have hw' := Writer.submit_of_unlimited hroom' htext
    rw [← h] at hw'
    exact ⟨h, by rw [hw, hw'], by rw [hw, hw'], [c.offered w.naming],
      by rw [hw, Array.toList_push], by rw [hw', Array.toList_push]⟩
  · have hw := Writer.submit_of_not_hasText htext w
    have hw' := Writer.submit_of_not_hasText htext w'
    exact ⟨h, by rw [hw, hw'], by rw [hw, hw']; exact h, [], by rw [hw, List.append_nil],
      by rw [hw', List.append_nil]⟩

end Submit

/-- A command fails exactly if it is refused for what it is, or has a number that is not printed.
A refused one changes nothing but the output, by two comments, and what is submitted behind it is
put out as without it; so it is behind a command without a text. -/
theorem failed_command_inert {start : Writer} {before : List Command} {c : Command}
    (hroom : start.output.room = none) (hstart : start.naming.Unbroken)
    (hbefore : ∀ c ∈ before, c.Unbroken) (hc : c.Unbroken) :
    let w := start.submitAll before
    SubmitSettled w c (w.submit c).1 (w.submit c).2 ∧
      ((∃ r, (w.submit c).2 = some (.write (.refused r))) ∨ ¬ c.HasText →
        ∀ after c', SameSubmit (start.submitAll (before ++ c :: after))
          (start.submitAll (before ++ after)) c') := by
  intro w
  have hopen : w.output.room = none := Writer.unlimited_submitAll hroom before
  have hunbroken : w.naming.Unbroken := by
    rw [naming_submitAll]
    exact unbroken_foldl_after hstart fun c hc => hbefore c (List.mem_of_mem_filter hc)
  have hsettled := submitSettled_submit hopen hunbroken hc
  refine ⟨hsettled, fun hfails after c' => ?_⟩
  have hnaming : (w.submit c).1.naming = w.naming := by
    rcases hfails with ⟨r, hr⟩ | htext
    · exact (hsettled.refused r hr).1
    · rw [hsettled.untouched htext]
  rw [Writer.submitAll_append, Writer.submitAll_append, Writer.submitAll_cons]
  refine sameSubmit_of_naming (Writer.unlimited_submitAll (Writer.unlimited_submit hopen c) after)
    (Writer.unlimited_submitAll hopen after) ?_ c'
  rw [naming_submitAll, naming_submitAll, hnaming]

/-- A function with a comparison and a refused push. -/
def commandsBefore : List Command := [.function "Main.f" 1, .arithmetic "eq", .push "pointer" 2]

theorem failed_command_inert_constantPop :
    let start : Writer := { naming := { unit := "Main" } }
    let w := start.submitAll commandsBefore
    let c : Command := .pop "constant" 3
    (w.submit c).2 = some (.write (.refused .constantPop)) ∧
      SubmitSettled w c (w.submit c).1 (w.submit c).2 ∧
      ∀ after c', SameSubmit (start.submitAll (commandsBefore ++ c :: after))
        (start.submitAll (commandsBefore ++ after)) c' := by
  intro start w c
  have hfault : (w.submit c).2 = some (.write (.refused .constantPop)) := by decide +kernel
  obtain ⟨hsettled, hlater⟩ := @failed_command_inert start commandsBefore c rfl
    ⟨by decide, by decide⟩ (by decide) (by decide)
  exact ⟨hfault, hsettled, hlater (.inl ⟨_, hfault⟩)⟩

/-- The largest count that is printed is too large for the frame.  The call fails though it is not
to be refused, and has used up the number of its return label. -/
theorem overlong_call_unfinished :
    let w : Writer := { naming := { unit := "Test" } }
    let c : Command := .call "g" (printLimit - 1)
    w.naming.Unbroken ∧ c.Unbroken ∧ (w.submit c).2 = some .overlong ∧
      (∀ sort, ¬ c.RefusedAs sort) ∧ (w.submit c).1.naming = { w.naming with calls := 2 } := by
  intro w c
  have hlimit := maxNumber_add_frameSize_lt
  have hcount : FitsNumeral (printLimit - 1) := by
    show ((printLimit : Int) - 1).natAbs < printLimit
    omega
  have hframe : ¬ FitsNumeral (printLimit - 1 + frameSize) := by
    have hfive : frameSize = 5 := rfl
    show ¬ ((printLimit : Int) - 1 + frameSize).natAbs < printLimit
    omega
  have htext : c.HasText := by
    intro k hk
    rwa [← Option.some.inj hk]
  have hcalls : FitsNumeral w.naming.calls := fitsNumeral_of_isIndex (k := 0) ⟨by decide, by decide⟩
    (j := 1) (by decide)
  have hcut : c.cut? w.naming = some (frameCode w.naming.returnLabel) := by
    rw [Command.cut?, if_neg (not_not_intro hcalls)]
    exact if_pos hframe
  refine ⟨⟨by decide, by decide⟩, ?unbroken, ?overlong, ?refused, ?naming⟩
  case unbroken => exact ⟨by decide, by decide⟩
  case overlong =>
    rw [Writer.submit_of_unlimited rfl htext, hcut]
    rfl
  case refused =>
    intro sort hrefused
    rw [cut?_of_refusedAs hrefused] at hcut
    cases hcut
  case naming =>
    rw [Writer.naming_submit, if_pos htext]
    rfl

end VmToHack
