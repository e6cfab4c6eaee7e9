import VmToHack.Proofs.Ledger
set_option autoImplicit false

/-!
# Inert lines: bad lines leave no trace

A line with an issue changes nothing for the lines behind it: the names stand where they stood
(`namingAfter_of_not_isQuiet`), and what is written for it is at most a block of two comments.
So the ledger of a text without its bad lines is the ledger of the text without their entries
(`ledger_quiet`), and the two passes differ by these blocks alone: `bad_lines_inert`.
-/

namespace VmToHack

open VmToHack.Hack VmToHack.Text

/-! ## Outcomes without an issue -/

/-- The line has no issue. -/
def LineOutcome.isQuiet : LineOutcome → Bool
  | .refused _ _ => false
  | .faulty _ => false
  | _ => true

/-- The site of the command that a line says, refused or not. -/
def LineOutcome.site? : LineOutcome → Option Site
  | .translated s => some s
  | .refused s _ => some s
  | _ => none

/-- The line is counted as a command. -/
def LineOutcome.isTranslated : LineOutcome → Bool
  | .translated _ => true
  | _ => false

theorem isCounted_eq (e : LedgerEntry) : e.isCounted = e.outcome.isTranslated := by
  unfold LedgerEntry.isCounted LineOutcome.isTranslated
  split <;> simp_all

theorem issue?_eq_none_iff (file : String) {e : LedgerEntry} :
    e.issue? file = none ↔ e.outcome.isQuiet = true := by
  unfold LedgerEntry.issue? LineOutcome.isQuiet
  split <;> simp_all

/-- A command that is not refused has no issue, and a refused one has. -/
theorem isQuiet_ofSite (s : Site) : (LineOutcome.ofSite s).isQuiet = s.block.refusal.isNone := by
  unfold LineOutcome.ofSite
  cases s.block.refusal <;> rfl

theorem site?_ofSite (s : Site) : (LineOutcome.ofSite s).site? = some s := by
  unfold LineOutcome.ofSite
  cases s.block.refusal <;> rfl

/-! ## Entries without an issue -/

/-- A line with an issue leaves the names as they were. -/
theorem namingAfter_of_not_isQuiet {line : SourceLine} {n : Naming}
    (h : (line.outcome n).isQuiet = false) : line.namingAfter n = n := by
  unfold SourceLine.namingAfter
  cases hcommand : line.command? with
  | none => rfl
  | some c =>
    rw [outcome_of_command?_eq_some hcommand, isQuiet_ofSite] at h
    obtain ⟨r, hr⟩ := Option.isSome_iff_exists.mp (Option.isNone_eq_false_iff.mp h)
    exact Command.naming_block_of_refusal hr

/-- Lines with issues can be left out before or after: the other entries are the same. -/
theorem ledger_quiet (n : Naming) (lines : List SourceLine) :
    ledger n (((ledger n lines).filter fun e => e.outcome.isQuiet).map LedgerEntry.line) =
      (ledger n lines).filter fun e => e.outcome.isQuiet := by
  induction lines generalizing n with
  | nil => rfl
  | cons line lines ih =>
    rw [ledger]
    cases hquiet : (line.outcome n).isQuiet with
    | true => simp only [List.filter_cons, hquiet, if_true, List.map_cons, ledger, ih]
    | false =>
      simp only [List.filter_cons, hquiet, namingAfter_of_not_isQuiet hquiet, Bool.false_eq_true,
        if_false, ih]

/-- What becomes of lines does not depend on their numbers. -/
theorem map_outcome_ledger {lines lines' : List SourceLine}
    (h : lines.map SourceLine.text = lines'.map SourceLine.text) (n : Naming) :
    (ledger n lines).map LedgerEntry.outcome = (ledger n lines').map LedgerEntry.outcome := by
  induction lines generalizing lines' n with
  | nil =>
    cases lines' with
    | nil => rfl
    | cons line' lines' => cases h
  | cons line lines ih =>
    cases lines' with
    | nil => cases h
    | cons line' lines' =>
      obtain ⟨htext, hrest⟩ := List.cons.inj h
      have houtcome : line.outcome n = line'.outcome n := by
        unfold SourceLine.outcome
        rw [htext]
      have hnaming : line.namingAfter n = line'.namingAfter n := by
        unfold SourceLine.namingAfter SourceLine.command?
        rw [htext]
      rw [ledger, ledger, List.map_cons, List.map_cons, houtcome, hnaming, ih hrest]

/-- The lines with commands are the entries with a site. -/
theorem commandSites_eq (n : Naming) (lines : List SourceLine) :
    commandSites n lines =
      (ledger n lines).filterMap fun e => e.outcome.site?.map fun s => (e.line, s) := by
  induction lines generalizing n with
  | nil => rfl
  | cons line lines ih =>
    rw [ledger, List.filterMap_cons, ← ih]
    cases h : line.command? with
    | none =>
      have hsite : (line.outcome n).site? = none := by
        unfold SourceLine.command? at h
        unfold SourceLine.outcome
        split <;> simp_all [LineOutcome.site?]
      rw [commandSites_cons_none h, hsite]
      rfl
    | some c =>
      rw [commandSites_cons_some h, outcome_of_command?_eq_some h, site?_ofSite]
      rfl

/-- The site of an entry tells whether the entry has an issue. -/
theorem isQuiet_of_site? {line : SourceLine} {n : Naming} {s : Site}
    (h : (line.outcome n).site? = some s) :
    (line.outcome n).isQuiet = s.block.refusal.isNone := by
  cases hcommand : line.command? with
  | none =>
    unfold SourceLine.command? at hcommand
    unfold SourceLine.outcome at h
    split at h <;> simp_all [LineOutcome.site?]
  | some c =>
    rw [outcome_of_command?_eq_some hcommand] at h ⊢
    rw [site?_ofSite] at h
    cases h
    exact isQuiet_ofSite _

/-- A line that is counted has no issue. -/
theorem isQuiet_of_isTranslated {o : LineOutcome} (h : o.isTranslated = true) :
    o.isQuiet = true := by
  cases o <;> first | rfl | cases h

/-! ## What is written -/

theorem blocks_writeAll (n : Naming) (blocks : Array (List Line)) (cs : List Command) :
    (Writer.writeAll ⟨n, ⟨none, blocks⟩⟩ cs).1.output.blocks.toList =
      blocks.toList ++ (sites n cs).map Site.lines := by
  induction cs generalizing n blocks with
  | nil => simp [Writer.writeAll, sites]
  | cons c cs ih =>
    rw [writeAll_cons, ih, sites, Array.toList_push, List.append_assoc]
    rfl

theorem map_snd_commandSites (n : Naming) (lines : List SourceLine) :
    (commandSites n lines).map Prod.snd = sites n (lines.filterMap SourceLine.command?) := by
  have h := congrArg (List.map Prod.snd) (map_commandSites n lines)
  simpa [Function.comp_def] using h

/-- Instructions and labels; comments are none. -/
def Hack.Line.isCode : Line → Bool
  | .comment _ => false
  | _ => true

/-- The block of a refused command is two comments. -/
theorem Site.lines_of_refusal {s : Site} {r : Refusal} (h : s.block.refusal = some r) :
    s.lines = [.comment s.command.text, .comment (r.remark s.command)] := by
  unfold Site.lines
  unfold Site.block Command.block at h ⊢
  split <;> simp_all

/-- Without the blocks of refused commands the code is the same. -/
theorem filter_isCode_flatMap (ss : List Site) :
    ((ss.filter fun s => s.block.refusal.isNone).flatMap Site.lines).filter Line.isCode =
      (ss.flatMap Site.lines).filter Line.isCode := by
  induction ss with
  | nil => rfl
  | cons s ss ih =>
    rw [List.flatMap_cons, List.filter_append, ← ih]
    cases hr : s.block.refusal with
    | none =>
      rw [List.filter_cons_of_pos (by simp [hr]), List.flatMap_cons, List.filter_append]
    | some r =>
      rw [List.filter_cons_of_neg (by simp [hr]), s.lines_of_refusal hr]
      rfl

/-! ## The translation of a text -/

section

variable (file : String) (text : List Char)

/-- The entries of a text. -/
def ledgerOf : List LedgerEntry := ledger { unit := unitLabel file } (numberedLines text)

/-- What the translation of a text adds up. -/
def tallyOf : Tally := .ofLedger file (ledgerOf file text)

/-- What the translation of a text has written. -/
def writerOf : Writer :=
  ((Writer.ofFile file).writeAll ((numberedLines text).filterMap SourceLine.command?)).1

variable {text} in
theorem translateSource_eq_of_evaluable (h : Evaluable text) :
    translateSource text file {} = (writerOf file text, .ok (tallyOf file text)) :=
  translateSource_of_evaluable h file

/-- There is a block for each line with a command. -/
theorem blocks_writerOf :
    (writerOf file text).output.blocks.toList =
      ((commandSitesOf file text).map Prod.snd).map Site.lines := by
  rw [commandSitesOf, map_snd_commandSites]
  exact blocks_writeAll { unit := unitLabel file } #[] _

theorem lines_writerOf :
    (writerOf file text).output.lines =
      ((commandSitesOf file text).map Prod.snd).flatMap Site.lines := by
  rw [Output.lines, blocks_writerOf, List.flatMap_def]

theorem map_snd_commandSitesOf :
    (commandSitesOf file text).map Prod.snd =
      ((ledgerOf file text).map LedgerEntry.outcome).filterMap LineOutcome.site? := by
  rw [commandSitesOf, commandSites_eq, List.map_filterMap, List.filterMap_map]
  refine List.filterMap_congr fun e _ => ?_
  rw [Option.map_map]
  exact Option.map_id'

theorem commands_tallyOf :
    (tallyOf file text).commands =
      ((ledgerOf file text).map LedgerEntry.outcome).countP LineOutcome.isTranslated := by
  rw [List.countP_map]
  exact List.countP_congr fun e _ => by rw [isCounted_eq]; rfl

theorem issues_tallyOf_eq_nil_iff :
    (tallyOf file text).issues = [] ↔
      ∀ o ∈ (ledgerOf file text).map LedgerEntry.outcome, o.isQuiet = true := by
  rw [List.forall_mem_map]
  exact List.filterMap_eq_nil_iff.trans (forall₂_congr fun e _ => issue?_eq_none_iff file)

/-- The refused commands are those that have an issue. -/
theorem isSome_refusal_iff {x : SourceLine × Site} (hx : x ∈ commandSitesOf file text) :
    x.2.block.refusal.isSome ↔ ∃ i ∈ (tallyOf file text).issues, i.line = x.1.number := by
  rw [commandSitesOf, commandSites_eq] at hx
  obtain ⟨e, he, hsite⟩ := List.mem_filterMap.mp hx
  obtain ⟨s, hs, rfl⟩ := Option.map_eq_some_iff.mp hsite
  obtain ⟨n, houtcome⟩ := exists_outcome_of_mem_ledger he
  have hquiet : e.outcome.isQuiet = s.block.refusal.isNone := by
    rw [houtcome] at hs ⊢
    exact isQuiet_of_site? hs
  calc s.block.refusal.isSome = true
      ↔ e.outcome.isQuiet ≠ true := by rw [hquiet]; cases s.block.refusal <;> simp
    _ ↔ ∃ i, e.issue? file = some i := by
        rw [ne_eq, ← issue?_eq_none_iff file]
        exact Option.ne_none_iff_exists'
    _ ↔ _ := exists_congr fun i => (mem_issues_iff he i).symm

end

/-! ## Texts without their bad lines -/

/-- None of the issues is at the line. -/
def SourceLine.isWithout (issues : List Issue) (line : SourceLine) : Bool :=
  issues.all fun i => i.line != line.number

/-- The lines of a text at which there is no issue, each ended by a line feed. -/
def textWithout (issues : List Issue) (text : List Char) : List Char :=
  endLines (((numberedLines text).filter (SourceLine.isWithout issues)).map SourceLine.text)

theorem splitLines_textWithout (issues : List Issue) (text : List Char) :
    splitLines (textWithout issues text) =
      ((numberedLines text).filter (SourceLine.isWithout issues)).map SourceLine.text := by
  refine splitLines_endLines fun line hline => ?_
  obtain ⟨sl, hsl, rfl⟩ := List.mem_map.mp hline
  exact not_isLineBreak_of_mem_splitLines
    (text_mem_of_mem_numberedLines (List.mem_of_mem_filter hsl))

theorem Evaluable.textWithout {text : List Char} (h : Evaluable text) (issues : List Issue) :
    Evaluable (textWithout issues text) := by
  intro line hline
  rw [splitLines_textWithout] at hline
  obtain ⟨sl, hsl, rfl⟩ := List.mem_map.mp hline
  exact h _ (text_mem_of_mem_numberedLines (List.mem_of_mem_filter hsl))

section

variable (file : String) (text : List Char)

theorem isWithout_eq {e : LedgerEntry} (he : e ∈ ledgerOf file text) :
    e.line.isWithout (tallyOf file text).issues = e.outcome.isQuiet := by
  rw [Bool.eq_iff_iff, ← issue?_eq_none_iff file, SourceLine.isWithout, List.all_eq_true]
  constructor
  · intro hall
    cases hissue : e.issue? file with
    | none => rfl
    | some i =>
      obtain ⟨hi, hline⟩ := (mem_issues_iff he i).mpr hissue
      simpa [hline] using hall i hi
  · intro hnone i hi
    rw [bne_iff_ne]
    intro hline
    rw [(mem_issues_iff he i).mp ⟨hi, hline⟩] at hnone
    cases hnone

/-- The lines without an issue are those of the entries without one. -/
theorem filter_isWithout :
    (numberedLines text).filter (SourceLine.isWithout (tallyOf file text).issues) =
      ((ledgerOf file text).filter fun e => e.outcome.isQuiet).map LedgerEntry.line := by
  conv_lhs => rw [← map_line_ledger { unit := unitLabel file } (numberedLines text)]
  rw [List.filter_map]
  exact congrArg (List.map LedgerEntry.line)
    (List.filter_congr fun e he => isWithout_eq file text he)

/-- What becomes of the lines of a text that have no issue stays the same without the others. -/
theorem map_outcome_textWithout :
    (ledgerOf file (textWithout (tallyOf file text).issues text)).map LedgerEntry.outcome =
      ((ledgerOf file text).map LedgerEntry.outcome).filter LineOutcome.isQuiet := by
  have htexts :
      (numberedLines (textWithout (tallyOf file text).issues text)).map SourceLine.text =
        (((ledgerOf file text).filter fun e => e.outcome.isQuiet).map LedgerEntry.line).map
          SourceLine.text := by
    rw [numberedLines, map_text_numbered, splitLines_textWithout, filter_isWithout]
  rw [ledgerOf, map_outcome_ledger htexts, ledgerOf, ledger_quiet, List.filter_map]
  rfl

/-- The sites that remain are those of the commands that are not refused. -/
theorem commandSites_textWithout :
    (commandSitesOf file (textWithout (tallyOf file text).issues text)).map Prod.snd =
      ((commandSitesOf file text).map Prod.snd).filter fun s => s.block.refusal.isNone := by
  rw [map_snd_commandSitesOf, map_snd_commandSitesOf, map_outcome_textWithout,
    List.filterMap_filter, List.filter_filterMap]
  refine List.filterMap_congr fun o ho => ?_
  obtain ⟨e, he, rfl⟩ := List.mem_map.mp ho
  obtain ⟨n, houtcome⟩ := exists_outcome_of_mem_ledger he
  rw [houtcome]
  cases hsite : (e.line.outcome n).site? with
  | none => simp
  | some s => simp [isQuiet_of_site? hsite, Option.filter]

end

/-! ## Inert lines -/

/-- Two translations, the second one of the text without the lines at which the first one has an
issue. -/
structure BadLinesInert (file : String) (text : List Char) (w : Writer) (tally : Tally)
    (w' : Writer) (tally' : Tally) : Prop where
  noIssues : tally'.issues = []
  sameCount : tally'.commands = tally.commands
  /-- The first output has a block for each line with a command. -/
  written : w.output.blocks.toList = (commandSitesOf file text).map fun x => x.2.lines
  /-- The second output has the blocks of the commands that are not refused, and no others. -/
  kept : w'.output.blocks.toList =
    ((commandSitesOf file text).filter fun x => x.2.block.refusal.isNone).map fun x => x.2.lines
  /-- The refused commands are those with an issue at their line. -/
  refused : ∀ x ∈ commandSitesOf file text,
    x.2.block.refusal.isSome ↔ ∃ i ∈ tally.issues, i.line = x.1.number
  /-- The block of a refused command is two comments. -/
  remarks : ∀ x ∈ commandSitesOf file text, ∀ r, x.2.block.refusal = some r →
    x.2.lines = [.comment x.2.command.text, .comment (r.remark x.2.command)]
  sameCode : w'.output.lines.filter Line.isCode = w.output.lines.filter Line.isCode

/-- Bad lines are inert: without them the translation has no issues, counts the same commands
and puts out the same but for the two comments of each refused command. -/
theorem bad_lines_inert {text : List Char} (h : Evaluable text) (file : String) :
    ∃ w tally w' tally', translateSource text file {} = (w, .ok tally) ∧
      translateSource (textWithout tally.issues text) file {} = (w', .ok tally') ∧
      BadLinesInert file text w tally w' tally' := by
  refine ⟨_, _, _, _, translateSource_eq_of_evaluable file h,
    translateSource_eq_of_evaluable file (h.textWithout _), ?_⟩
  constructor
  case noIssues =>
    rw [issues_tallyOf_eq_nil_iff, map_outcome_textWithout]
    exact fun o ho => (List.mem_filter.mp ho).2
  case sameCount =>
    rw [commands_tallyOf, commands_tallyOf, map_outcome_textWithout, List.countP_filter]
    refine List.countP_congr fun o _ => ?_
    simpa using isQuiet_of_isTranslated
  case written => rw [blocks_writerOf, List.map_map]; rfl
  case kept =>
    rw [blocks_writerOf, commandSites_textWithout, List.filter_map, List.map_map]
    rfl
  case refused => exact fun x hx => isSome_refusal_iff file text hx
  case remarks => exact fun x _ r hr => x.2.lines_of_refusal hr
  case sameCode =>
    rw [lines_writerOf, lines_writerOf, commandSites_textWithout, filter_isCode_flatMap]

theorem bad_lines_inert_mixed :
    Evaluable mixedText ∧
    ∃ w tally w' tally', translateSource mixedText "Main.vm" {} = (w, .ok tally) ∧
      translateSource (textWithout tally.issues mixedText) "Main.vm" {} = (w', .ok tally') ∧
      BadLinesInert "Main.vm" mixedText w tally w' tally' := by
  have h : Evaluable mixedText := evaluable_of_length_le (by decide)
  exact ⟨h, bad_lines_inert h "Main.vm"⟩

end VmToHack
