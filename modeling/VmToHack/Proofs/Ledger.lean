import Mathlib.Data.List.Nodup
import VmToHack.Proofs.Program
import VmToHack.Proofs.SourceLines
set_option autoImplicit false

/-!
# Ledger: every line of a pass accounted for

Reading a text and translating it are two loops over its lines, and only the second one knows
which commands are refused.  The ledger of a pass has one entry for each line, with what became
of the line.  What is read (`readLines_eq`) and what comes out of the pass
(`translateLines_append`) are projections of it; so the two loops are compared entry by entry,
and a line is counted, reported or passed over as its one entry says.  `translation_accounts`
is what follows for a whole text.
-/

namespace VmToHack

open VmToHack.Grammar VmToHack.Hack VmToHack.Text

/-! ## What lines say -/

/-- The command that a line says. -/
def SourceLine.command? (line : SourceLine) : Option Command :=
  match readLine line.text with
  | .ok (.command c) => some c
  | _ => none

/-- The error that a line says, with the number of the line. -/
def SourceLine.diagnostic? (line : SourceLine) : Option Diagnostic :=
  match readLine line.text with
  | .ok (.error e) => some ⟨line.number, e⟩
  | _ => none

theorem command?_eq_some_iff {line : SourceLine} {c : Command} :
    line.command? = some c ↔ readLine line.text = .ok (.command c) := by
  unfold SourceLine.command?
  split
  · next hread => rw [hread, Option.some.injEq, Except.ok.injEq, Reading.command.injEq]
  · next hread => exact iff_of_false nofun (hread c)

/-- Lines are read one by one. -/
theorem readLines_eq {lines : List SourceLine}
    (h : ∀ line ∈ lines, ∃ r, readLine line.text = .ok r) :
    readLines lines =
      .ok ⟨lines.filterMap SourceLine.command?, lines.filterMap SourceLine.diagnostic?⟩ := by
  induction lines with
  | nil => rfl
  | cons line lines ih =>
    obtain ⟨⟨reading, hreading⟩, hlines⟩ := List.forall_mem_cons.mp h
    rw [readLines, ih hlines, hreading, List.filterMap_cons, List.filterMap_cons]
    unfold SourceLine.command? SourceLine.diagnostic?
    rw [hreading]
    cases reading <;> rfl

/-! ## The ledger -/

/-- What becomes of a line. -/
inductive LineOutcome where
  /-- nothing is said -/
  | silent
  | translated (s : Site)
  | refused (s : Site) (r : Refusal)
  /-- a line that is no command -/
  | faulty (e : LineError)
  /-- a line on which the pass ends -/
  | unread (o : OverlongNumeral)
  deriving DecidableEq, Repr, Inhabited

/-- A line and what becomes of it. -/
structure LedgerEntry where
  line : SourceLine
  outcome : LineOutcome
  deriving DecidableEq, Repr, Inhabited

/-- What becomes of a command. -/
def LineOutcome.ofSite (s : Site) : LineOutcome :=
  match s.block.refusal with
  | none => .translated s
  | some r => .refused s r

/-- What becomes of a line that is translated with given names. -/
def SourceLine.outcome (line : SourceLine) (n : Naming) : LineOutcome :=
  match readLine line.text with
  | .error o => .unread o
  | .ok .blank => .silent
  | .ok (.error e) => .faulty e
  | .ok (.command c) => .ofSite ⟨n, c⟩

/-- The names behind a line. -/
def SourceLine.namingAfter (line : SourceLine) (n : Naming) : Naming :=
  match line.command? with
  | some c => (c.block n).naming
  | none => n

/-- The entries of lines, of which the first is translated with given names. -/
def ledger (n : Naming) : List SourceLine → List LedgerEntry
  | [] => []
  | line :: lines => ⟨line, line.outcome n⟩ :: ledger (line.namingAfter n) lines

namespace LedgerEntry

/-- The line is counted as a command. -/
def isCounted (e : LedgerEntry) : Bool :=
  match e.outcome with
  | .translated _ => true
  | _ => false

/-- The issue of a line. -/
def issue? (file : String) (e : LedgerEntry) : Option Issue :=
  match e.outcome with
  | .refused s r => some (Issue.ofRefusal file e.line s.command r)
  | .faulty f => some (Issue.ofLineError file e.line f)
  | _ => none

theorem line_of_issue? {file : String} {e : LedgerEntry} {i : Issue} (h : e.issue? file = some i) :
    i.line = e.line.number := by
  unfold issue? at h
  split at h <;> cases h <;> rfl

end LedgerEntry

/-- There is one entry for each line. -/
theorem map_line_ledger (n : Naming) (lines : List SourceLine) :
    (ledger n lines).map LedgerEntry.line = lines := by
  induction lines generalizing n with
  | nil => rfl
  | cons line lines ih => rw [ledger, List.map_cons, ih]

/-- What a pass adds up over some entries. -/
def Tally.ofLedger (file : String) (entries : List LedgerEntry) : Tally where
  commands := entries.countP LedgerEntry.isCounted
  issues := entries.filterMap (LedgerEntry.issue? file)

/-- What two passes in a row add up. -/
def Tally.add (t t' : Tally) : Tally where
  commands := t.commands + t'.commands
  issues := t.issues ++ t'.issues

@[simp] theorem Tally.ofLedger_nil_add (file : String) (t : Tally) :
    (Tally.ofLedger file []).add t = t := by
  simp [Tally.ofLedger, Tally.add]

@[simp] theorem Tally.add_empty (t : Tally) : t.add {} = t := by
  simp [Tally.add]

theorem Tally.ofLedger_translated_add (file : String) (line : SourceLine) (s : Site)
    (entries : List LedgerEntry) (t : Tally) :
    (Tally.ofLedger file (⟨line, .translated s⟩ :: entries)).add t =
      ((Tally.ofLedger file entries).add t).count := by
  have hcount : (⟨line, .translated s⟩ :: entries).countP LedgerEntry.isCounted =
      entries.countP LedgerEntry.isCounted + 1 := List.countP_cons_of_pos rfl
  simp only [Tally.add, Tally.ofLedger, Tally.count, hcount]
  congr 1
  omega

/-- A pass over lines that are read goes on behind them with what has been written, and what
it adds up comes behind what they add up. -/
theorem translateLines_append {file : String} {n : Naming} {blocks : Array (List Line)}
    {before after : List SourceLine} {w : Writer} {result : Except Abort Tally}
    (h : ∀ line ∈ before, ∃ r, readLine line.text = .ok r)
    (hafter : translateLines file
      (Writer.writeAll ⟨n, ⟨none, blocks⟩⟩ (before.filterMap SourceLine.command?)).1 after =
        (w, result)) :
    translateLines file ⟨n, ⟨none, blocks⟩⟩ (before ++ after) =
      (w, result.map (Tally.add (.ofLedger file (ledger n before)))) := by
  -- The names and the blocks move on from line to line; what comes behind stays fixed.
  induction before generalizing n blocks with
  | nil =>
    refine hafter.trans ?_
    cases result with
    | error a => rfl
    | ok t => simp [ledger, Except.map]
  | cons line lines ih =>
    obtain ⟨⟨reading, hreading⟩, hlines⟩ := List.forall_mem_cons.mp h
    rw [List.cons_append, translateLines, hreading]
    rw [List.filterMap_cons, SourceLine.command?, hreading] at hafter
    rw [ledger, SourceLine.outcome, SourceLine.namingAfter, SourceLine.command?, hreading]
    cases reading with
    | blank =>
      exact ih hlines hafter
    | error e =>
      simp only [ih hlines hafter]
      cases result <;> rfl
    | command c =>
      simp only [writeAll_cons] at hafter
      simp only [write_unbounded, LineOutcome.ofSite, Site.block]
      cases hr : (c.block n).refusal with
      | none =>
        simp only [Option.map_none, ih hlines hafter]
        cases result with
        | error a => rfl
        | ok t => exact congrArg (fun t => (w, Except.ok t)) (Tally.ofLedger_translated_add ..).symm
      | some r =>
        simp only [Option.map_some, ih hlines hafter]
        cases result <;> rfl

/-! ## Entries of one ledger -/

theorem exists_outcome_of_mem_ledger {n : Naming} {lines : List SourceLine} {e : LedgerEntry}
    (h : e ∈ ledger n lines) : ∃ n', e.outcome = e.line.outcome n' := by
  induction lines generalizing n with
  | nil => cases h
  | cons line lines ih =>
    rcases List.mem_cons.mp h with rfl | h
    · exact ⟨n, rfl⟩
    · exact ih h

theorem line_mem_of_mem_ledger {n : Naming} {lines : List SourceLine} {e : LedgerEntry}
    (h : e ∈ ledger n lines) : e.line ∈ lines := by
  rw [← map_line_ledger n lines]
  exact List.mem_map_of_mem h

theorem exists_entry_of_mem {n : Naming} {lines : List SourceLine} {line : SourceLine}
    (h : line ∈ lines) : ∃ e ∈ ledger n lines, e.line = line := by
  rw [← map_line_ledger n lines] at h
  exact List.mem_map.mp h

/-- A line that is read and says something is counted or has an issue, and a line that says
nothing neither. -/
theorem disposed_of_mem_ledger (file : String) {n : Naming} {lines : List SourceLine}
    {e : LedgerEntry} (h : e ∈ ledger n lines) (hread : ∃ r, readLine e.line.text = .ok r) :
    readLine e.line.text = .ok .blank ∧ e.isCounted = false ∧ e.issue? file = none ∨
    readLine e.line.text ≠ .ok .blank ∧ e.isCounted = true ∧ e.issue? file = none ∨
    readLine e.line.text ≠ .ok .blank ∧ e.isCounted = false ∧ ∃ i, e.issue? file = some i := by
  obtain ⟨n', houtcome⟩ := exists_outcome_of_mem_ledger h
  obtain ⟨r, hr⟩ := hread
  unfold SourceLine.outcome at houtcome
  rw [hr] at houtcome ⊢
  unfold LedgerEntry.isCounted LedgerEntry.issue?
  rw [houtcome]
  cases r with
  | blank => exact .inl ⟨rfl, rfl, rfl⟩
  | error f => exact .inr (.inr ⟨fun h => (by cases h), rfl, _, rfl⟩)
  | command c =>
    simp only [LineOutcome.ofSite]
    cases (Site.block ⟨n', c⟩).refusal with
    | none => exact .inr (.inl ⟨fun h => (by cases h), rfl, rfl⟩)
    | some r => exact .inr (.inr ⟨fun h => (by cases h), rfl, _, rfl⟩)

section Numbers

variable {n : Naming} {lines : List SourceLine}

theorem pairwise_ledger (h : lines.Pairwise fun a b => a.number < b.number) :
    (ledger n lines).Pairwise fun a b => a.line.number < b.line.number := by
  rw [← map_line_ledger n lines] at h
  exact (List.pairwise_map (f := LedgerEntry.line)).mp h

/-- Where the numbers go up, no two entries have one. -/
theorem entry_unique (h : lines.Pairwise fun a b => a.number < b.number) {e e' : LedgerEntry}
    (he : e ∈ ledger n lines) (he' : e' ∈ ledger n lines)
    (hnumber : e.line.number = e'.line.number) : e = e' := by
  have hnodup : ((ledger n lines).map fun e => e.line.number).Nodup :=
    List.pairwise_map.mpr ((pairwise_ledger h).imp Nat.ne_of_lt)
  exact List.inj_on_of_nodup_map hnodup he he' hnumber

theorem pairwise_issues (h : lines.Pairwise fun a b => a.number < b.number) (file : String) :
    ((ledger n lines).filterMap (LedgerEntry.issue? file)).Pairwise fun i j => i.line < j.line := by
  refine (pairwise_ledger h).filterMap _ ?_
  intro e e' hlt i hi j hj
  rw [LedgerEntry.line_of_issue? hi, LedgerEntry.line_of_issue? hj]
  exact Int.ofNat_lt.mpr hlt

end Numbers

/-! ## Lines with commands -/

/-- The lines with commands among some lines, each with the site of its command. -/
def commandSites (n : Naming) (lines : List SourceLine) : List (SourceLine × Site) :=
  (lines.filter fun line => line.command?.isSome).zip
    (sites n (lines.filterMap SourceLine.command?))

/-- The lines with commands that are not refused. -/
def countedLines (n : Naming) (lines : List SourceLine) : List SourceLine :=
  ((commandSites n lines).filter fun x => x.2.block.refusal.isNone).map Prod.fst

theorem commandSites_cons_some {n : Naming} {line : SourceLine} {lines : List SourceLine}
    {c : Command} (h : line.command? = some c) :
    commandSites n (line :: lines) =
      (line, ⟨n, c⟩) :: commandSites (line.namingAfter n) lines := by
  unfold commandSites SourceLine.namingAfter
  rw [List.filter_cons_of_pos (by rw [h]; rfl), List.filterMap_cons_some h, h]
  rfl

theorem commandSites_cons_none {n : Naming} {line : SourceLine} {lines : List SourceLine}
    (h : line.command? = none) :
    commandSites n (line :: lines) = commandSites (line.namingAfter n) lines := by
  unfold commandSites SourceLine.namingAfter
  rw [List.filter_cons_of_neg (by rw [h]; decide), List.filterMap_cons_none h, h]

/-- The sites are those of the commands, so the commands are found at their lines. -/
theorem map_commandSites (n : Naming) (lines : List SourceLine) :
    (commandSites n lines).map (fun x => (x.1.command?, x.2)) =
      (sites n (lines.filterMap SourceLine.command?)).map fun s => (some s.command, s) := by
  induction lines generalizing n with
  | nil => rfl
  | cons line lines ih =>
    cases h : line.command? with
    | none =>
      rw [commandSites_cons_none h, List.filterMap_cons_none h, ih, SourceLine.namingAfter, h]
    | some c =>
      rw [commandSites_cons_some h, List.filterMap_cons_some h, List.map_cons, ih, sites,
        SourceLine.namingAfter, h]
      rfl

theorem outcome_of_command?_eq_some {line : SourceLine} {c : Command}
    (h : line.command? = some c) (n : Naming) : line.outcome n = .ofSite ⟨n, c⟩ := by
  rw [SourceLine.outcome, command?_eq_some_iff.mp h]

/-- Without a command a line is not counted, and its issue is the error that it says. -/
theorem entry_of_command?_eq_none {line : SourceLine} (h : line.command? = none) (n : Naming)
    (file : String) :
    LedgerEntry.isCounted ⟨line, line.outcome n⟩ = false ∧
      LedgerEntry.issue? file ⟨line, line.outcome n⟩ =
        line.diagnostic?.map fun d => Issue.ofLineError file line d.error := by
  unfold SourceLine.command? at h
  unfold LedgerEntry.isCounted LedgerEntry.issue? SourceLine.outcome SourceLine.diagnostic?
  cases hread : readLine line.text with
  | error o => exact ⟨rfl, rfl⟩
  | ok r =>
    rw [hread] at h
    cases r with
    | command c => cases h
    | _ => exact ⟨rfl, rfl⟩

/-- With a command a line is counted or has the issue of its refusal. -/
theorem entry_ofSite (line : SourceLine) (s : Site) (file : String) :
    LedgerEntry.isCounted ⟨line, .ofSite s⟩ = s.block.refusal.isNone ∧
      LedgerEntry.issue? file ⟨line, .ofSite s⟩ =
        s.block.refusal.map (Issue.ofRefusal file line s.command) := by
  unfold LedgerEntry.isCounted LedgerEntry.issue? LineOutcome.ofSite
  cases s.block.refusal <;> exact ⟨rfl, rfl⟩

theorem diagnostic?_of_command?_eq_some {line : SourceLine} {c : Command}
    (h : line.command? = some c) : line.diagnostic? = none := by
  rw [SourceLine.diagnostic?, command?_eq_some_iff.mp h]

/-- The entries that are counted stand at the lines that are counted. -/
theorem map_line_filter_ledger (n : Naming) (lines : List SourceLine) :
    ((ledger n lines).filter LedgerEntry.isCounted).map LedgerEntry.line =
      countedLines n lines := by
  induction lines generalizing n with
  | nil => rfl
  | cons line lines ih =>
    have hih := ih (line.namingAfter n)
    rw [ledger, countedLines]
    cases h : line.command? with
    | none =>
      obtain ⟨hcounted, -⟩ := entry_of_command?_eq_none h n ""
      rw [List.filter_cons_of_neg (by simp [hcounted]), commandSites_cons_none h]
      exact hih
    | some c =>
      rw [outcome_of_command?_eq_some h, commandSites_cons_some h]
      obtain ⟨hcounted, -⟩ := entry_ofSite line ⟨n, c⟩ ""
      cases hr : (Site.block ⟨n, c⟩).refusal with
      | none =>
        rw [List.filter_cons_of_pos (by rw [hcounted, hr]; rfl),
          List.filter_cons_of_pos (by rw [hr]; rfl), List.map_cons, List.map_cons, hih]
        rfl
      | some r =>
        rw [List.filter_cons_of_neg (by simp [hcounted, hr]),
          List.filter_cons_of_neg (by simp [hr])]
        exact hih

/-- The issues of one kind, entry by entry. -/
theorem parse_issues_ledger (file : String) (n : Naming) (lines : List SourceLine) :
    ((ledger n lines).filterMap (LedgerEntry.issue? file)).filter (fun i => i.kind = .parse) =
      lines.filterMap fun line => line.diagnostic?.map fun d =>
        Issue.ofLineError file line d.error := by
  rw [List.filter_filterMap]
  induction lines generalizing n with
  | nil => rfl
  | cons line lines ih =>
    rw [ledger, List.filterMap_cons, List.filterMap_cons, ih]
    cases h : line.command? with
    | none =>
      rw [(entry_of_command?_eq_none h n file).2]
      cases line.diagnostic? <;> rfl
    | some c =>
      rw [outcome_of_command?_eq_some h, (entry_ofSite line ⟨n, c⟩ file).2,
        diagnostic?_of_command?_eq_some h]
      cases (Site.block ⟨n, c⟩).refusal <;> rfl

theorem codegen_issues_ledger (file : String) (n : Naming) (lines : List SourceLine) :
    ((ledger n lines).filterMap (LedgerEntry.issue? file)).filter (fun i => i.kind = .codegen) =
      (commandSites n lines).filterMap fun x =>
        x.2.block.refusal.map (Issue.ofRefusal file x.1 x.2.command) := by
  rw [List.filter_filterMap]
  induction lines generalizing n with
  | nil => rfl
  | cons line lines ih =>
    rw [ledger, List.filterMap_cons, ih]
    cases h : line.command? with
    | none =>
      rw [(entry_of_command?_eq_none h n file).2, commandSites_cons_none h]
      cases line.diagnostic? <;> rfl
    | some c =>
      rw [outcome_of_command?_eq_some h, (entry_ofSite line ⟨n, c⟩ file).2,
        commandSites_cons_some h, List.filterMap_cons]
      cases (Site.block ⟨n, c⟩).refusal <;> rfl

theorem kind_of_issue? {file : String} {e : LedgerEntry} {i : Issue} (h : e.issue? file = some i) :
    i.kind = .parse ∨ i.kind = .codegen := by
  unfold LedgerEntry.issue? at h
  split at h <;> cases h
  · exact .inr rfl
  · exact .inl rfl

theorem countP_add_countP {α : Type} {p q r : α → Bool} {xs : List α}
    (h : ∀ x ∈ xs, (p x).toNat + (q x).toNat = (r x).toNat) :
    xs.countP p + xs.countP q = xs.countP r := by
  induction xs with
  | nil => rfl
  | cons x xs ih =>
    obtain ⟨hx, hxs⟩ := List.forall_mem_cons.mp h
    have hih := ih hxs
    rw [List.countP_cons, List.countP_cons, List.countP_cons]
    cases hp : p x <;> cases hq : q x <;> cases hr : r x <;> simp [hp, hq, hr] at hx ⊢ <;> omega

/-- As many lines say something as are counted and have an issue. -/
theorem count_ledger (file : String) (n : Naming) {lines : List SourceLine}
    {speaks : SourceLine → Bool} (h : ∀ line ∈ lines, ∃ r, readLine line.text = .ok r)
    (hspeaks : ∀ line ∈ lines, readLine line.text = .ok .blank ↔ speaks line = false) :
    (ledger n lines).countP LedgerEntry.isCounted +
        ((ledger n lines).filterMap (LedgerEntry.issue? file)).length =
      lines.countP speaks := by
  have hone : ∀ e ∈ ledger n lines,
      e.isCounted.toNat + (e.issue? file).isSome.toNat = (speaks e.line).toNat := by
    intro e he
    have hline := line_mem_of_mem_ledger he
    have hdisposed := disposed_of_mem_ledger file he (h _ hline)
    rw [ne_eq, hspeaks _ hline, Bool.not_eq_false] at hdisposed
    obtain ⟨hs, hc, hi⟩ | ⟨hs, hc, hi⟩ | ⟨hs, hc, i, hi⟩ := hdisposed <;> rw [hs, hc, hi] <;> rfl
  rw [List.length_filterMap_eq_countP, countP_add_countP hone]
  conv_rhs => rw [← map_line_ledger n lines, List.countP_map]
  rfl

/-! ## Whole texts -/

/-- No numeral in a command of the text is too long to be evaluated. -/
def Evaluable (text : List Char) : Prop :=
  ∀ line ∈ splitLines text, ∀ p : Phrase, p.OnLine line → ¬ p.Overlong

theorem Evaluable.readable {text : List Char} (h : Evaluable text) :
    ∀ line ∈ numberedLines text, ∃ r, readLine line.text = .ok r :=
  fun _ hline => exists_readLine_eq_ok_iff.mpr (h _ (text_mem_of_mem_numberedLines hline))

/-- Numerals on short lines are short. -/
theorem evaluable_of_length_le {text : List Char}
    (h : ∀ line ∈ splitLines text, line.length ≤ numeralLimit) : Evaluable text :=
  fun line hline _ => not_overlong_of_shortRuns (shortRuns_of_length_le (h line hline))

/-- The writer with which the translation of a file begins. -/
def Writer.ofFile (file : String) : Writer := { naming := { unit := unitLabel file } }

/-- The line of a text that has a given number. -/
def lineAt (text : List Char) (number : Nat) : SourceLine :=
  ⟨number, (splitLines text).getD (number - 1) []⟩

theorem lineAt_of_mem {text : List Char} {line : SourceLine} (h : line ∈ numberedLines text) :
    lineAt text line.number = line := by
  obtain ⟨⟨cs, number⟩, hx, rfl⟩ := List.mem_map.mp h
  obtain ⟨hpos, hlt, hcs⟩ := List.mem_zipIdx hx
  have hindex : number - 1 < (splitLines text).length := by omega
  simp [lineAt, hcs, List.getElem?_eq_getElem hindex]

theorem diagnostic_lineAt {text : List Char} {line : SourceLine} (h : line ∈ numberedLines text)
    (file : String) :
    (line.diagnostic?.map fun d => Issue.ofLineError file (lineAt text d.line) d.error) =
      line.diagnostic?.map fun d => Issue.ofLineError file line d.error := by
  unfold SourceLine.diagnostic?
  split
  · simp only [Option.map_some, lineAt_of_mem h]
  · rfl

/-- The lines of a text that say a command, each with the site of its command in the unit of
the file. -/
def commandSitesOf (file : String) (text : List Char) : List (SourceLine × Site) :=
  commandSites { unit := unitLabel file } (numberedLines text)

/-- The lines of a text that are counted: those that say a command that is not refused. -/
def countedLinesOf (file : String) (text : List Char) : List SourceLine :=
  countedLines { unit := unitLabel file } (numberedLines text)

/-- A translation of a text that keeps to what is read from it and accounts for each line. -/
structure Accounts (file : String) (text : List Char) (p : Program) (w : Writer) (tally : Tally) :
    Prop where
  /-- What is written are the blocks of the commands that are read. -/
  written : w = ((Writer.ofFile file).writeAll p.commands).1
  /-- The sites are those of the commands that are read, in order, at the lines that say them. -/
  sited : (commandSitesOf file text).map (fun x => (x.1.command?, x.2)) =
    (sites { unit := unitLabel file } p.commands).map fun s => (some s.command, s)
  /-- The issues of malformed lines are the errors that are read. -/
  parse : tally.issues.filter (fun i => i.kind = .parse) =
    p.errors.map fun d => Issue.ofLineError file (lineAt text d.line) d.error
  /-- The other issues are the refusals of commands, at the lines of these commands. -/
  codegen : tally.issues.filter (fun i => i.kind = .codegen) =
    (commandSitesOf file text).filterMap fun x =>
      x.2.block.refusal.map (Issue.ofRefusal file x.1 x.2.command)
  kinds : ∀ i ∈ tally.issues, i.kind = .parse ∨ i.kind = .codegen
  increasing : tally.issues.Pairwise fun i j => i.line < j.line
  counted : tally.commands = (countedLinesOf file text).length
  /-- A line with a lexeme is counted or has exactly one issue, and not both. -/
  disposed : ∀ line ∈ numberedLines text, line.lexemes ≠ [] →
    line ∈ countedLinesOf file text ∧ (∀ i ∈ tally.issues, i.line ≠ line.number) ∨
    line ∉ countedLinesOf file text ∧ ∃! i, i ∈ tally.issues ∧ i.line = line.number
  /-- A line without lexemes is neither counted nor has an issue. -/
  silent : ∀ line ∈ numberedLines text, line.lexemes = [] →
    line ∉ countedLinesOf file text ∧ ∀ i ∈ tally.issues, i.line ≠ line.number
  total : tally.commands + tally.issues.length =
    (numberedLines text).countP fun line => !line.lexemes.isEmpty

section

variable {file : String} {text : List Char} {e : LedgerEntry}

/-- The entry of a line in the ledger of a text tells whether the line is counted. -/
theorem mem_countedLinesOf_iff (he : e ∈ ledger { unit := unitLabel file } (numberedLines text)) :
    e.line ∈ countedLinesOf file text ↔ e.isCounted = true := by
  unfold countedLinesOf
  rw [← map_line_filter_ledger, List.mem_map]
  constructor
  · rintro ⟨e', he', hline⟩
    obtain ⟨hmem, hcounted⟩ := List.mem_filter.mp he'
    obtain rfl := entry_unique (pairwise_numbered _ _) hmem he (by rw [hline])
    exact hcounted
  · exact fun hcounted => ⟨e, List.mem_filter.mpr ⟨he, hcounted⟩, rfl⟩

/-- The issues at a line are those of its entry. -/
theorem mem_issues_iff (he : e ∈ ledger { unit := unitLabel file } (numberedLines text))
    (i : Issue) :
    i ∈ (Tally.ofLedger file (ledger { unit := unitLabel file } (numberedLines text))).issues ∧
        i.line = e.line.number ↔ e.issue? file = some i := by
  constructor
  · rintro ⟨hi, hline⟩
    obtain ⟨e', he', hissue⟩ := List.mem_filterMap.mp hi
    rw [LedgerEntry.line_of_issue? hissue, Int.ofNat_inj] at hline
    obtain rfl := entry_unique (pairwise_numbered _ _) he' he hline
    exact hissue
  · exact fun hissue => ⟨List.mem_filterMap.mpr ⟨e, he, hissue⟩, LedgerEntry.line_of_issue? hissue⟩

end

/-- A text whose numerals are evaluated is translated to its end. -/
theorem translateSource_of_evaluable {text : List Char} (h : Evaluable text) (file : String) :
    translateSource text file {} =
      (((Writer.ofFile file).writeAll ((numberedLines text).filterMap SourceLine.command?)).1,
        .ok (.ofLedger file (ledger { unit := unitLabel file } (numberedLines text)))) := by
  have hall := @translateLines_append file { unit := unitLabel file } #[] (numberedLines text) []
    _ _ h.readable rfl
  rw [List.append_nil] at hall
  rw [translateSource_eq]
  refine hall.trans ?_
  simp [Except.map, Writer.ofFile]

/-- The translation of a text is its reading followed by the writing of its commands, and every
line that has a lexeme is counted or reported, once. -/
theorem translation_accounts {text : List Char} (h : Evaluable text) (file : String) :
    ∃ p w tally, readProgram text = .ok p ∧ translateSource text file {} = (w, .ok tally) ∧
      Accounts file text p w tally := by
  refine ⟨⟨(numberedLines text).filterMap SourceLine.command?,
    (numberedLines text).filterMap SourceLine.diagnostic?⟩, _, _, ?read,
    translateSource_of_evaluable h file, ?accounts⟩
  case read => rw [readProgram_eq, readLines_eq h.readable]
  have hup : (numberedLines text).Pairwise fun a b => a.number < b.number := pairwise_numbered _ _
  refine ⟨rfl, map_commandSites _ _, ?parse, codegen_issues_ledger file _ _, ?kinds,
    pairwise_issues hup file, ?counted, ?disposed, ?silent, ?total⟩
  case parse =>
    refine (parse_issues_ledger file _ _).trans ?_
    rw [List.map_filterMap]
    refine List.filterMap_congr fun line hline => ?_
    rw [diagnostic_lineAt hline file]
  case kinds =>
    intro i hi
    obtain ⟨e, -, hissue⟩ := List.mem_filterMap.mp hi
    exact kind_of_issue? hissue
  case counted =>
    unfold countedLinesOf
    rw [← map_line_filter_ledger, List.length_map, ← List.countP_eq_length_filter]
    rfl
  case disposed =>
    intro line hline hlexemes
    obtain ⟨e, he, rfl⟩ := exists_entry_of_mem hline
    rw [ne_eq, ← readLine_eq_blank_iff_lexemes hline] at hlexemes
    rw [mem_countedLinesOf_iff he]
    obtain ⟨hblank, -⟩ | ⟨-, hcounted, hissue⟩ | ⟨-, hcounted, i, hissue⟩ :=
      disposed_of_mem_ledger file he (h.readable _ hline)
    · exact absurd hblank hlexemes
    · refine .inl ⟨hcounted, fun i hi hnumber => ?_⟩
      rw [(mem_issues_iff he i).mp ⟨hi, hnumber⟩] at hissue
      cases hissue
    · refine .inr ⟨by simp [hcounted], i, (mem_issues_iff he i).mpr hissue, fun j hj => ?_⟩
      rw [(mem_issues_iff he j).mp hj] at hissue
      exact Option.some.inj hissue
  case silent =>
    intro line hline hlexemes
    obtain ⟨e, he, rfl⟩ := exists_entry_of_mem hline
    rw [← readLine_eq_blank_iff_lexemes hline] at hlexemes
    rw [mem_countedLinesOf_iff he]
    obtain ⟨-, hcounted, hissue⟩ | ⟨hblank, -⟩ | ⟨hblank, -⟩ :=
      disposed_of_mem_ledger file he (h.readable _ hline)
    · refine ⟨by simp [hcounted], fun i hi hnumber => ?_⟩
      rw [(mem_issues_iff he i).mp ⟨hi, hnumber⟩] at hissue
      cases hissue
    · exact absurd hlexemes hblank
    · exact absurd hlexemes hblank
  case total =>
    refine count_ledger file _ h.readable fun line hline => ?_
    rw [readLine_eq_blank_iff_lexemes hline]
    simp

/-- Good lines with a blank, a malformed and a refused one between them. -/
def mixedText : List Char := "push constant 7\n\nbogus\npop constant 1\n  add // sum\n".toList

theorem translation_accounts_mixed :
    Evaluable mixedText ∧
    ∃ p w tally, readProgram mixedText = .ok p ∧
      translateSource mixedText "Main.vm" {} = (w, .ok tally) ∧
      Accounts "Main.vm" mixedText p w tally := by
  have h : Evaluable mixedText := evaluable_of_length_le (by decide)
  exact ⟨h, translation_accounts h "Main.vm"⟩

end VmToHack
