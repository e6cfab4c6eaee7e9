import VmToHack.CommandReader
import VmToHack.Proofs.Ledger
import VmToHack.Proofs.Pulls
set_option autoImplicit false

/-!
# Handouts: what the command reader gives out, call by call

The command reader has one lexeme in hand and pulls the others.  With that lexeme put back it is
the reader that has all lexemes at hand (`CommandReader.reader`); so each step of the one is a step
of the other, and what is left to be handed out is the same.

A request to advance takes one line off that list, and no other request does (`remaining_serve`).
Hence a run of requests leaves what is behind as many lines as were advances (`remaining_after`),
and every later answer follows from that (`reader_serves`).
-/

namespace VmToHack

open VmToHack.Text

/-! ## The reader with all lexemes at hand -/

namespace Reader

variable {r : Reader}

theorem remaining_of_next?_eq_none (h : r.next? = none) : r.remaining = [] := by
  rw [remaining]
  split
  · rfl
  · next hgo =>
    rw [h] at hgo
    cases hgo

theorem remaining_of_next?_eq_some {line : SourceLine} {next : Reader}
    (h : r.next? = some (line, next)) : r.remaining = line :: next.remaining := by
  rw [remaining]
  split
  · next hstop =>
    rw [h] at hstop
    cases hstop
  · next hgo =>
    rw [h] at hgo
    cases hgo
    rfl

end Reader

/-! ## Pulling lexemes -/

namespace Scanner

/-- A pulled lexeme and the scanner behind it: the first of some lexemes, or the end of the text if
there are none, and the others are still to come. -/
structure Gives (pulled : Lexeme × Scanner) (xs : List Lexeme) : Prop where
  first : pulled.1 = xs.head?.getD pulled.2.atEnd
  others : pulled.2.pending = xs.tail

theorem gives_next (s : Scanner) : Gives s.next s.pending := ⟨s.fst_next, s.pending_next⟩

/-- Pulling off a line passes the lexemes of that line. -/
theorem Sound.gives_nextOffLine {s : Scanner} (h : s.Sound) (number : Nat) :
    Gives (s.nextOffLine number) (s.pending.dropWhile fun x => x.line == number) := by
  fun_induction nextOffLine s number with
  | case1 s lexeme behind hnext hline ih =>
    rw [pending_eq_cons hnext hline.1, List.dropWhile_cons_of_pos (by simpa using hline.2)]
    exact ih (h.of_next hnext)
  | case2 s lexeme behind hnext hline =>
    have hstays : (s.pending.dropWhile fun x => x.line == number) = s.pending := by
      by_cases hend : lexeme.kind = .endOfText
      · rw [h.pending_eq_nil hnext hend]
        rfl
      · rw [pending_eq_cons hnext hend,
          List.dropWhile_cons_of_neg (by simpa using fun heq => hline ⟨hend, heq⟩)]
    rw [hstays, ← hnext]
    exact s.gives_next

end Scanner

namespace CommandReader

/-- The reader that has all lexemes at hand, also the one that this reader has in hand. -/
def reader (r : CommandReader) : Reader :=
  ⟨r.lines, if r.hasMore then r.lookahead :: r.scanner.pending else []⟩

/-- A reader that has just pulled a lexeme has it in hand. -/
theorem reader_of_gives {lookahead : Lexeme} {s : Scanner} {xs : List Lexeme}
    (h : Scanner.Gives (lookahead, s) xs) (hxs : ∀ x ∈ xs, x.kind ≠ .endOfText)
    (lines : Array (List Char)) (current : Nat) :
    reader ⟨s, lines, current, lookahead⟩ = ⟨lines, xs⟩ := by
  have hothers : s.pending = xs.tail := h.others
  rw [reader]
  cases xs with
  | nil =>
    obtain rfl : lookahead = s.atEnd := h.first
    have hmore : hasMore ⟨s, lines, current, s.atEnd⟩ = false := rfl
    simp only [hmore, Bool.false_eq_true, if_false]
  | cons x rest =>
    obtain rfl : lookahead = x := h.first
    have hmore : hasMore ⟨s, lines, current, lookahead⟩ = true :=
      bne_iff_ne.mpr (hxs lookahead List.mem_cons_self)
    simp only [hmore, if_true, hothers, List.tail_cons]

/-- At the start the lexeme in hand is the first one. -/
theorem sound_ofText (text : List Char) :
    (ofText text).scanner.Sound ∧ (ofText text).reader = Reader.ofText text := by
  have hsound := Scanner.sound_ofText text
  have hgives := hsound.gives_nextOffLine 0
  have hfirst : (scan text).dropWhile (fun x => x.line == 0) = scan text := by
    rw [List.dropWhile_eq_self_iff]
    intro hpos hzero
    have hle := le_line_of_mem_scanLines (List.getElem_mem hpos)
    rw [eq_of_beq hzero] at hle
    exact absurd hle (by decide)
  have hpending : (Scanner.ofText text).pending = scan text := rfl
  rw [hpending, hfirst] at hgives
  exact ⟨Scanner.sound_of_pending_eq_tail hgives.others hsound, reader_of_gives hgives hsound _ 0⟩

/-! ## What is left -/

/-- The lines that are still to be handed out. -/
def remaining (r : CommandReader) : List SourceLine := r.reader.remaining

section Steps

variable {r : CommandReader}

theorem serve_advance (r : CommandReader) :
    r.serve .advance = (.handed r.advance.1, r.advance.2) := rfl

/-- The line whose number the lexeme in hand has. -/
def aheadLine (r : CommandReader) : SourceLine :=
  ⟨r.lookahead.line, r.lines.getD (r.lookahead.line - 1) []⟩

theorem advance_eq (h : r.hasMore = true) : r.advance = (r.aheadLine.result.mapError .overlong,
    ⟨(r.scanner.nextOffLine r.lookahead.line).2, r.lines, r.lookahead.line,
      (r.scanner.nextOffLine r.lookahead.line).1⟩) := by
  rw [advance, if_pos h]
  rfl

theorem remaining_of_hasMore_eq_false (h : r.hasMore = false) : r.remaining = [] := by
  have hnext : r.reader.next? = none := by
    rw [reader, h]
    rfl
  exact Reader.remaining_of_next?_eq_none hnext

/-- The line ahead is the first of those that are left, and advancing leaves the others. -/
theorem advance_of_hasMore (hsound : r.scanner.Sound) (h : r.hasMore = true) :
    r.remaining = r.aheadLine :: r.advance.2.remaining ∧ r.advance.2.scanner.Sound := by
  have hnext : r.reader.next? = some (r.aheadLine, ⟨r.lines,
      r.scanner.pending.dropWhile fun x => x.line == r.lookahead.line⟩) := by
    rw [reader, h]
    rfl
  have hgives := hsound.gives_nextOffLine r.lookahead.line
  have hothers : ∀ x ∈ r.scanner.pending.dropWhile fun x => x.line == r.lookahead.line,
      x.kind ≠ .endOfText := fun x hx => hsound x ((List.dropWhile_sublist _).subset hx)
  rw [advance_eq h]
  refine ⟨?_, Scanner.sound_of_pending_eq_tail hgives.others hothers⟩
  rw [remaining, Reader.remaining_of_next?_eq_some hnext, remaining, reader_of_gives hgives hothers]

theorem hasMore_eq (hsound : r.scanner.Sound) : r.hasMore = !r.remaining.isEmpty := by
  cases h : r.hasMore with
  | false => rw [remaining_of_hasMore_eq_false h, List.isEmpty_nil, Bool.not_true]
  | true =>
    obtain ⟨hremaining, -⟩ := advance_of_hasMore hsound h
    rw [hremaining, List.isEmpty_cons, Bool.not_false]

/-- Advancing takes the first line off those that are left; another request takes none. -/
theorem remaining_serve (hsound : r.scanner.Sound) (q : Request) :
    (r.serve q).2.scanner.Sound ∧
      (r.serve q).2.remaining = r.remaining.drop ([q].count .advance) := by
  cases q with
  | hasMore => exact ⟨hsound, rfl⟩
  | advance =>
    show r.advance.2.scanner.Sound ∧ r.advance.2.remaining = r.remaining.drop 1
    cases h : r.hasMore with
    | false =>
      have hstays : r.advance.2 = r := by rw [advance, h]; rfl
      rw [hstays, remaining_of_hasMore_eq_false h]
      exact ⟨hsound, rfl⟩
    | true =>
      obtain ⟨hremaining, hsound'⟩ := advance_of_hasMore hsound h
      rw [hremaining]
      exact ⟨hsound', rfl⟩

/-- The reader after requests. -/
def after (r : CommandReader) : List Request → CommandReader
  | [] => r
  | q :: requests => after (r.serve q).2 requests

/-- After requests as many lines have been taken off as were advances. -/
theorem remaining_after (hsound : r.scanner.Sound) (requests : List Request) :
    (r.after requests).scanner.Sound ∧
      (r.after requests).remaining = r.remaining.drop (requests.count .advance) := by
  induction requests generalizing r with
  | nil => exact ⟨hsound, rfl⟩
  | cons q requests ih =>
    obtain ⟨hnext, hremaining⟩ := remaining_serve hsound q
    obtain ⟨hsound', hremaining'⟩ := ih hnext
    refine ⟨hsound', ?_⟩
    rw [after, hremaining', hremaining, List.drop_drop, ← List.count_append, List.singleton_append]

end Steps

end CommandReader

/-! ## Every answer -/

/-- The lines of a text that have a lexeme. -/
def lexemeLines (text : List Char) : List SourceLine :=
  (numberedLines text).filter fun line => !line.lexemes.isEmpty

/-- A reader that has handed out some of the lines: it says whether one is left, hands out the
result of the next one, and raises when none is left.  Neither asking nor raising changes it. -/
structure CommandReader.ServesFrom (r : CommandReader) (lines : List SourceLine) (handed : Nat) :
    Prop where
  more : r.serve .hasMore = (.more (decide (handed < lines.length)), r)
  next : ∀ line ∈ lines[handed]?,
    (r.serve .advance).1 = .handed (line.result.mapError .overlong)
  ended : lines.length ≤ handed → r.serve .advance = (.handed (.error .noMoreCommands), r)

/-- A result tells of a line: it has its number and its text, and a command or an error. -/
structure LineResult.Tells (x : LineResult) (line : SourceLine) : Prop where
  line_eq : x.line = line.number
  source_eq : x.source = line.text
  one : x.command.isSome = !x.error.isSome

section Text

variable {text : List Char} {line : SourceLine} {x : LineResult}

theorem CommandReader.remaining_ofText (text : List Char) :
    (CommandReader.ofText text).remaining = lexemeLines text := by
  rw [CommandReader.remaining, (CommandReader.sound_ofText text).2]
  exact significantLines_eq text

theorem CommandReader.servesFrom_of_remaining {r : CommandReader} {lines : List SourceLine}
    {handed : Nat} (hsound : r.scanner.Sound) (h : r.remaining = lines.drop handed) :
    r.ServesFrom lines handed := by
  have hmore := CommandReader.hasMore_eq hsound
  refine ⟨?_, fun line hline => ?_, fun hend => ?_⟩
  · rw [CommandReader.serve, hmore, h]
    by_cases hlt : handed < lines.length
    · simp [hlt]
    · simp [hlt, Nat.le_of_not_lt hlt]
  · obtain ⟨hlt, hget⟩ := List.getElem?_eq_some_iff.mp hline
    rw [List.drop_eq_getElem_cons hlt, hget] at h
    rw [h, List.isEmpty_cons] at hmore
    obtain ⟨hfirst, -⟩ := CommandReader.advance_of_hasMore hsound hmore
    rw [h] at hfirst
    rw [CommandReader.serve_advance, CommandReader.advance_eq hmore, (List.cons.inj hfirst).1]
  · rw [List.drop_of_length_le hend] at h
    rw [h] at hmore
    rw [CommandReader.serve, CommandReader.advance, hmore]
    rfl

/-- A line with a lexeme says something: its result has a command or an error, and not both. -/
theorem tells_of_mem_lexemeLines (hline : line ∈ lexemeLines text) (h : line.result = .ok x) :
    x.Tells line := by
  obtain ⟨hmem, hlexemes⟩ := List.mem_filter.mp hline
  have hblank : readLine line.text ≠ .ok .blank := by
    rw [ne_eq, readLine_eq_blank_iff_lexemes hmem]
    simpa using hlexemes
  rw [SourceLine.result] at h
  cases hread : readLine line.text with
  | error o =>
    rw [hread] at h
    cases h
  | ok reading =>
    rw [hread] at h
    cases h
    cases reading with
    | blank => exact absurd hread hblank
    | command c => exact ⟨rfl, rfl, rfl⟩
    | error e => exact ⟨rfl, rfl, rfl⟩

/-- Whatever a reader of a text has been asked, it has handed out the results of the lines with a
lexeme, one with each advance, and is about to hand out the next one.  Each result tells of its
line, and if no numeral is too long there is one.  A line without a lexeme would have had neither a
command nor an error. -/
theorem reader_serves (text : List Char) (requests : List Request) :
    ((CommandReader.ofText text).after requests).ServesFrom (lexemeLines text)
      (requests.count .advance) ∧
    (∀ line ∈ lexemeLines text, ∀ x, line.result = .ok x → x.Tells line) ∧
    (Evaluable text → ∀ line ∈ lexemeLines text, ∃ x, line.result = .ok x) ∧
    ∀ line ∈ numberedLines text, line.lexemes = [] →
      line.result = .ok ⟨none, none, line.number, line.text⟩ := by
  obtain ⟨hsound, -⟩ := CommandReader.sound_ofText text
  obtain ⟨hsound, hremaining⟩ := CommandReader.remaining_after hsound requests
  rw [CommandReader.remaining_ofText] at hremaining
  refine ⟨CommandReader.servesFrom_of_remaining hsound hremaining,
    fun line hline x => tells_of_mem_lexemeLines hline, fun h line hline => ?_,
    fun line hline hnone => ?_⟩
  · obtain ⟨reading, hread⟩ := h.readable line (List.mem_of_mem_filter hline)
    exact ⟨LineResult.ofReading line reading, by rw [SourceLine.result, hread]; rfl⟩
  · rw [SourceLine.result, (readLine_eq_blank_iff_lexemes hline).mpr hnone]
    rfl

end Text

/-- The line behind the first good one and a blank one is malformed. -/
theorem reader_serves_mixed : Evaluable mixedText ∧
    (∀ line ∈ lexemeLines mixedText, ∃ x, line.result = .ok x ∧ x.Tells line) ∧
    (((CommandReader.ofText mixedText).after [.advance, .hasMore]).serve .advance).1 =
      .handed ((SourceLine.result ⟨3, "bogus".toList⟩).mapError .overlong) := by
  have h : Evaluable mixedText := evaluable_of_length_le (by decide)
  have hbogus : (lexemeLines mixedText)[1]? = some ⟨3, "bogus".toList⟩ := by decide +kernel
  obtain ⟨hserves, htells, hresults, -⟩ := reader_serves mixedText [.advance, .hasMore]
  refine ⟨h, fun line hline => ?_, hserves.next _ hbogus⟩
  obtain ⟨x, hx⟩ := hresults h line hline
  exact ⟨x, hx, htells line hline x hx⟩

end VmToHack
