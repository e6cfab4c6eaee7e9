import VmToHack.Reader
set_option autoImplicit false

/-!
# Command reader

A program handed out one result at a time.  The reader pulls lexemes from a scanner and keeps
one in hand: the first of the next line that has any, or the end of the text.  On being
advanced it passes the other lexemes of that line, so that it has the next line in hand, and
only then reads the line itself.  A line that cannot be evaluated is passed nevertheless.

`Reader` is the same walk with all lexemes at hand.
-/

namespace VmToHack

open VmToHack.Text

/-- What a line says, and the line: a command, an error, or neither of them. -/
structure LineResult where
  command : Option Command
  error : Option Diagnostic
  line : Nat
  source : List Char
  deriving DecidableEq, Repr, Inhabited

/-- The result of a line that says something or nothing. -/
def LineResult.ofReading (line : SourceLine) : Reading → LineResult
  | .blank => ⟨none, none, line.number, line.text⟩
  | .command c => ⟨some c, none, line.number, line.text⟩
  | .error e => ⟨none, some ⟨line.number, e⟩, line.number, line.text⟩

/-- Reads a line with its number. -/
def SourceLine.result (line : SourceLine) : Except OverlongNumeral LineResult :=
  (readLine line.text).map (LineResult.ofReading line)

/-- Why a reader has no result to hand out. -/
inductive AdvanceFault where
  /-- no line is left -/
  | noMoreCommands
  /-- the line has a numeral that is not evaluated -/
  | overlong (o : OverlongNumeral)
  deriving DecidableEq, Repr, Inhabited

/-- The words for a reader that has no result. -/
def AdvanceFault.message : AdvanceFault → String
  | .noMoreCommands => "parser has no more commands"
  | .overlong o => o.message

/-- The first lexeme that is not on a given line, and the scanner behind it. -/
def Scanner.nextOffLine (s : Scanner) (number : Nat) : Lexeme × Scanner :=
  match _h : s.next with
  | (lexeme, behind) =>
    if _hline : lexeme.kind ≠ .endOfText ∧ lexeme.line = number then behind.nextOffLine number
    else (lexeme, behind)
termination_by s.pending.length
decreasing_by exact Scanner.length_pending_lt _h _hline.1

/-- The results of a text of which some are handed out. -/
structure CommandReader where
  scanner : Scanner
  lines : Array (List Char)
  /-- The number of the line that was handed out last, zero at the start. -/
  current : Nat
  /-- The first lexeme of the next line that has one, or the end of the text. -/
  lookahead : Lexeme
  deriving DecidableEq, Repr, Inhabited

/-- What a reader is asked. -/
inductive Request where
  | hasMore
  | advance
  deriving DecidableEq, Repr, Inhabited

/-- What a reader answers. -/
inductive Answer where
  | more (b : Bool)
  | handed (x : Except AdvanceFault LineResult)

namespace CommandReader

/-- The reader at the start of a text. -/
def ofText (text : List Char) : CommandReader :=
  let (lookahead, scanner) := (Scanner.ofText text).nextOffLine 0
  ⟨scanner, (splitLines text).toArray, 0, lookahead⟩

/-- A line is left. -/
def hasMore (r : CommandReader) : Bool := r.lookahead.kind != .endOfText

/-- The result of the next line, and the reader behind it. -/
def advance (r : CommandReader) : Except AdvanceFault LineResult × CommandReader :=
  if r.hasMore then
    let current := r.lookahead.line
    let (lookahead, scanner) := r.scanner.nextOffLine current
    let line : SourceLine := ⟨current, r.lines.getD (current - 1) []⟩
    (line.result.mapError .overlong, ⟨scanner, r.lines, current, lookahead⟩)
  else (.error .noMoreCommands, r)

/-- Answers a request. -/
def serve (r : CommandReader) : Request → Answer × CommandReader
  | .hasMore => (.more r.hasMore, r)
  | .advance =>
    let (x, next) := r.advance
    (.handed x, next)

end CommandReader

end VmToHack
