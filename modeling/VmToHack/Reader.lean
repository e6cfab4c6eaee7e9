import VmToHack.Line
import VmToHack.Scanner
set_option autoImplicit false

/-!
# Reader

A program as a sequence of lines that say something.  Where such lines stand is the
scanner's knowledge: a line counts if it has at least one lexeme, even one that is
illegal.  What they say is read line by line, so that a malformed line is reported
and passed and disturbs no other.

`Reader` hands the lines out one at a time; `readProgram` is the whole text read at
once.
-/

namespace VmToHack

open VmToHack.Text

/-- A line of source with its number, counted from one. -/
structure SourceLine where
  number : Nat
  text : List Char
  deriving DecidableEq, Repr, Inhabited

/-- The lines of a text of which some are handed out. -/
structure Reader where
  lines : Array (List Char)
  /-- The lexemes of the lines still to come. -/
  pending : List Lexeme
  deriving DecidableEq, Repr, Inhabited

namespace Reader

/-- The reader at the start of a text. -/
def ofText (text : List Char) : Reader := ⟨(splitLines text).toArray, scan text⟩

/-- A line is left that says something. -/
def hasMore (r : Reader) : Bool := !r.pending.isEmpty

/-- The next line that says something, and the reader behind it. -/
def next? (r : Reader) : Option (SourceLine × Reader) :=
  match r.pending with
  | [] => none
  | lexeme :: rest =>
    some (⟨lexeme.line, r.lines.getD (lexeme.line - 1) []⟩,
      { r with pending := rest.dropWhile fun x => x.line == lexeme.line })

theorem length_pending_lt {r r' : Reader} {line : SourceLine} (h : r.next? = some (line, r')) :
    r'.pending.length < r.pending.length := by
  unfold next? at h
  split at h
  · simp at h
  · next lexeme rest hp =>
    simp only [Option.some.injEq, Prod.mk.injEq] at h
    obtain ⟨-, rfl⟩ := h
    rw [hp]
    exact Nat.lt_succ_of_le (List.dropWhile_sublist _).length_le

/-- All lines that are left. -/
def remaining (r : Reader) : List SourceLine :=
  match _h : r.next? with
  | none => []
  | some (line, r') => line :: r'.remaining
termination_by r.pending.length
decreasing_by exact length_pending_lt _h

end Reader

/-- The lines of a text that say something. -/
def significantLines (text : List Char) : List SourceLine := (Reader.ofText text).remaining

/-- An error together with the number of its line. -/
structure Diagnostic where
  line : Nat
  error : LineError
  deriving DecidableEq, Repr, Inhabited

/-- What a text says: the commands of its good lines and the errors of the others. -/
structure Program where
  commands : List Command
  errors : List Diagnostic
  deriving DecidableEq, Repr, Inhabited

/-- Puts what one line says in front of what the later lines say. -/
def Program.cons (line : SourceLine) (reading : Reading) (p : Program) : Program :=
  match reading with
  | .blank => p
  | .command c => { p with commands := c :: p.commands }
  | .error e => { p with errors := ⟨line.number, e⟩ :: p.errors }

/-- Reads lines in order; the first overlong numeral ends the reading. -/
def readLines : List SourceLine → Except OverlongNumeral Program
  | [] => .ok ⟨[], []⟩
  | line :: lines => do
    let reading ← readLine line.text
    let p ← readLines lines
    return p.cons line reading

/-- Reads a whole text. -/
def readProgram (text : List Char) : Except OverlongNumeral Program :=
  readLines (significantLines text)

end VmToHack
