import VmToHack.Grammar.Terminal
import VmToHack.Text.Lines
set_option autoImplicit false

/-!
# Scanner

A text as a list of lexemes.  The scanner knows no commands: on each line it finds
the words and passes blanks and the comment, and a character that starts no word is
a lexeme of its own, after which it goes on as if nothing had happened.  The first
word of a line is its command, the later ones are arguments.

`Scanner` gives the same lexemes when they are asked for, and scans a line only when
those of the lines before it are used up: `next` pulls one lexeme, `drain` all that are
left, and `reset` goes back to the start.
-/

namespace VmToHack

open VmToHack.Grammar VmToHack.Text

/-- What a lexeme is. -/
inductive LexemeKind where
  /-- the first word of a line -/
  | command
  /-- a later word -/
  | argument
  /-- a character that starts no word -/
  | illegal
  /-- the end of the text -/
  | endOfText
  deriving DecidableEq, Repr, Inhabited

/-- How a kind of lexeme is called. -/
def LexemeKind.name : LexemeKind → String
  | .command => "COMMAND"
  | .argument => "ARG"
  | .illegal => "ILLEGAL"
  | .endOfText => "EOF"

/-- A piece of the text, with its line and column counted from one. -/
structure Lexeme where
  kind : LexemeKind
  value : List Char
  line : Nat
  column : Nat
  deriving DecidableEq, Repr, Inhabited

/-- A piece of one line: a word, or a character that starts none. -/
structure Piece where
  legal : Bool
  value : List Char
  column : Nat
  deriving DecidableEq, Repr, Inhabited

/-- The pieces of the rest of a line that starts at a column. -/
def pieces (column : Nat) (cs : List Char) : List Piece :=
  match _h : cs with
  | [] => []
  | c :: rest =>
    if isBlank c then pieces (column + 1) rest
    else if ['/', '/'].isPrefixOf cs then []
    else
      match hw : classify? cs with
      | some (_, word, rest') => ⟨true, word, column⟩ :: pieces (column + word.length) rest'
      | none => ⟨false, [c], column⟩ :: pieces (column + 1) rest
termination_by cs.length
decreasing_by
  · simp
  · obtain ⟨happ, hne⟩ := classify?_append hw
    subst _h
    have hpos := List.length_pos_iff.mpr hne
    have hlen := congrArg List.length happ
    simp only [List.length_append, List.length_cons] at hlen ⊢
    omega
  · simp

/-- Pieces as lexemes of a line; `begun` says that the line has had a word. -/
def Lexeme.ofPieces (line : Nat) (begun : Bool) : List Piece → List Lexeme
  | [] => []
  | p :: ps =>
    if p.legal then
      ⟨if begun then .argument else .command, p.value, line, p.column⟩ ::
        Lexeme.ofPieces line true ps
    else ⟨.illegal, p.value, line, p.column⟩ :: Lexeme.ofPieces line begun ps

/-- The lexemes of one line. -/
def scanLine (number : Nat) (line : List Char) : List Lexeme :=
  Lexeme.ofPieces number false (pieces 1 line)

/-- The lexemes of lines, of which the first has a given number. -/
def scanLines (number : Nat) : List (List Char) → List Lexeme
  | [] => []
  | line :: lines => scanLine number line ++ scanLines (number + 1) lines

/-- The lexemes of a text. -/
def scan (text : List Char) : List Lexeme := scanLines 1 (splitLines text)

/-- The lexemes that some lines still give: those left of the line at hand, and then those of the
lines behind it, each of which is scanned when the ones before it are used up. -/
structure LexemeStream where
  atHand : List Lexeme
  /-- The number of the first line behind. -/
  number : Nat
  behind : List (List Char)
  deriving DecidableEq, Repr, Inhabited

namespace LexemeStream

/-- The stream in front of all lines of a text. -/
def ofLines (lines : List (List Char)) : LexemeStream := ⟨[], 1, lines⟩

/-- The first lexeme of lines, of which the first has a given number, and the stream behind it.
Lines without a lexeme are passed. -/
def nextOfLines (number : Nat) : List (List Char) → Option Lexeme × LexemeStream
  | [] => (none, ⟨[], number, []⟩)
  | line :: lines =>
    match scanLine number line with
    | [] => nextOfLines (number + 1) lines
    | lexeme :: rest => (some lexeme, ⟨rest, number + 1, lines⟩)

/-- The next lexeme if there is one, and the stream behind it. -/
def next (s : LexemeStream) : Option Lexeme × LexemeStream :=
  match s.atHand with
  | [] => nextOfLines s.number s.behind
  | lexeme :: rest => (some lexeme, { s with atHand := rest })

/-- All lexemes of a stream, those of the lines behind included. -/
def lexemes (s : LexemeStream) : List Lexeme := s.atHand ++ scanLines s.number s.behind

theorem nextOfLines_eq (number : Nat) (lines : List (List Char)) :
    (nextOfLines number lines).1 = (scanLines number lines).head? ∧
      (nextOfLines number lines).2.lexemes = (scanLines number lines).tail := by
  induction lines generalizing number with
  | nil => exact ⟨rfl, rfl⟩
  | cons line lines ih =>
    rw [nextOfLines, scanLines]
    cases scanLine number line with
    | nil => exact ih (number + 1)
    | cons lexeme rest => exact ⟨rfl, rfl⟩

/-- A stream gives its lexemes one by one. -/
theorem next_eq (s : LexemeStream) :
    s.next.1 = s.lexemes.head? ∧ s.next.2.lexemes = s.lexemes.tail := by
  obtain ⟨atHand, number, behind⟩ := s
  cases atHand with
  | nil => exact nextOfLines_eq number behind
  | cons lexeme rest => exact ⟨rfl, rfl⟩

end LexemeStream

/-- A place in a text from which lexemes are pulled. -/
structure Scanner where
  /-- All lines of the text. -/
  lines : List (List Char)
  /-- What is still to come of them. -/
  stream : LexemeStream
  deriving DecidableEq, Repr, Inhabited

namespace Scanner

/-- The scanner at the start of a text. -/
def ofText (text : List Char) : Scanner := ⟨splitLines text, .ofLines (splitLines text)⟩

/-- What is returned when no lexeme is left: the end of the text, on the line behind the last. -/
def atEnd (s : Scanner) : Lexeme := ⟨.endOfText, [], s.lines.length + 1, 1⟩

/-- The lexemes that are still to come. -/
def pending (s : Scanner) : List Lexeme := s.stream.lexemes

/-- The next lexeme, or the end of the text, which may be asked for again and again. -/
def next (s : Scanner) : Lexeme × Scanner :=
  let (lexeme?, stream) := s.stream.next
  (lexeme?.getD s.atEnd, { s with stream })

/-- Back to the start of the text. -/
def reset (s : Scanner) : Scanner := { s with stream := .ofLines s.lines }

theorem fst_next (s : Scanner) : s.next.1 = s.pending.head?.getD s.atEnd :=
  congrArg (Option.getD · s.atEnd) s.stream.next_eq.1

theorem pending_next (s : Scanner) : s.next.2.pending = s.pending.tail := s.stream.next_eq.2

theorem lines_next (s : Scanner) : s.next.2.lines = s.lines := rfl

/-- A pulled lexeme was the first of those to come. -/
theorem pending_eq_cons {s s' : Scanner} {lexeme : Lexeme} (h : s.next = (lexeme, s'))
    (hlexeme : lexeme.kind ≠ .endOfText) : s.pending = lexeme :: s'.pending := by
  have hfirst := s.fst_next
  have hbehind := s.pending_next
  rw [h] at hfirst hbehind
  cases hpending : s.pending with
  | nil =>
    rw [hpending] at hfirst
    exact absurd (congrArg Lexeme.kind hfirst) hlexeme
  | cons x rest =>
    rw [hpending] at hfirst hbehind
    have hx : lexeme = x := hfirst
    have hrest : s'.pending = rest := hbehind
    rw [hx, hrest]

theorem length_pending_lt {s s' : Scanner} {lexeme : Lexeme} (h : s.next = (lexeme, s'))
    (hlexeme : lexeme.kind ≠ .endOfText) : s'.pending.length < s.pending.length := by
  rw [pending_eq_cons h hlexeme]
  exact Nat.lt_succ_self s'.pending.length

/-- The lexemes up to the end of the text, pulled one by one, and the scanner behind it. -/
def drain (s : Scanner) : List Lexeme × Scanner :=
  match _h : s.next with
  | (lexeme, behind) =>
    if _hend : lexeme.kind = .endOfText then ([], behind)
    else
      let (rest, last) := behind.drain
      (lexeme :: rest, last)
termination_by s.pending.length
decreasing_by exact length_pending_lt _h _hend

/-- What a scanner is asked. -/
inductive Request where
  /-- for the next lexeme -/
  | next
  /-- for all lexemes that are left -/
  | rest
  /-- to go back to the start -/
  | reset
  deriving DecidableEq, Repr, Inhabited

/-- What a scanner answers. -/
inductive Answer where
  | lexeme (x : Lexeme)
  | lexemes (xs : List Lexeme)
  | restarted
  deriving DecidableEq, Repr, Inhabited

/-- Answers a request. -/
def serve (s : Scanner) : Request → Answer × Scanner
  | .next =>
    let (x, behind) := s.next
    (.lexeme x, behind)
  | .rest =>
    let (xs, behind) := s.drain
    (.lexemes xs, behind)
  | .reset => (.restarted, s.reset)

end Scanner

end VmToHack
