import VmToHack.Command
import VmToHack.Grammar.Phrase
import VmToHack.Text.Blank
import VmToHack.Text.Order
import VmToHack.Text.Quoted
set_option autoImplicit false

/-!
# Lines

What one line of source says: nothing, a command, or an error with the column at
which it shows.  An error is kept as its cause; `LineFault.message` has the wording
and is the only place that does.

Columns count characters from one.  A stuck reading stands at the first character
that it could not pass; a command that breaks off points just behind the line's last
word, comments left out; an argument out of range points at its last occurrence.

One thing is not an error of a line but ends the whole reading: a numeral so long
that it is not evaluated at all.
-/

namespace VmToHack

open VmToHack.Grammar VmToHack.Text

/-- Why a line is no command. -/
inductive LineFault where
  /-- the line ends in the middle of a command -/
  | unfinished
  /-- a terminal, but not one that may stand here -/
  | unexpectedToken (t : Terminal) (word : List Char) (expected : List Terminal)
  /-- text that no terminal matches -/
  | unexpectedInput (rest : List Char)
  /-- an index or count that is too large to be loaded -/
  | outOfRange (kind : Kind) (value : Nat)
  deriving DecidableEq, Repr, Inhabited

/-- An error of a line: its cause and where it shows. -/
structure LineError where
  fault : LineFault
  column : Nat
  deriving DecidableEq, Repr, Inhabited

/-- A numeral that is longer than any that is evaluated. -/
structure OverlongNumeral where
  /-- The kind of the command that it belongs to. -/
  kind : Kind
  /-- The number of its digits. -/
  length : Nat
  deriving DecidableEq, Repr, Inhabited

/-- What a line says. -/
inductive Reading where
  /-- no word at all -/
  | blank
  | command (c : Command)
  | error (e : LineError)
  deriving DecidableEq, Repr, Inhabited

/-- The largest index or count that a command may have. -/
def maxNumber : Nat := 32767

/-! ## Wording -/

/-- The names of the terminals that may come next, in alphabetical order.  After a
complete command only the end may come. -/
def expectedNames (ts : List Terminal) : List String :=
  match ts with
  | [] => ["<END-OF-FILE>"]
  | ts => sortTexts (ts.map Terminal.name)

/-- The words for a fault. -/
def LineFault.message : LineFault → String
  | .unfinished => "unexpected end of line, command is missing an argument"
  | .unexpectedToken t word expected =>
    "unexpected " ++ t.name ++ " " ++ String.ofList (quote word) ++ ", expected " ++
      ", ".intercalate (expectedNames expected)
  | .unexpectedInput rest =>
    "unexpected input " ++ String.ofList (quote ((firstWord? rest).getD rest))
  | .outOfRange kind value =>
    kind.name ++ " argument " ++ toString value ++ " out of range (max " ++
      toString maxNumber ++ ")"

/-- The words for a numeral that is not evaluated. -/
def OverlongNumeral.message (o : OverlongNumeral) : String :=
  "Error trying to process rule \"" ++ o.kind.name ++ "\":\n\nExceeds the limit (" ++
    toString numeralLimit ++ " digits) for integer string conversion: value has " ++
    toString o.length ++ " digits; use sys.set_int_max_str_digits() to increase the limit"

/-! ## Columns -/

/-- The part of a line in front of its comment. -/
def beforeComment : List Char → List Char
  | [] => []
  | '/' :: '/' :: _ => []
  | c :: cs => c :: beforeComment cs

/-- The column just behind the last word in front of the comment. -/
def endColumn (line : List Char) : Nat := (trimEnd (beforeComment line)).length + 1

/-- The column at which a rest of the line starts. -/
def restColumn (line rest : List Char) : Nat := line.length - rest.length + 1

/-- The column of the last place at which `word` stands in a text, zero if it stands
nowhere. -/
def lastColumn (word : List Char) : List Char → Nat
  | [] => if word.isEmpty then 1 else 0
  | c :: cs =>
    match lastColumn word cs with
    | 0 => if word.isPrefixOf (c :: cs) then 1 else 0
    | column => column + 1

/-! ## From phrases to commands -/

/-- The value of a numeral, unless it is overlong. -/
def evaluate (kind : Kind) (digits : List Char) : Except OverlongNumeral Nat :=
  if digits.length ≤ numeralLimit then .ok (numeralValue digits)
  else .error ⟨kind, digits.length⟩

/-- The command that a phrase spells. -/
def Grammar.Phrase.toCommand : Phrase → Except OverlongNumeral Command
  | .operator o => .ok (.arithmetic o.mnemonic)
  | .move .push g digits => (evaluate .push digits).map fun n => .push g.name n
  | .move .pop g digits => (evaluate .pop digits).map fun n => .pop g.name n
  | .mark .label name => .ok (.label (String.ofList name))
  | .mark .goto name => .ok (.goto (String.ofList name))
  | .mark .ifGoto name => .ok (.ifGoto (String.ofList name))
  | .routine .function name digits =>
    (evaluate .function digits).map fun n => .function (String.ofList name) n
  | .routine .call name digits =>
    (evaluate .call digits).map fun n => .call (String.ofList name) n
  | .ret => .ok .ret

/-- A command whose number is in range is what the line says. -/
def Reading.ofCommand (line : List Char) (c : Command) : Reading :=
  match c.number? with
  | none => .command c
  | some n =>
    if n ≤ maxNumber then .command c
    else .error ⟨.outOfRange c.kind n.toNat, lastColumn (toString n).toList line⟩

/-- The error of a reading that is stuck in front of a rest. -/
def LineError.ofStuck (line : List Char) (s : State) (rest : List Char) : LineError :=
  match classify? rest with
  | some (t, word, _) => ⟨.unexpectedToken t word s.allowed, restColumn line rest⟩
  | none => ⟨.unexpectedInput rest, restColumn line rest⟩

/-- What a line says. -/
def readLine (line : List Char) : Except OverlongNumeral Reading :=
  match Grammar.read line with
  | .ended .start => .ok .blank
  | .ended (.complete p) => p.toCommand.map (Reading.ofCommand line)
  | .ended _ => .ok (.error ⟨.unfinished, endColumn line⟩)
  | .stuck s rest => .ok (.error (LineError.ofStuck line s rest))

end VmToHack
