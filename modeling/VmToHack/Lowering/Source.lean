import VmToHack.Reader
import VmToHack.Lowering.Writer
set_option autoImplicit false

/-!
# Lowering: one source

A source is translated line by line in one pass.  A line that is malformed and a
command that is refused become issues, and the lines behind them are still taken; an
output that is closed and an overlong numeral end it.
-/

namespace VmToHack

open VmToHack.Text

/-- What an issue is about. -/
inductive IssueKind where
  /-- a line that is no command -/
  | parse
  /-- a command that has no code -/
  | codegen
  /-- a source that cannot be read -/
  | io
  deriving DecidableEq, Repr, Inhabited

namespace IssueKind

/-- How a kind of issue is called. -/
def name : IssueKind → String
  | .parse => "parse"
  | .codegen => "codegen"
  | .io => "io"

/-- The kind of issue called so; whatever has no name of its own is about input. -/
def ofName (s : String) : IssueKind :=
  if s = "parse" then .parse else if s = "codegen" then .codegen else .io

@[simp] theorem ofName_name (k : IssueKind) : ofName k.name = k := by cases k <;> decide

end IssueKind

/-- Something that went wrong in a source without ending the pass over it. -/
structure Issue where
  kind : IssueKind
  /-- The name of the source. -/
  file : String
  /-- The line, zero for the source as a whole. -/
  line : Int
  message : String
  /-- The command or the line that the issue is about. -/
  command : String := ""
  deriving DecidableEq, Repr, Inhabited

/-- The line that reports an issue. -/
def Issue.format (i : Issue) : String :=
  match i.kind with
  | .parse => "[parse error] " ++ i.file ++ ": line=" ++ toString i.line ++ ": " ++ i.message
  | .codegen =>
    "[codegen error] " ++ i.file ++ ": line=" ++ toString i.line ++ ": " ++ i.command ++ ": " ++
      i.message
  | .io => "[io error] " ++ i.file ++ ": " ++ i.message

/-- The issue of a line that is no command. -/
def Issue.ofLineError (file : String) (line : SourceLine) (e : LineError) : Issue where
  kind := .parse
  file := file
  line := line.number
  message := "col=" ++ toString e.column ++ ": " ++ e.fault.message
  command := String.ofList (trim line.text)

/-- The issue of a command that is refused. -/
def Issue.ofRefusal (file : String) (line : SourceLine) (c : Command) (r : Refusal) : Issue where
  kind := .codegen
  file := file
  line := line.number
  message := r.message
  command := c.text

/-- Why the pass over a source ends before the source does. -/
inductive Abort where
  /-- the output takes no more blocks -/
  | closed
  | overlong (o : OverlongNumeral)
  deriving DecidableEq, Repr, Inhabited

/-- The words for an early end. -/
def Abort.message : Abort → String
  | .closed => closedMessage
  | .overlong o => o.message

/-- What a pass over a source adds up. -/
structure Tally where
  /-- The number of commands translated. -/
  commands : Nat := 0
  issues : List Issue := []
  deriving DecidableEq, Repr, Inhabited

/-- One more command. -/
def Tally.count (t : Tally) : Tally := { t with commands := t.commands + 1 }

/-- One more issue, in front. -/
def Tally.consIssue (i : Issue) (t : Tally) : Tally := { t with issues := i :: t.issues }

/-- Translates lines in order.  The writer that comes back holds all that was written,
also if the pass ended early. -/
def translateLines (file : String) (w : Writer) : List SourceLine → Writer × Except Abort Tally
  | [] => (w, .ok {})
  | line :: lines =>
    match readLine line.text with
    | .error o => (w, .error (.overlong o))
    | .ok .blank => translateLines file w lines
    | .ok (.error e) =>
      let (w', result) := translateLines file w lines
      (w', result.map (Tally.consIssue (Issue.ofLineError file line e)))
    | .ok (.command c) =>
      match w.write c with
      | (w', some .closed) => (w', .error .closed)
      | (w', some (.refused r)) =>
        let (w'', result) := translateLines file w' lines
        (w'', result.map (Tally.consIssue (Issue.ofRefusal file line c r)))
      | (w', none) =>
        let (w'', result) := translateLines file w' lines
        (w'', result.map Tally.count)

/-- Translates a text under the name of its file onto an output. -/
def translateSource (text : List Char) (file : String) (output : Output) :
    Writer × Except Abort Tally :=
  translateLines file ⟨{ unit := unitLabel file }, output⟩ (significantLines text)

end VmToHack
