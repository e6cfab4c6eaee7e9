set_option autoImplicit false

/-!
# Commands

A VM command as a program holds it.  The fields are free text and integers: a
command read from a source line has its operator, segment and names checked by the
grammar, while one that is built directly may hold anything, and it is the
writer that refuses what it has no block for.

`Command.text` is the canonical spelling.  It is the line a listing shows and the
header of the command's block.
-/

namespace VmToHack

/-- What a command is, without its arguments. -/
inductive Kind where
  | arithmetic | push | pop | label | goto | ifGoto | function | call | ret
  /-- a kind that the language does not define -/
  | other (name : String)
  deriving DecidableEq, Repr, Inhabited

namespace Kind

/-- How a kind is called. -/
def name : Kind → String
  | .arithmetic => "arithmetic"
  | .push => "push"
  | .pop => "pop"
  | .label => "label"
  | .goto => "goto"
  | .ifGoto => "if-goto"
  | .function => "function"
  | .call => "call"
  | .ret => "return"
  | .other name => name

end Kind

/-- A VM command. -/
inductive Command where
  | arithmetic (op : String)
  | push (segment : String) (index : Int)
  | pop (segment : String) (index : Int)
  | label (name : String)
  | goto (label : String)
  | ifGoto (label : String)
  | function (name : String) (locals : Int)
  | call (name : String) (args : Int)
  | ret
  /-- a command of a kind that the language does not define -/
  | other (name : String)
  deriving DecidableEq, Repr, Inhabited

namespace Command

/-- The kind of a command. -/
def kind : Command → Kind
  | .arithmetic _ => .arithmetic
  | .push _ _ => .push
  | .pop _ _ => .pop
  | .label _ => .label
  | .goto _ => .goto
  | .ifGoto _ => .ifGoto
  | .function _ _ => .function
  | .call _ _ => .call
  | .ret => .ret
  | .other name => .other name

/-- The operator, segment, label or function of a command; a return has none. -/
def subject : Command → String
  | .arithmetic op => op
  | .push segment _ => segment
  | .pop segment _ => segment
  | .label name => name
  | .goto name => name
  | .ifGoto name => name
  | .function name _ => name
  | .call name _ => name
  | .ret => ""
  | .other _ => ""

/-- The index or count of a command that has one. -/
def number? : Command → Option Int
  | .push _ index => some index
  | .pop _ index => some index
  | .function _ locals => some locals
  | .call _ args => some args
  | _ => none

/-- The spelling of a command: an operator stands alone, and of any other command the
kind, the subject and the number are joined by single spaces, without the parts that
are empty or missing. -/
def text (c : Command) : String :=
  match c with
  | .arithmetic op => op
  | _ =>
    let parts := [c.kind.name, c.subject, (c.number?.map toString).getD ""]
    " ".intercalate (parts.filter fun part => !part.isEmpty)

end Command

end VmToHack
