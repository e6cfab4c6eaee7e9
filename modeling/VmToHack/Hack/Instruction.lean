set_option autoImplicit false

/-!
# Hack: instructions and lines

The assembly language of the Hack machine as data.  A computation has the data
register as its one operand and either the address register or the memory cell that
it addresses as the other, which gives exactly the twenty-eight computations of the
instruction set.  A line of assembly loads a symbol or a number into the address
register, computes, defines a label, or is a comment.

`Line.text` is the one printer, and `render` ends every line with a line feed.
-/

namespace VmToHack.Hack

/-- The second operand of a computation. -/
inductive Operand where
  /-- the address register -/
  | a
  /-- the memory cell that the address register points to -/
  | m
  deriving DecidableEq, Repr, Inhabited

/-- What the arithmetic unit computes. -/
inductive Comp where
  | zero | one | minusOne
  /-- the data register, as it is, complemented, negated, and one up and down -/
  | d | notD | negD | incD | decD
  /-- the second operand likewise -/
  | operand (y : Operand)
  | not (y : Operand)
  | neg (y : Operand)
  | inc (y : Operand)
  | dec (y : Operand)
  /-- the data register and the second operand together -/
  | add (y : Operand)
  | sub (y : Operand)
  /-- the second operand less the data register -/
  | subFrom (y : Operand)
  | and (y : Operand)
  | or (y : Operand)
  deriving DecidableEq, Repr, Inhabited

/-- Where a computed value goes. -/
structure Dest where
  a : Bool := false
  d : Bool := false
  m : Bool := false
  deriving DecidableEq, Repr, Inhabited

/-- When a computed value makes the machine jump. -/
inductive Jump where
  | jgt | jeq | jge | jlt | jne | jle | jmp
  deriving DecidableEq, Repr, Inhabited

/-- A line of assembly. -/
inductive Line where
  /-- loads the address of a symbol -/
  | symbol (name : String)
  /-- loads a number -/
  | number (n : Int)
  | compute (dest : Dest) (comp : Comp) (jump : Option Jump)
  /-- gives a name to the address of the next instruction -/
  | label (name : String)
  | comment (text : String)
  deriving DecidableEq, Repr, Inhabited

/-! ## Printing -/

/-- How an operand is written. -/
def Operand.text : Operand → String
  | .a => "A"
  | .m => "M"

/-- How a computation is written. -/
def Comp.text : Comp → String
  | .zero => "0"
  | .one => "1"
  | .minusOne => "-1"
  | .d => "D"
  | .notD => "!D"
  | .negD => "-D"
  | .incD => "D+1"
  | .decD => "D-1"
  | .operand y => y.text
  | .not y => "!" ++ y.text
  | .neg y => "-" ++ y.text
  | .inc y => y.text ++ "+1"
  | .dec y => y.text ++ "-1"
  | .add y => "D+" ++ y.text
  | .sub y => "D-" ++ y.text
  | .subFrom y => y.text ++ "-D"
  | .and y => "D&" ++ y.text
  | .or y => "D|" ++ y.text

/-- How a destination is written. -/
def Dest.text (t : Dest) : String :=
  (if t.a then "A" else "") ++ (if t.d then "D" else "") ++ (if t.m then "M" else "")

/-- How a jump is written. -/
def Jump.text : Jump → String
  | .jgt => "JGT"
  | .jeq => "JEQ"
  | .jge => "JGE"
  | .jlt => "JLT"
  | .jne => "JNE"
  | .jle => "JLE"
  | .jmp => "JMP"

/-- How a line is written.  A computation leaves out an empty destination and a
missing jump together with their separators. -/
def Line.text : Line → String
  | .symbol name => "@" ++ name
  | .number n => "@" ++ toString n
  | .compute dest comp jump =>
    (if dest = {} then "" else dest.text ++ "=") ++ comp.text ++
      (jump.map fun j => ";" ++ j.text).getD ""
  | .label name => "(" ++ name ++ ")"
  | .comment text => "// " ++ text

/-- Some lines of text, each ended by a line feed. -/
def renderTexts (lines : List String) : String := String.join (lines.map fun l => l ++ "\n")

/-- Lines of assembly as text. -/
def render (lines : List Line) : String := renderTexts (lines.map Line.text)

/-! ## Common computations -/

/-- Sets the data register. -/
def Line.setD (comp : Comp) : Line := .compute { d := true } comp none

/-- Sets the address register. -/
def Line.setA (comp : Comp) : Line := .compute { a := true } comp none

/-- Sets the addressed cell. -/
def Line.setM (comp : Comp) : Line := .compute { m := true } comp none

/-- Sets the address register and the cell that it addressed before. -/
def Line.setAM (comp : Comp) : Line := .compute { a := true, m := true } comp none

/-- Jumps if a computed value asks for it. -/
def Line.jumpIf (comp : Comp) (jump : Jump) : Line := .compute {} comp (some jump)

end VmToHack.Hack
