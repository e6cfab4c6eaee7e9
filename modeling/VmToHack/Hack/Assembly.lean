import VmToHack.Hack.Stack
set_option autoImplicit false

/-!
# Hack: assembly

What the symbols of a program stand for, and the program as the machine holds it.  A
label stands for the address of the instruction behind it; every other symbol that is
not predefined is a variable, and the variables get a cell each in the order in which
they are first used.

The addresses of the labels of two pieces of code in a row are those of the pieces,
the second one moved up by the size of the first (`labels_append`).
-/

namespace VmToHack.Hack

/-- An instruction, with the symbols resolved. -/
inductive Instruction where
  /-- loads a number into the address register -/
  | load (n : Int)
  | compute (dest : Dest) (comp : Comp) (jump : Option Jump)
  deriving DecidableEq, Repr, Inhabited

/-- The symbols that every program has, and what they stand for. -/
def predefined : List (String × Nat) :=
  [("SP", 0), ("LCL", 1), ("ARG", 2), ("THIS", 3), ("THAT", 4),
    ("R0", 0), ("R1", 1), ("R2", 2), ("R3", 3), ("R4", 4), ("R5", 5), ("R6", 6), ("R7", 7),
    ("R8", 8), ("R9", 9), ("R10", 10), ("R11", 11), ("R12", 12), ("R13", 13), ("R14", 14),
    ("R15", 15), ("SCREEN", 16384), ("KBD", 24576)]

/-- The cell of the first variable. -/
def variableBase : Nat := 16

/-- One more than the largest number that an instruction can load. -/
def loadLimit : Nat := 32768

theorem lookup_predefined (c : Cell) : predefined.lookup c.symbol = some c.address := by
  cases c <;> decide

/-! ## Labels -/

/-- Whether a line is an instruction; labels and comments are none. -/
def Line.isInstruction : Line → Bool
  | .symbol _ | .number _ | .compute .. => true
  | .label _ | .comment _ => false

/-- The number of instructions in some lines. -/
def codeSize (lines : List Line) : Nat := lines.countP Line.isInstruction

theorem codeSize_append (lines lines' : List Line) :
    codeSize (lines ++ lines') = codeSize lines + codeSize lines' :=
  List.countP_append

/-- The labels of some lines and their addresses, the first instruction being at a
given one. -/
def labels (start : Nat) : List Line → List (String × Nat)
  | [] => []
  | .label name :: lines => (name, start) :: labels start lines
  | .comment _ :: lines => labels start lines
  | .symbol _ :: lines | .number _ :: lines | .compute .. :: lines => labels (start + 1) lines

theorem labels_append (start : Nat) (lines lines' : List Line) :
    labels start (lines ++ lines') =
      labels start lines ++ labels (start + codeSize lines) lines' := by
  induction lines generalizing start with
  | nil => simp [labels, codeSize]
  | cons line lines ih =>
    cases line <;>
      simp [labels, codeSize, List.countP_cons, Line.isInstruction, ih, Nat.add_assoc,
        Nat.add_comm 1]

/-! ## Variables -/

/-- The symbols that stand for something before any variable does. -/
def fixedSymbols (lines : List Line) : List (String × Nat) := predefined ++ labels 0 lines

/-- The symbol that a line loads, if it loads one. -/
def Line.symbol? : Line → Option String
  | .symbol name => some name
  | _ => none

/-- The variables of a program, in the order in which they are first used. -/
def variableNames (lines : List Line) : List String :=
  ((lines.filterMap Line.symbol?).filter fun name =>
    ((fixedSymbols lines).lookup name).isNone).eraseDups

/-- What a symbol of a program stands for. -/
def addressOf (lines : List Line) (name : String) : Nat :=
  match (fixedSymbols lines).lookup name with
  | some address => address
  | none => variableBase + (variableNames lines).idxOf name

/-! ## Programs -/

/-- The instruction on a line, if there is one, with given addresses of symbols. -/
def Line.instruction? (address : String → Nat) : Line → Option Instruction
  | .symbol name => some (.load (address name))
  | .number n => some (.load n)
  | .compute dest comp jump => some (.compute dest comp jump)
  | .label _ | .comment _ => none

/-- The instructions of some lines, with given addresses of symbols. -/
def instructions (address : String → Nat) (lines : List Line) : List Instruction :=
  lines.filterMap (Line.instruction? address)

theorem instructions_append (address : String → Nat) (lines lines' : List Line) :
    instructions address (lines ++ lines') =
      instructions address lines ++ instructions address lines' :=
  List.filterMap_append

theorem length_instructions (address : String → Nat) (lines : List Line) :
    (instructions address lines).length = codeSize lines := by
  induction lines with
  | nil => rfl
  | cons line lines ih =>
    cases line <;>
      simp_all [instructions, codeSize, List.filterMap_cons, List.countP_cons,
        Line.instruction?, Line.isInstruction]

/-- Whether a number can be loaded. -/
def Instruction.fits : Instruction → Bool
  | .load n => 0 ≤ n && n < loadLimit
  | .compute .. => true

/-- A program assembled.  There is none if a symbol would stand for two things, or if
a number is too large to load. -/
def assemble? (lines : List Line) : Option (List Instruction) :=
  let names := (fixedSymbols lines).map Prod.fst
  let program := instructions (addressOf lines) lines
  if names.Nodup ∧ program.all Instruction.fits then some program else none

end VmToHack.Hack
