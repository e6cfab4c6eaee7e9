import VmToHack.Hack.Instruction
set_option autoImplicit false

/-!
# Hack: cells and stack idioms

The machine cells that the stack machine lives in, and the short instruction
sequences from which every block is made: moves between the data register and a
cell, and pushes and pops through the stack pointer.

`SP` points at the first free cell.  A push writes there and moves up; a pop moves
down and leaves the address register on the cell popped.
-/

namespace VmToHack.Hack

/-- The cells with a name of their own. -/
inductive Cell where
  /-- the stack pointer -/
  | sp
  /-- base of the locals of the running function -/
  | lcl
  /-- base of its arguments -/
  | arg
  /-- base of the current object -/
  | this
  /-- base of the current array -/
  | that
  /-- first of the eight temporary cells -/
  | temp
  /-- holds the target of a pop while the value is fetched -/
  | popAddress
  /-- holds the end of the frame while a function returns -/
  | frame
  /-- holds the address to return to -/
  | returnAddress
  deriving DecidableEq, Repr, Inhabited

/-- The assembler's name for a cell. -/
def Cell.symbol : Cell → String
  | .sp => "SP"
  | .lcl => "LCL"
  | .arg => "ARG"
  | .this => "THIS"
  | .that => "THAT"
  | .temp => "R5"
  | .popAddress => "R13"
  | .frame => "R14"
  | .returnAddress => "R15"

/-- Where a cell is in memory. -/
def Cell.address : Cell → Nat
  | .sp => 0
  | .lcl => 1
  | .arg => 2
  | .this => 3
  | .that => 4
  | .temp => 5
  | .popAddress => 13
  | .frame => 14
  | .returnAddress => 15

/-! ## The data register -/

/-- Loads a number. -/
def loadNumber (n : Int) : List Line := [.number n, .setD (.operand .a)]

/-- Loads the address of a symbol. -/
def loadAddress (symbol : String) : List Line := [.symbol symbol, .setD (.operand .a)]

/-- Loads the contents of a cell. -/
def loadCell (symbol : String) : List Line := [.symbol symbol, .setD (.operand .m)]

/-- Stores into a cell. -/
def storeD (symbol : String) : List Line := [.symbol symbol, .setM .d]

/-! ## The stack -/

/-- Moves the stack pointer up. -/
def incSp : List Line := [.symbol Cell.sp.symbol, .setM (.inc .m)]

/-- Moves the stack pointer down and addresses the cell it points at then. -/
def decSp : List Line := [.symbol Cell.sp.symbol, .setAM (.dec .m)]

/-- Writes a value into the first free cell of the stack. -/
def setTop (comp : Comp) : List Line :=
  [.symbol Cell.sp.symbol, .setA (.operand .m), .setM comp]

/-- Pushes the data register. -/
def pushD : List Line := setTop .d ++ incSp

/-- Pops into the data register. -/
def popD : List Line := decSp ++ [.setD (.operand .m)]

/-! ## Jumps -/

/-- Jumps to a label. -/
def goto (label : String) : List Line := [.symbol label, .jumpIf .zero .jmp]

end VmToHack.Hack
