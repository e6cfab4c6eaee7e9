import VmToHack.Hack.Stack
import VmToHack.Lowering.Naming
set_option autoImplicit false

/-!
# Lowering: functions

Definition, call and return.  A call pushes a frame of five words: the address to
return to and the four base cells of the caller.  The callee's arguments lie below
the frame and its locals above it; a return finds the frame from the base of the
locals, puts the result where the first argument was, and restores the bases.
-/

namespace VmToHack

open VmToHack.Hack

/-- The base cells that a call saves, in the order in which they lie in the frame. -/
def savedCells : List Cell := [.lcl, .arg, .this, .that]

/-- The words of a frame: the return address and the saved cells. -/
def frameSize : Nat := 5

/-- The first cell of the stack, behind the registers and the static cells. -/
def stackBase : Nat := 256

/-- The function with which a program starts. -/
def initFunction : String := "Sys.init"

/-- The code of a function's start: its label, and a zero for each local. -/
def functionCode (name : String) (locals : Int) : List Line :=
  .label name :: (List.replicate locals.toNat (setTop .zero ++ incSp)).flatten

/-- The code that pushes the contents of a cell. -/
def pushCell (c : Cell) : List Line := loadCell c.symbol ++ pushD

/-- The code that pushes a frame. -/
def frameCode (returnLabel : String) : List Line :=
  loadAddress returnLabel ++ pushD ++ savedCells.flatMap pushCell

/-- The code of a call that goes on at a return label. -/
def callCode (name : String) (args : Int) (returnLabel : String) : List Line :=
  frameCode returnLabel ++
    [.symbol Cell.sp.symbol, .setD (.operand .m), .number (args + frameSize),
      .setD (.sub .a)] ++ storeD Cell.arg.symbol ++
    loadCell Cell.sp.symbol ++ storeD Cell.lcl.symbol ++
    goto name ++ [.label returnLabel]

/-- The code that loads the word so far below the end of a frame.  The end of the
frame is in `D`. -/
def loadBelow (offset : Nat) : List Line :=
  [.number offset, .setA (.sub .a), .setD (.operand .m)]

/-- The code that restores one saved cell from its place below the end of the frame. -/
def restoreCell (c : Cell) (offset : Nat) : List Line :=
  loadCell Cell.frame.symbol ++ loadBelow offset ++ storeD c.symbol

/-- The code of a return.  The return address is fetched before the result is stored:
without arguments both are in the same cell. -/
def returnCode : List Line :=
  loadCell Cell.lcl.symbol ++ storeD Cell.frame.symbol ++
    loadBelow frameSize ++ storeD Cell.returnAddress.symbol ++
    popD ++ [.symbol Cell.arg.symbol, .setA (.operand .m), .setM .d] ++
    [.symbol Cell.arg.symbol, .setD (.inc .m)] ++ storeD Cell.sp.symbol ++
    (savedCells.reverse.zipIdx 1).flatMap (fun (c, offset) => restoreCell c offset) ++
    [.symbol Cell.returnAddress.symbol, .setA (.operand .m), .jumpIf .zero .jmp]

/-- The names in which the first call is made.  It stands in the first function and
has the number zero there, which no call of that function's own can have. -/
def bootstrapNaming : Naming := ⟨"bootstrap", initFunction, 1, 0⟩

/-- The block with which a program starts: it sets up the stack and calls the first
function. -/
def bootstrapBlock : List Line :=
  [.comment "bootstrap"] ++ loadNumber stackBase ++ storeD Cell.sp.symbol ++
    [.comment ("call " ++ initFunction ++ " 0")] ++
    callCode initFunction 0 bootstrapNaming.returnLabel

end VmToHack
