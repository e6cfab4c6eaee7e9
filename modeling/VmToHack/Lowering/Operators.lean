import VmToHack.Vocabulary
import VmToHack.Hack.Stack
import VmToHack.Lowering.Naming
set_option autoImplicit false

/-!
# Lowering: operators

The code of stack arithmetic.  An operator takes its operands off the stack, the
second one first, and pushes its result.  Seven of the nine are one computation; a
comparison looks at the sign of the difference and branches, so it needs two labels.
-/

namespace VmToHack

open VmToHack.Hack

/-- How an operator gets its result. -/
inductive Effect where
  /-- one computation on the second operand in `D` and the first in `M` -/
  | binary (comp : Comp)
  /-- one computation on the operand in `M` -/
  | unary (comp : Comp)
  /-- a jump on the difference of the operands -/
  | comparison (jump : Jump)
  deriving DecidableEq, Repr, Inhabited

/-- What each operator does. -/
def Operator.effect : Operator → Effect
  | .add => .binary (.add .m)
  | .sub => .binary (.subFrom .m)
  | .and => .binary (.and .m)
  | .or => .binary (.or .m)
  | .neg => .unary (.neg .m)
  | .not => .unary (.not .m)
  | .eq => .comparison .jeq
  | .gt => .comparison .jgt
  | .lt => .comparison .jlt

/-- The code of an operator of two operands. -/
def binaryCode (comp : Comp) : List Line := popD ++ decSp ++ [.setD comp] ++ pushD

/-- The code of an operator of one operand. -/
def unaryCode (comp : Comp) : List Line := decSp ++ [.setD comp] ++ pushD

/-- The code of a comparison: true is all ones, false is zero. -/
def comparisonCode (jump : Jump) (whenTrue whenDone : String) : List Line :=
  popD ++ decSp ++ [.setD (.subFrom .m), .symbol whenTrue, .jumpIf .d jump, .setD .zero] ++
    goto whenDone ++ [.label whenTrue, .setD .minusOne, .label whenDone] ++ setTop .d ++ incSp

/-- The code of an operator, and the names after it. -/
def Operator.code (o : Operator) (n : Naming) : List Line × Naming :=
  match o.effect with
  | .binary comp => (binaryCode comp, n)
  | .unary comp => (unaryCode comp, n)
  | .comparison jump =>
    (comparisonCode jump (n.trueLabel o.mnemonic) (n.endLabel o.mnemonic), n.afterComparison)

end VmToHack
