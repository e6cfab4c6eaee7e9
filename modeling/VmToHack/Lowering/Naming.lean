set_option autoImplicit false

/-!
# Lowering: names

The symbols that lowering makes up, and the state they depend on.  A label of
the source belongs to the function around it and carries its name; a label that the
lowering makes up carries the name of the function, or that of the unit outside
any function, and a number that counts from one in each function.  The sign `$`,
which no name of the source can hold, separates the parts.
-/

namespace VmToHack

/-- Where lowering stands with its names. -/
structure Naming where
  /-- The name of the unit that is translated, in general one file. -/
  unit : String
  /-- The function around, empty outside any. -/
  function : String := ""
  /-- The number of the next comparison. -/
  comparisons : Int := 1
  /-- The number of the next call. -/
  calls : Int := 1
  deriving DecidableEq, Repr, Inhabited

namespace Naming

/-- Enters a function; the numbers start again. -/
def enter (n : Naming) (function : String) : Naming := ⟨n.unit, function, 1, 1⟩

/-- The symbol of a label of the source.  Outside any function it is the label. -/
def labelSymbol (n : Naming) (label : String) : String :=
  if n.function = "" then label else n.function ++ "$" ++ label

/-- Whose the made-up labels are. -/
def owner (n : Naming) : String := if n.function = "" then n.unit else n.function

/-- The label of the branch that a comparison takes if it holds. -/
def trueLabel (n : Naming) (op : String) : String :=
  n.owner ++ "$" ++ op.toUpper ++ "$TRUE." ++ toString n.comparisons

/-- The label at which the two branches of a comparison meet. -/
def endLabel (n : Naming) (op : String) : String :=
  n.owner ++ "$" ++ op.toUpper ++ "$END." ++ toString n.comparisons

/-- The names after a comparison. -/
def afterComparison (n : Naming) : Naming := { n with comparisons := n.comparisons + 1 }

/-- The label at which a call goes on when it returns. -/
def returnLabel (n : Naming) : String := n.owner ++ "$ret." ++ toString n.calls

/-- The names after a call. -/
def afterCall (n : Naming) : Naming := { n with calls := n.calls + 1 }

/-- The symbol of a cell of the static segment. -/
def static (n : Naming) (index : Int) : String := n.unit ++ "." ++ toString index

@[simp] theorem unit_enter (n : Naming) (f : String) : (n.enter f).unit = n.unit := rfl
@[simp] theorem unit_afterComparison (n : Naming) : n.afterComparison.unit = n.unit := rfl
@[simp] theorem unit_afterCall (n : Naming) : n.afterCall.unit = n.unit := rfl

end Naming

/-- The part of a path behind its last separator, of which there are two kinds. -/
def lastComponent (path : List Char) : List Char :=
  (path.reverse.takeWhile fun c => c ≠ '/' && c ≠ '\\').reverse

/-- The name of the unit in a file: the file's name, without its directories and up
to its first dot. -/
def unitLabel (fileName : String) : String :=
  String.ofList ((lastComponent fileName.toList).takeWhile (· ≠ '.'))

end VmToHack
