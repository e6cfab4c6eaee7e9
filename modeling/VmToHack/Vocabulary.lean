set_option autoImplicit false

/-!
# The words of the VM language

The closed sets of words out of which commands are made: the nine operators, the
eight memory segments, the two directions of a stack move, the three verbs that
take a label and the two that take a function.  Each set has one spelling function,
and the two sets that a translator has to recognise in free text have the lookup
that goes back.
-/

namespace VmToHack

/-- The operators of stack arithmetic. -/
inductive Operator where
  | add | sub | neg | eq | gt | lt | and | or | not
  deriving DecidableEq, Repr, Inhabited

namespace Operator

/-- How an operator is written. -/
def mnemonic : Operator → String
  | .add => "add"
  | .sub => "sub"
  | .neg => "neg"
  | .eq => "eq"
  | .gt => "gt"
  | .lt => "lt"
  | .and => "and"
  | .or => "or"
  | .not => "not"

/-- Every operator. -/
def all : List Operator := [.add, .sub, .neg, .eq, .gt, .lt, .and, .or, .not]

theorem mem_all (o : Operator) : o ∈ all := by cases o <;> decide

/-- The operator written so, if there is one. -/
def ofMnemonic? (s : String) : Option Operator := all.find? fun o => o.mnemonic == s

@[simp] theorem ofMnemonic?_mnemonic (o : Operator) : ofMnemonic? o.mnemonic = some o := by
  cases o <;> decide

theorem ofMnemonic?_eq_some_iff {s : String} {o : Operator} :
    ofMnemonic? s = some o ↔ o.mnemonic = s := by
  constructor
  · intro h
    simpa using List.find?_some h
  · rintro rfl
    exact ofMnemonic?_mnemonic o

end Operator

/-- The memory segments. -/
inductive Segment where
  | constant | local | argument | this | that | temp | pointer | static
  deriving DecidableEq, Repr, Inhabited

namespace Segment

/-- How a segment is written. -/
def name : Segment → String
  | .constant => "constant"
  | .local => "local"
  | .argument => "argument"
  | .this => "this"
  | .that => "that"
  | .temp => "temp"
  | .pointer => "pointer"
  | .static => "static"

/-- Every segment. -/
def all : List Segment :=
  [.constant, .local, .argument, .this, .that, .temp, .pointer, .static]

theorem mem_all (s : Segment) : s ∈ all := by cases s <;> decide

/-- The segment written so, if there is one. -/
def ofName? (s : String) : Option Segment := all.find? fun g => g.name == s

@[simp] theorem ofName?_name (g : Segment) : ofName? g.name = some g := by
  cases g <;> decide

theorem ofName?_eq_some_iff {s : String} {g : Segment} : ofName? s = some g ↔ g.name = s := by
  constructor
  · intro h
    simpa using List.find?_some h
  · rintro rfl
    exact ofName?_name g

end Segment

/-- The two directions of a move between the stack and a segment. -/
inductive Direction where
  | push | pop
  deriving DecidableEq, Repr, Inhabited

/-- How a direction is written. -/
def Direction.name : Direction → String
  | .push => "push"
  | .pop => "pop"

/-- The verbs that take a label. -/
inductive LabelVerb where
  | label | goto | ifGoto
  deriving DecidableEq, Repr, Inhabited

/-- How a verb with a label is written. -/
def LabelVerb.name : LabelVerb → String
  | .label => "label"
  | .goto => "goto"
  | .ifGoto => "if-goto"

/-- The verbs that take a function and a count. -/
inductive RoutineVerb where
  | function | call
  deriving DecidableEq, Repr, Inhabited

/-- How a verb with a function is written. -/
def RoutineVerb.name : RoutineVerb → String
  | .function => "function"
  | .call => "call"

end VmToHack
