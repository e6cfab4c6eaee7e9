import VmToHack.Vocabulary
import VmToHack.Hack.Stack
import VmToHack.Lowering.Naming
set_option autoImplicit false

/-!
# Lowering: places

Pushes and pops.  A segment and an index are first resolved to a `Place`, that is to
one of the few ways in which the machine can reach a value; the code then depends on
the place alone.  What cannot be resolved is refused here, with its cause.
-/

namespace VmToHack

open VmToHack.Hack

/-- Why a command has no code. -/
inductive Refusal where
  /-- an arithmetic command with an operator that does not exist -/
  | operator (op : String)
  /-- a command of a kind that does not exist -/
  | kind (name : String)
  /-- a pop to a constant -/
  | constantPop
  /-- an index of the pointer segment other than its two -/
  | pointerIndex (index : Int)
  /-- an index beyond the temporary cells -/
  | tempIndex (index : Int)
  /-- a segment that does not exist -/
  | segment (name : String)
  deriving DecidableEq, Repr, Inhabited

/-- How the machine reaches a value. -/
inductive Place where
  /-- the number itself -/
  | literal (n : Int)
  /-- so many cells above the one that a base cell points to -/
  | pointed (base : Cell) (offset : Int)
  /-- so many cells above a base cell -/
  | above (base : Cell) (offset : Int)
  /-- the cell with a symbol -/
  | cell (symbol : String)
  deriving DecidableEq, Repr, Inhabited

/-- The cell that points to the start of a segment, for the segments that move. -/
def Segment.base? : Segment → Option Cell
  | .local => some .lcl
  | .argument => some .arg
  | .this => some .this
  | .that => some .that
  | _ => none

/-- The number of temporary cells. -/
def tempSize : Nat := 8

/-- The cells of the pointer segment, in the order of their indices. -/
def pointerCells : List Cell := [.this, .that]

/-- The cell of an index of the pointer segment. -/
def pointerCell? : Int → Option Cell
  | .ofNat index => pointerCells[index]?
  | .negSucc _ => none

/-- The place of an index in a segment. -/
def Segment.place (g : Segment) (n : Naming) (index : Int) : Except Refusal Place :=
  match g.base?, g with
  | some base, _ => .ok (.pointed base index)
  | none, .constant => .ok (.literal index)
  | none, .temp =>
    if index < tempSize then .ok (.above .temp index) else .error (.tempIndex index)
  | none, .pointer =>
    match pointerCell? index with
    | some c => .ok (.cell c.symbol)
    | none => .error (.pointerIndex index)
  | none, _ => .ok (.cell (n.static index))

theorem Segment.place_temp (n : Naming) (index : Int) : Segment.temp.place n index =
    if index < tempSize then .ok (.above .temp index) else .error (.tempIndex index) := rfl

theorem Segment.place_pointer (n : Naming) (index : Int) : Segment.pointer.place n index =
    match pointerCell? index with
    | some c => .ok (.cell c.symbol)
    | none => .error (.pointerIndex index) := rfl

theorem pointerCell?_eq_some_iff {index : Int} {c : Cell} :
    pointerCell? index = some c ↔ index = 0 ∧ c = .this ∨ index = 1 ∧ c = .that := by
  match index with
  | .ofNat 0 | .ofNat 1 => cases c <;> decide
  | .ofNat (i + 2) =>
    refine iff_of_false nofun ?_
    rintro (⟨h, -⟩ | ⟨h, -⟩) <;> cases h
  | .negSucc i =>
    refine iff_of_false nofun ?_
    rintro (⟨h, -⟩ | ⟨h, -⟩) <;> cases h

theorem pointerCell?_eq_none_iff {index : Int} :
    pointerCell? index = none ↔ index ≠ 0 ∧ index ≠ 1 := by
  rw [Option.eq_none_iff_forall_ne_some]
  simp only [ne_eq, pointerCell?_eq_some_iff]
  constructor
  · exact fun h => ⟨fun h0 => h .this (.inl ⟨h0, rfl⟩), fun h1 => h .that (.inr ⟨h1, rfl⟩)⟩
  · rintro ⟨h0, h1⟩ c (⟨h, -⟩ | ⟨h, -⟩)
    · exact h0 h
    · exact h1 h

/-- The place of an index in the segment with a given name. -/
def place (n : Naming) (segment : String) (index : Int) : Except Refusal Place :=
  match Segment.ofName? segment with
  | some g => g.place n index
  | none => .error (.segment segment)

/-- The code that pushes the value at a place. -/
def Place.pushCode : Place → List Line
  | .literal n => loadNumber n ++ pushD
  | .pointed base offset =>
    loadNumber offset ++ [.symbol base.symbol, .setA (.add .m), .setD (.operand .m)] ++ pushD
  | .above base offset =>
    loadNumber offset ++ [.symbol base.symbol, .setA (.add .a), .setD (.operand .m)] ++ pushD
  | .cell symbol => loadCell symbol ++ pushD

/-- The code that pops to an address that is the result of a computation.  The pop
needs both registers, so the address is computed first and kept in a cell. -/
def popThrough (base : Cell) (offset : Int) (address : Comp) : List Line :=
  loadNumber offset ++ [.symbol base.symbol, .setD address] ++ storeD Cell.popAddress.symbol ++
    popD ++ [.symbol Cell.popAddress.symbol, .setA (.operand .m), .setM .d]

/-- The code that pops to a place; a number is no place to pop to. -/
def Place.popCode : Place → Except Refusal (List Line)
  | .literal _ => .error .constantPop
  | .pointed base offset => .ok (popThrough base offset (.add .m))
  | .above base offset => .ok (popThrough base offset (.add .a))
  | .cell symbol => .ok (popD ++ storeD symbol)

end VmToHack
