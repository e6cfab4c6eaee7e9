import VmToHack.Proofs.Memory
import VmToHack.Proofs.Program
set_option autoImplicit false

/-!
# The reference machine

What VM commands mean, without regard to how they are translated.  A state is a position
in the program and a memory; a step executes one whole command.  Labels belong to the
function that they stand in, and are looked up in the program itself.

The memory is that of the Hack machine, so the places of the segments and of the stack
are the same.  Two things come from outside, as a `Layout`: the code addresses that calls
store, and the cells of the static segment.
-/

namespace VmToHack

open VmToHack.Hack

/-! ## Programs -/

/-- What stands at a position of a program: a command, with its unit and the function
around it, which is empty outside any. -/
inductive Slot where
  | bootstrap
  | command (unit scope : String) (c : Command)
  deriving DecidableEq, Repr, Inhabited

/-- The function around what follows a command. -/
def Command.scopeAfter (scope : String) : Command → String
  | .function name _ => name
  | _ => scope

/-- The slots of some commands. -/
def slotsFrom (unit scope : String) : List Command → List Slot
  | [] => []
  | c :: cs => .command unit scope c :: slotsFrom unit (c.scopeAfter scope) cs

/-- The slots of a program. -/
def slots (bootstrap : Bool) (units : List SourceUnit) : List Slot :=
  (if bootstrap then [.bootstrap] else []) ++ units.flatMap fun u => slotsFrom u.name "" u.commands

/-- The name that a slot gives to its position, with the function that it belongs to.  A
function's own name belongs to none. -/
def Slot.names? : Slot → Option (String × String)
  | .command _ scope (.label name) => some (scope, name)
  | .command _ _ (.function name _) => some ("", name)
  | _ => none

/-- The position with a name. -/
def positionOf (program : List Slot) (name : String × String) : Option Nat :=
  program.findIdx? fun slot => slot.names? == some name

/-- Where the code of the positions and the static cells are. -/
structure Layout where
  codeAddress : Nat → Nat
  staticCell : String → Int → Nat

/-- The first position with a code address; the end of the program is a position, too. -/
def Layout.positionAt (layout : Layout) (program : List Slot) (address : Nat) : Option Nat :=
  (List.range (program.length + 1)).find? fun position => layout.codeAddress position == address

/-! ## Arithmetic -/

/-- Minus one for true, and zero for false. -/
def truth (b : Bool) : Word := if b then -1 else 0

/-- What an operator does with its operands, the first one first. -/
inductive Meaning where
  | unary (f : Word → Word)
  | binary (f : Word → Word → Word)

/-- A comparison looks at the sign of the difference, which wraps around. -/
def Operator.meaning : Operator → Meaning
  | .add => .binary fun x y => x + y
  | .sub => .binary fun x y => x - y
  | .neg => .unary fun x => -x
  | .eq => .binary fun x y => truth ((x - y).toInt = 0)
  | .gt => .binary fun x y => truth (0 < (x - y).toInt)
  | .lt => .binary fun x y => truth ((x - y).toInt < 0)
  | .and => .binary fun x y => x &&& y
  | .or => .binary fun x y => x ||| y
  | .not => .unary fun x => ~~~x

/-- The memory after an operator. -/
def Meaning.apply (ram : Memory) : Meaning → Memory
  | .unary f => ram.drop.push (f ram.top)
  | .binary f => ram.drop.drop.push (f ram.drop.top ram.top)

/-- The cells of the operands. -/
def Meaning.operands (ram : Memory) : Meaning → List Nat
  | .unary _ => [ram.sp - 1]
  | .binary _ => [ram.sp - 1, ram.sp - 2]

/-! ## Segments -/

/-- The cell of an index in a segment.  Constants have none. -/
def Segment.cell? (layout : Layout) (unit : String) (ram : Memory) (index : Int) :
    Segment → Option Nat
  | .constant => none
  | .local => some (ram Cell.lcl.address + BitVec.ofInt 16 index).toNat
  | .argument => some (ram Cell.arg.address + BitVec.ofInt 16 index).toNat
  | .this => some (ram Cell.this.address + BitVec.ofInt 16 index).toNat
  | .that => some (ram Cell.that.address + BitVec.ofInt 16 index).toNat
  | .temp => if 0 ≤ index ∧ index < 8 then some (5 + index.toNat) else none
  | .pointer =>
    if index = 0 then some Cell.this.address
    else if index = 1 then some Cell.that.address
    else none
  | .static => some (layout.staticCell unit index)

/-- The cell of an index in the segment with a name. -/
def segmentCell? (layout : Layout) (unit : String) (ram : Memory) (segment : String)
    (index : Int) : Option Nat :=
  (Segment.ofName? segment).bind (Segment.cell? layout unit ram index)

/-- The value that a push takes. -/
def segmentValue? (layout : Layout) (unit : String) (ram : Memory) (segment : String)
    (index : Int) : Option Word :=
  if segment = Segment.constant.name then some (BitVec.ofInt 16 index)
  else (segmentCell? layout unit ram segment index).map ram

/-! ## Steps -/

/-- The state of the reference machine. -/
structure VmState where
  position : Nat
  ram : Memory

/-- Calls a function, which is to return to the next position. -/
def VmState.call (layout : Layout) (program : List Slot) (s : VmState) (name : String)
    (args : Int) : Option VmState :=
  (positionOf program ("", name)).map fun entry =>
    ⟨entry, s.ram.enter (BitVec.ofNat 16 (layout.codeAddress (s.position + 1)))
      (BitVec.ofInt 16 args)⟩

/-- Executes what stands at the position. -/
def VmState.execute (layout : Layout) (program : List Slot) (s : VmState) :
    Slot → Option VmState
  | .bootstrap =>
    VmState.call layout program
      { s with ram := s.ram.set Cell.sp.address (BitVec.ofNat 16 stackBase) } initFunction 0
  | .command unit scope c =>
    match c with
    | .arithmetic op =>
      (Operator.ofMnemonic? op).map fun o => ⟨s.position + 1, o.meaning.apply s.ram⟩
    | .push segment index =>
      (segmentValue? layout unit s.ram segment index).map fun value =>
        ⟨s.position + 1, s.ram.push value⟩
    | .pop segment index =>
      (segmentCell? layout unit s.ram segment index).map fun cell =>
        ⟨s.position + 1, s.ram.drop.set cell s.ram.top⟩
    | .label _ => some ⟨s.position + 1, s.ram⟩
    | .goto name => (positionOf program (scope, name)).map fun target => ⟨target, s.ram⟩
    | .ifGoto name =>
      if s.ram.top = 0 then some ⟨s.position + 1, s.ram.drop⟩
      else (positionOf program (scope, name)).map fun target => ⟨target, s.ram.drop⟩
    | .function _ locals => some ⟨s.position + 1, s.ram.pushZeros locals.toNat⟩
    | .call name args => s.call layout program name args
    | .ret =>
      (layout.positionAt program s.ram.returnAddress.toNat).map fun target =>
        ⟨target, s.ram.leave⟩
    | .other _ => none

/-- One step of the reference machine. -/
def VmState.step (layout : Layout) (program : List Slot) (s : VmState) : Option VmState :=
  program[s.position]?.bind (s.execute layout program)

/-! ## What a step touches -/

/-- The words of the frame of the running function. -/
def frameCells (ram : Memory) : List Nat :=
  (List.range' 1 frameSize).map fun offset =>
    (ram Cell.lcl.address - BitVec.ofNat 16 offset).toNat

/-- The cells that a command reads other than from the top of the stack. -/
def VmState.readCells (layout : Layout) (s : VmState) : Slot → List Nat
  | .command unit _ (.push segment index) =>
    (segmentCell? layout unit s.ram segment index).toList
  | .command _ _ .ret => frameCells s.ram
  | _ => []

/-- The cells that a command addresses on the stack and in the segments. -/
def VmState.addressedCells (layout : Layout) (s : VmState) (slot : Slot) : List Nat :=
  s.readCells layout slot ++
    match slot with
    | .bootstrap => []
    | .command unit _ c =>
      match c with
      | .arithmetic op =>
        ((Operator.ofMnemonic? op).map fun o => o.meaning.operands s.ram).getD []
      | .push _ _ => [s.ram.sp]
      | .pop segment index =>
        (s.ram.sp - 1) :: (segmentCell? layout unit s.ram segment index).toList
      | .ifGoto _ => [s.ram.sp - 1]
      | .function _ locals => List.range' s.ram.sp locals.toNat
      | .call _ _ => List.range' s.ram.sp frameSize
      | .ret => [s.ram.sp - 1, (s.ram Cell.arg.address).toNat]
      | _ => []

end VmToHack
