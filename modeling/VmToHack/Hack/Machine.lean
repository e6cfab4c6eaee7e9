import VmToHack.Hack.Assembly
set_option autoImplicit false

/-!
# Hack: the machine

Words of sixteen bits in two's complement, an address register, a data register, the
address of the next instruction, and the memory.  A step executes one instruction.
There is no step behind the last instruction, and none for a computation while the
address register points beyond the memory.

Runs compose (`run_add`): where one ends the next may begin.
-/

namespace VmToHack.Hack

/-- What a register and a cell of memory hold. -/
abbrev Word := BitVec 16

/-- The contents of the memory. -/
abbrev Memory := Nat → Word

/-- The number of cells. -/
def memorySize : Nat := 32768

/-- A memory with one cell set. -/
def Memory.set (ram : Memory) (address : Nat) (value : Word) : Memory :=
  fun i => if i = address then value else ram i

theorem Memory.set_self (ram : Memory) (address : Nat) (value : Word) :
    ram.set address value address = value := by
  simp [Memory.set]

theorem Memory.set_of_ne (ram : Memory) {address i : Nat} (value : Word) (h : i ≠ address) :
    ram.set address value i = ram i := by
  simp [Memory.set, h]

/-- What a computation gives for the contents of the data register and of the second
operand. -/
def Comp.value (d : Word) (operand : Operand → Word) : Comp → Word
  | .zero => 0
  | .one => 1
  | .minusOne => -1
  | .d => d
  | .notD => ~~~d
  | .negD => -d
  | .incD => d + 1
  | .decD => d - 1
  | .operand y => operand y
  | .not y => ~~~(operand y)
  | .neg y => -(operand y)
  | .inc y => operand y + 1
  | .dec y => operand y - 1
  | .add y => d + operand y
  | .sub y => d - operand y
  | .subFrom y => operand y - d
  | .and y => d &&& operand y
  | .or y => d ||| operand y

/-- Whether a jump is taken on a value, which counts as a signed number. -/
def Jump.isTaken (value : Word) : Jump → Bool
  | .jgt => 0 < value.toInt
  | .jeq => value.toInt = 0
  | .jge => 0 ≤ value.toInt
  | .jlt => value.toInt < 0
  | .jne => value.toInt ≠ 0
  | .jle => value.toInt ≤ 0
  | .jmp => true

/-- The state of the machine. -/
structure Machine where
  /-- The address register. -/
  a : Word := 0
  /-- The data register. -/
  d : Word := 0
  /-- The address of the next instruction. -/
  pc : Nat := 0
  ram : Memory := fun _ => 0

namespace Machine

/-- The contents of a second operand. -/
def operand (m : Machine) : Operand → Word
  | .a => m.a
  | .m => m.ram m.a.toNat

/-- The state after a computation.  The cell that is set is the one addressed before;
a jump goes to what the address register holds then. -/
def compute (m : Machine) (dest : Dest) (comp : Comp) (jump : Option Jump) : Machine :=
  let value := comp.value m.d m.operand
  let a := if dest.a then value else m.a
  { a := a
    d := if dest.d then value else m.d
    pc := if jump.any (Jump.isTaken value) then a.toNat else m.pc + 1
    ram := if dest.m then m.ram.set m.a.toNat value else m.ram }

/-- The state after an instruction. -/
def execute (m : Machine) : Instruction → Option Machine
  | .load n => some { m with a := BitVec.ofInt 16 n, pc := m.pc + 1 }
  | .compute dest comp jump =>
    if m.a.toNat < memorySize then some (m.compute dest comp jump) else none

end Machine

/-- The state after one step of a program. -/
def step (program : List Instruction) (m : Machine) : Option Machine :=
  program[m.pc]?.bind m.execute

/-- The state after a number of steps. -/
def run (program : List Instruction) : Nat → Machine → Option Machine
  | 0, m => some m
  | n + 1, m => (step program m).bind (run program n)

theorem run_add (program : List Instruction) (n k : Nat) (m : Machine) :
    run program (n + k) m = (run program n m).bind (run program k) := by
  induction n generalizing m with
  | zero => simp [run]
  | succ n ih =>
    simp only [Nat.succ_add, run]
    cases step program m with
    | none => rfl
    | some m' => exact ih m'

end VmToHack.Hack
