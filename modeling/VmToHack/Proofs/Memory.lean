import VmToHack.Hack.Machine
import VmToHack.Hack.Stack
set_option autoImplicit false

/-!
# Memory: the stack and agreement

The stack that lives in the memory of the machine, as operations on whole memories:
`push`, `drop` and `top` move through the stack pointer as the emitted code does.
Each operation has its lemmas on the stack pointer and on the cells that it leaves
alone, and later proofs never look into a memory otherwise.

Two memories agree off some cells if they have the same contents everywhere else.
That is how a block says which cells it may use for itself, and every operation
keeps agreement.
-/

namespace VmToHack.Hack

/-- The cells of the machine lie below the first variable. -/
theorem Cell.address_lt (c : Cell) : c.address < variableBase := by cases c <;> decide

namespace Memory

/-! ## The stack -/

/-- Where the stack pointer points. -/
def sp (ram : Memory) : Nat := (ram Cell.sp.address).toNat

/-- Writes a value into the first free cell of the stack and moves the pointer up. -/
def push (ram : Memory) (value : Word) : Memory :=
  (ram.set ram.sp value).set Cell.sp.address (ram Cell.sp.address + 1)

/-- Moves the pointer down. -/
def drop (ram : Memory) : Memory := ram.set Cell.sp.address (ram Cell.sp.address - 1)

/-- The value on top of the stack. -/
def top (ram : Memory) : Word := ram (ram.sp - 1)

theorem sp_lt (ram : Memory) : ram.sp < 65536 := (ram Cell.sp.address).isLt

theorem toNat_sp_sub_one {ram : Memory} (h : 0 < ram.sp) :
    (ram Cell.sp.address - 1).toNat = ram.sp - 1 := by
  have := ram.sp_lt
  simp only [sp] at *
  bv_omega

theorem toNat_sp_add_one {ram : Memory} (h : ram.sp < 65535) :
    (ram Cell.sp.address + 1).toNat = ram.sp + 1 := by
  simp only [sp] at *
  bv_omega

theorem sp_set_self (ram : Memory) (value : Word) :
    (ram.set Cell.sp.address value).sp = value.toNat := by
  simp [sp, Memory.set]

theorem sp_set_of_ne {ram : Memory} {address : Nat} (value : Word)
    (h : address ≠ Cell.sp.address) : (ram.set address value).sp = ram.sp := by
  simp [sp, Memory.set, h.symm]

theorem sp_drop {ram : Memory} (h : 0 < ram.sp) : ram.drop.sp = ram.sp - 1 := by
  rw [drop, sp_set_self, toNat_sp_sub_one h]

theorem sp_push {ram : Memory} (value : Word) (h : ram.sp < 65535) :
    (ram.push value).sp = ram.sp + 1 := by
  rw [push, sp_set_self, toNat_sp_add_one h]

theorem drop_of_ne (ram : Memory) {i : Nat} (h : i ≠ Cell.sp.address) : ram.drop i = ram i :=
  Memory.set_of_ne _ _ h

theorem push_of_ne (ram : Memory) (value : Word) {i : Nat} (h : i ≠ Cell.sp.address)
    (hsp : i ≠ ram.sp) : ram.push value i = ram i := by
  rw [push, Memory.set_of_ne _ _ h, Memory.set_of_ne _ _ hsp]

theorem push_top (ram : Memory) (value : Word) (h : 0 < ram.sp) :
    ram.push value ram.sp = value := by
  have hne : ram.sp ≠ Cell.sp.address := Nat.ne_of_gt h
  rw [push, Memory.set_of_ne _ _ hne, Memory.set_self]

/-- Pushes some zeros. -/
def pushZeros : Nat → Memory → Memory
  | 0, ram => ram
  | k + 1, ram => pushZeros k (ram.push 0)

/-! ## Frames -/

/-- The cells that a frame saves, in the order in which they lie in it. -/
def framed : List Cell := [.lcl, .arg, .this, .that]

/-- The words of a frame: an address to return to, and the saved cells. -/
def frameWords : Nat := 5

/-- Pushes an address to return to and the cells that a frame saves. -/
def pushFrame (ram : Memory) (returnAddress : Word) : Memory :=
  framed.foldl (fun r c => r.push (r c.address)) (ram.push returnAddress)

/-- What a call does: pushes a frame, and moves the base of the arguments below it and
the base of the locals above it. -/
def enter (ram : Memory) (returnAddress args : Word) : Memory :=
  let pushed := ram.pushFrame returnAddress
  (pushed.set Cell.arg.address (pushed Cell.sp.address - args - BitVec.ofNat 16 frameWords)).set
    Cell.lcl.address (pushed Cell.sp.address)

/-- The address to return to, as the frame below the locals has it. -/
def returnAddress (ram : Memory) : Word :=
  ram (ram Cell.lcl.address - BitVec.ofNat 16 frameWords).toNat

/-- Restores one cell from so many words below the end of a frame. -/
def restore (frame : Word) (ram : Memory) (c : Cell) (offset : Nat) : Memory :=
  ram.set c.address (ram (frame - BitVec.ofNat 16 offset).toNat)

/-- Puts the value on top where the first argument is, and ends the stack behind it. -/
def answer (ram : Memory) : Memory :=
  let stored := ram.drop.set (ram Cell.arg.address).toNat ram.top
  stored.set Cell.sp.address (stored Cell.arg.address + 1)

/-- What a return does: the result is put in place, and the saved cells are restored,
the last one first. -/
def leave (ram : Memory) : Memory :=
  (framed.reverse.zipIdx 1).foldl
    (fun r (c, offset) => restore (ram Cell.lcl.address) r c offset) ram.answer

/-! ## Agreement -/

/-- Two memories have the same contents off some cells. -/
def AgreesOff (cells : List Nat) (ram ram' : Memory) : Prop :=
  ∀ i, i ∉ cells → ram i = ram' i

namespace AgreesOff

variable {cells cells' : List Nat} {ram ram' ram'' : Memory}

theorem refl (cells : List Nat) (ram : Memory) : AgreesOff cells ram ram := fun _ _ => rfl

theorem trans (h : AgreesOff cells ram ram') (h' : AgreesOff cells ram' ram'') :
    AgreesOff cells ram ram'' :=
  fun i hi => (h i hi).trans (h' i hi)

theorem mono (h : AgreesOff cells ram ram') (hsub : cells ⊆ cells') :
    AgreesOff cells' ram ram' :=
  fun i hi => h i fun hmem => hi (hsub hmem)

theorem set (h : AgreesOff cells ram ram') (address : Nat) {value value' : Word}
    (hv : value = value') : AgreesOff cells (ram.set address value) (ram'.set address value') := by
  intro i hi
  subst hv
  by_cases he : i = address
  · rw [he, Memory.set_self, Memory.set_self]
  · rw [Memory.set_of_ne _ _ he, Memory.set_of_ne _ _ he, h i hi]

/-- A cell that does not count may be set on one side only. -/
theorem set_left (h : AgreesOff cells ram ram') {address : Nat} (value : Word)
    (hmem : address ∈ cells) : AgreesOff cells (ram.set address value) ram' := by
  intro i hi
  have hne : i ≠ address := by
    rintro rfl
    exact hi hmem
  rw [Memory.set_of_ne _ _ hne, h i hi]

theorem sp_eq (h : AgreesOff cells ram ram') (h0 : Cell.sp.address ∉ cells) :
    ram.sp = ram'.sp := congrArg BitVec.toNat (h _ h0)

theorem push (h : AgreesOff cells ram ram') (h0 : Cell.sp.address ∉ cells)
    {value value' : Word} (hv : value = value') :
    AgreesOff cells (ram.push value) (ram'.push value') := by
  rw [Memory.push, Memory.push, h.sp_eq h0]
  exact (h.set _ hv).set _ (by rw [h _ h0])

theorem drop (h : AgreesOff cells ram ram') (h0 : Cell.sp.address ∉ cells) :
    AgreesOff cells ram.drop ram'.drop :=
  h.set _ (by rw [h _ h0])

theorem top (h : AgreesOff cells ram ram') (h0 : Cell.sp.address ∉ cells)
    (htop : ram.sp - 1 ∉ cells) : ram.top = ram'.top := by
  rw [Memory.top, Memory.top, ← h.sp_eq h0]
  exact h _ htop

theorem pushZeros (h : AgreesOff cells ram ram') (h0 : Cell.sp.address ∉ cells) (k : Nat) :
    AgreesOff cells (ram.pushZeros k) (ram'.pushZeros k) := by
  induction k generalizing ram ram' with
  | zero => exact h
  | succ k ih => exact ih (h.push h0 rfl)

theorem pushCells (h : AgreesOff cells ram ram') (h0 : Cell.sp.address ∉ cells)
    (saved : List Cell) (hsaved : ∀ c ∈ saved, c.address ∉ cells) :
    AgreesOff cells (saved.foldl (fun r c => r.push (r c.address)) ram)
      (saved.foldl (fun r c => r.push (r c.address)) ram') := by
  induction saved generalizing ram ram' with
  | nil => exact h
  | cons c saved ih =>
    refine ih ?_ fun c' hc' => hsaved c' (List.mem_cons_of_mem c hc')
    exact h.push h0 (h _ (hsaved c List.mem_cons_self))

/-- A call reads and writes the same, if the cells that it saves count. -/
theorem enter (h : AgreesOff cells ram ram') (h0 : Cell.sp.address ∉ cells)
    (hframed : ∀ c ∈ framed, c.address ∉ cells) (returnAddress args : Word) :
    AgreesOff cells (ram.enter returnAddress args) (ram'.enter returnAddress args) := by
  have hpushed : AgreesOff cells (ram.pushFrame returnAddress) (ram'.pushFrame returnAddress) :=
    (h.push h0 (Eq.refl returnAddress)).pushCells h0 framed hframed
  have hsp := hpushed _ h0
  exact (hpushed.set _ (by rw [hsp])).set _ hsp

theorem answer (h : AgreesOff cells ram ram') (h0 : Cell.sp.address ∉ cells)
    (h2 : Cell.arg.address ∉ cells) (htop : ram.sp - 1 ∉ cells) :
    AgreesOff cells ram.answer ram'.answer := by
  have hvalue := h.top h0 htop
  have hstored := (h.drop h0).set (ram Cell.arg.address).toNat hvalue
  rw [Memory.answer, Memory.answer, ← h _ h2]
  exact hstored.set _ (by rw [hstored _ h2])

/-- Cells are restored alike if the frame is the same and its words count. -/
theorem restoreAll (frame : Word) (saved : List (Cell × Nat))
    (hsaved : ∀ p ∈ saved, (frame - BitVec.ofNat 16 p.2).toNat ∉ cells)
    (h : AgreesOff cells ram ram') :
    AgreesOff cells (saved.foldl (fun r (c, offset) => restore frame r c offset) ram)
      (saved.foldl (fun r (c, offset) => restore frame r c offset) ram') := by
  induction saved generalizing ram ram' with
  | nil => exact h
  | cons p saved ih =>
    refine ih (fun q hq => hsaved q (List.mem_cons_of_mem p hq)) ?_
    exact h.set _ (h _ (hsaved p List.mem_cons_self))

theorem leave (h : AgreesOff cells ram ram') (h0 : Cell.sp.address ∉ cells)
    (h1 : Cell.lcl.address ∉ cells) (h2 : Cell.arg.address ∉ cells) (htop : ram.sp - 1 ∉ cells)
    (hframe : ∀ p ∈ framed.reverse.zipIdx 1,
      (ram Cell.lcl.address - BitVec.ofNat 16 p.2).toNat ∉ cells) :
    AgreesOff cells ram.leave ram'.leave := by
  rw [Memory.leave, Memory.leave, ← h _ h1]
  exact (h.answer h0 h2 htop).restoreAll _ _ hframe

end AgreesOff

end Memory

end VmToHack.Hack
