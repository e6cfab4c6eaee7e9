import VmToHack.Proofs.Blocks
set_option autoImplicit false

/-!
# Frames: the code of calls and returns

A call pushes a frame and moves the two bases; a return finds the frame again from the
base of the locals.  On memories these are `enter` and `leave`, and the two lemmas
`reaches_callCode` and `reaches_returnCode` say that the emitted code does just that.

The return keeps the end of the frame in `R14` and the address to return to in `R15`
while it overwrites everything else that it reads, so its lemma asks that neither the
frame nor the cell of the result be one of these two.
-/

namespace VmToHack

open VmToHack.Hack

variable {address : String → Nat} {program : List Instruction}

/-! ## What a return keeps -/

/-- The cells in which a return keeps what it still needs. -/
def returnScratch : List Nat := [Cell.frame.address, Cell.returnAddress.address]

/-- A cell that a return may read or write while these are in use. -/
def Clear (address : Nat) : Prop := address < memorySize ∧ address ∉ returnScratch

/-- The cells that a return restores are none of these, and lie in the frame. -/
theorem saved_offsets :
    ∀ p ∈ savedCells.reverse.zipIdx 1,
      0 < p.2 ∧ p.2 ≤ frameSize ∧ p.1.address ∉ returnScratch := by
  decide

/-- A memory with the end of the frame and the address to return to in these cells. -/
def keepReturn (ram : Memory) : Memory :=
  (ram.set Cell.frame.address (ram Cell.lcl.address)).set Cell.returnAddress.address
    ram.returnAddress

theorem agreesOff_keepReturn (ram : Memory) : (keepReturn ram).AgreesOff returnScratch ram :=
  ((Memory.AgreesOff.refl _ ram).set_left _ List.mem_cons_self).set_left _
    (List.mem_cons_of_mem _ List.mem_cons_self)

/-- The two cells hold the end of a frame and an address to return to. -/
structure Keeps (ram : Memory) (frame goal : Word) : Prop where
  frame_eq : ram Cell.frame.address = frame
  goal_eq : ram Cell.returnAddress.address = goal

namespace Keeps

variable {ram : Memory} {frame goal : Word}

theorem set (h : Keeps ram frame goal) {address : Nat} (hne : address ∉ returnScratch)
    (value : Word) : Keeps (ram.set address value) frame goal := by
  simp only [returnScratch, List.mem_cons, not_or] at hne
  refine ⟨?_, ?_⟩
  · rw [Memory.set_of_ne _ _ (Ne.symm hne.1)]
    exact h.frame_eq
  · rw [Memory.set_of_ne _ _ (Ne.symm hne.2.1)]
    exact h.goal_eq

theorem answer (h : Keeps ram frame goal) (harg : (ram Cell.arg.address).toNat ∉ returnScratch) :
    Keeps ram.answer frame goal :=
  ((h.set (by decide) _).set harg _).set (by decide) _

end Keeps

section

variable (hc : KnowsCells address)
include hc

/-! ## Calls -/

theorem follow_pushCell (c : Cell) {m : Machine} (h0 : 0 < m.ram.sp)
    (hlt : m.ram.sp < memorySize) :
    follow address (pushCell c) m =
      some
        { a := 0, d := m.ram c.address, pc := m.pc + 7, ram := m.ram.push (m.ram c.address) } := by
  unfold pushCell
  rw [follow_append, follow_loadCell (hc.lt c), Option.bind_some, hc]
  exact follow_pushD hc h0 hlt

/-- The code that pushes some cells. -/
theorem follow_pushCells (cells : List Cell) {m : Machine} (h0 : 0 < m.ram.sp)
    (hlt : m.ram.sp + cells.length ≤ memorySize) :
    ∃ m', follow address (cells.flatMap pushCell) m = some m' ∧
      m'.ram = cells.foldl (fun ram c => ram.push (ram c.address)) m.ram := by
  induction cells generalizing m with
  | nil => exact ⟨m, rfl, rfl⟩
  | cons c cells ih =>
    rw [List.length_cons] at hlt
    have hnext : (m.ram.push (m.ram c.address)).sp = m.ram.sp + 1 :=
      Memory.sp_push _ (by have : memorySize = 32768 := rfl; omega)
    rw [List.flatMap_cons, follow_append, follow_pushCell hc c h0 (by omega), Option.bind_some]
    exact ih (by show 0 < (m.ram.push (m.ram c.address)).sp; omega)
      (by show (m.ram.push (m.ram c.address)).sp + cells.length ≤ memorySize; omega)

omit hc in
/-- The code that subtracts a number from the data register. -/
theorem follow_subNumber {n : Int} (h0 : 0 ≤ n) (h1 : n < loadLimit) (m : Machine) :
    follow address [.number n, .setD (.sub .a)] m =
      some { m with
        a := BitVec.ofInt 16 n, d := m.d - BitVec.ofInt 16 n, pc := m.pc + 2 } :=
  follow_number_setD h0 h1 _ m

/-- The code that moves the bases: that of the arguments below the frame and that of the
locals to the end of the stack. -/
theorem follow_moveBases {args : Int} (h0 : 0 ≤ args + frameSize)
    (h1 : args + frameSize < loadLimit) (m : Machine) :
    ∃ m', follow address
        ([.symbol Cell.sp.symbol, .setD (.operand .m), .number (args + frameSize),
          .setD (.sub .a)] ++ storeD Cell.arg.symbol ++ loadCell Cell.sp.symbol ++
          storeD Cell.lcl.symbol) m = some m' ∧
      m'.ram = (m.ram.set Cell.arg.address
        (m.ram Cell.sp.address - BitVec.ofInt 16 args - BitVec.ofNat 16 frameSize)).set
          Cell.lcl.address (m.ram Cell.sp.address) := by
  have hsub := follow_append address (loadCell Cell.sp.symbol)
    [.number (args + frameSize), .setD (.sub .a)] m
  rw [follow_loadCell (hc.lt .sp), hc, Option.bind_some, follow_subNumber h0 h1] at hsub
  have hword : ∀ w : Word, w - BitVec.ofInt 16 (args + frameSize) =
      w - BitVec.ofInt 16 args - BitVec.ofNat 16 frameSize := by
    intro w
    have hadd : BitVec.ofInt 16 (args + frameSize) =
        BitVec.ofInt 16 args + BitVec.ofNat 16 frameSize := BitVec.ofInt_add _ _
    rw [hadd]
    bv_omega
  have hcode : [.symbol Cell.sp.symbol, .setD (.operand .m), .number (args + frameSize),
      .setD (.sub .a)] =
      loadCell Cell.sp.symbol ++ [.number (args + frameSize), .setD (.sub .a)] := rfl
  rw [hcode, follow_append, follow_append, follow_append, hsub, Option.bind_some,
    follow_storeD (hc.lt .arg), Option.bind_some, follow_loadCell (hc.lt .sp), Option.bind_some,
    follow_storeD (hc.lt .lcl), hc, hc, hc]
  refine ⟨_, rfl, ?_⟩
  rw [← hword]
  rfl

/-- The code of a call: it goes to the function with a frame on the stack. -/
theorem reaches_callCode {name returnLabel : String} {args : Int} {m : Machine}
    (hp : Placed program address m.pc (callCode name args returnLabel))
    (hargs : 0 ≤ args + frameSize) (hargs' : args + frameSize < loadLimit)
    (hname : address name < memorySize) (hreturn : address returnLabel < memorySize)
    (h0 : 0 < m.ram.sp) (hsp : m.ram.sp + frameSize ≤ memorySize) :
    ∃ m', Reaches program m m' ∧ m'.pc = address name ∧
      m'.ram = m.ram.enter (BitVec.ofNat 16 (address returnLabel)) (BitVec.ofInt 16 args) := by
  have hfive : frameSize = 5 := rfl
  have hsize : memorySize = 32768 := rfl
  let setUp : List Line :=
    loadAddress returnLabel ++ pushD ++ savedCells.flatMap pushCell ++
      ([.symbol Cell.sp.symbol, .setD (.operand .m), .number (args + frameSize),
        .setD (.sub .a)] ++ storeD Cell.arg.symbol ++ loadCell Cell.sp.symbol ++
        storeD Cell.lcl.symbol)
  have hpieces : callCode name args returnLabel =
      setUp ++ (goto name ++ [.label returnLabel]) := by
    simp [callCode, frameCode, setUp]
  rw [hpieces] at hp
  let returning : Machine :=
    { a := 0
      d := BitVec.ofNat 16 (address returnLabel)
      pc := m.pc + 7
      ram := m.ram.push (BitVec.ofNat 16 (address returnLabel)) }
  have hnext : returning.ram.sp = m.ram.sp + 1 := Memory.sp_push _ (by omega)
  have hreturning : follow address (loadAddress returnLabel ++ pushD) m = some returning := by
    rw [follow_append, follow_loadAddress hreturn, Option.bind_some]
    exact follow_pushD hc h0 (by show m.ram.sp < memorySize; omega)
  obtain ⟨pushed, hpushed, hframe⟩ :=
    follow_pushCells hc savedCells (by omega : 0 < returning.ram.sp)
      (by show returning.ram.sp + 4 ≤ memorySize; omega)
  obtain ⟨moved, hmoved, hbases⟩ := follow_moveBases hc hargs hargs' pushed
  have hfollow : follow address setUp m = some moved := by
    rw [follow_append, follow_append, hreturning, Option.bind_some, hpushed, Option.bind_some]
    exact hmoved
  obtain ⟨hreach, hpc⟩ := reaches_of_follow hp.left rfl hfollow
  have hgoto := hp.right.left
  rw [← hpc] at hgoto
  obtain ⟨m', hreach', hpc', hram⟩ := reaches_goto hgoto hname
  refine ⟨m', hreach.trans hreach', hpc', ?_⟩
  rw [hram, hbases, hframe]
  rfl

/-! ## Returns -/

omit hc in
/-- Loads the word so far below where the data register points. -/
theorem follow_loadBelow {offset : Nat} (ho : offset < memorySize) {m : Machine}
    (hlt : (m.d - BitVec.ofNat 16 offset).toNat < memorySize) :
    follow address (loadBelow offset) m =
      some { m with
        a := m.d - BitVec.ofNat 16 offset
        d := m.ram (m.d - BitVec.ofNat 16 offset).toNat
        pc := m.pc + 3 } := by
  have hword : BitVec.ofInt 16 (offset : Int) = BitVec.ofNat 16 offset :=
    BitVec.ofInt_natCast 16 offset
  have hnumber : (BitVec.ofInt 16 (offset : Int)).toNat < memorySize := by
    rwa [hword, toNat_ofNat_of_lt ho]
  unfold loadBelow
  rw [follow_number, Line.setA, follow_compute hnumber]
  simp only [Machine.compute, Comp.value, Machine.operand, hword]
  unfold Line.setD
  rw [follow_compute hlt]
  rfl

/-- The code that restores one cell. -/
theorem follow_restoreCell {c : Cell} {offset : Nat} (ho : offset < memorySize) {m : Machine}
    {frame : Word} (hframe : m.ram Cell.frame.address = frame)
    (hlt : (frame - BitVec.ofNat 16 offset).toNat < memorySize) :
    ∃ m', follow address (restoreCell c offset) m = some m' ∧
      m'.ram = m.ram.restore frame c offset := by
  unfold restoreCell
  rw [follow_append, follow_append, follow_loadCell (hc.lt .frame), hc, hframe,
    Option.bind_some, follow_loadBelow ho hlt, Option.bind_some, follow_storeD (hc.lt c), hc]
  exact ⟨_, rfl, rfl⟩

/-- The code that restores some cells. -/
theorem follow_restoreCells {frame goal : Word} (saved : List (Cell × Nat))
    (hsaved : ∀ p ∈ saved, p.2 < memorySize ∧ p.1.address ∉ returnScratch ∧
      (frame - BitVec.ofNat 16 p.2).toNat < memorySize)
    {m : Machine} (hkeeps : Keeps m.ram frame goal) :
    ∃ m', follow address (saved.flatMap fun (c, offset) => restoreCell c offset) m = some m' ∧
      m'.ram = saved.foldl (fun r (c, offset) => r.restore frame c offset) m.ram ∧
      Keeps m'.ram frame goal := by
  induction saved generalizing m with
  | nil => exact ⟨m, rfl, rfl, hkeeps⟩
  | cons p saved ih =>
    obtain ⟨ho, hcell, hlt⟩ := hsaved p List.mem_cons_self
    obtain ⟨mid, hmid, hram⟩ := follow_restoreCell hc ho hkeeps.frame_eq hlt
    have hkeeps' : Keeps mid.ram frame goal := by
      rw [hram]
      exact hkeeps.set hcell _
    obtain ⟨m', hm', hfold, hend⟩ :=
      ih (fun q hq => hsaved q (List.mem_cons_of_mem p hq)) hkeeps'
    refine ⟨m', ?_, ?_, hend⟩
    · rw [List.flatMap_cons, follow_append, hmid, Option.bind_some, hm']
    · rw [hfold, hram]
      rfl

/-- The code that keeps the end of the frame and the address to return to. -/
theorem follow_keepReturn {m : Machine}
    (hreturn : Clear (m.ram Cell.lcl.address - BitVec.ofNat 16 frameSize).toNat) :
    ∃ m', follow address
        (loadCell Cell.lcl.symbol ++ storeD Cell.frame.symbol ++
          loadBelow frameSize ++ storeD Cell.returnAddress.symbol) m = some m' ∧
      m'.ram = keepReturn m.ram := by
  have hread : m.ram.set Cell.frame.address (m.ram Cell.lcl.address)
      (m.ram Cell.lcl.address - BitVec.ofNat 16 frameSize).toNat = m.ram.returnAddress := by
    apply Memory.set_of_ne _ _
    intro heq
    exact hreturn.2 (by rw [heq]; exact List.mem_cons_self)
  rw [follow_append, follow_append, follow_append, follow_loadCell (hc.lt .lcl), hc,
    Option.bind_some, follow_storeD (hc.lt .frame), hc, Option.bind_some,
    follow_loadBelow (by decide) hreturn.1, Option.bind_some,
    follow_storeD (hc.lt .returnAddress), hc]
  simp only [hread]
  exact ⟨_, rfl, rfl⟩

/-- The code that stores the result and ends the stack behind it. -/
theorem follow_answer {m : Machine} (h1 : 1 < m.ram.sp) (hsp : m.ram.sp ≤ memorySize)
    (harg : (m.ram Cell.arg.address).toNat < memorySize) :
    ∃ m', follow address
        (popD ++ [.symbol Cell.arg.symbol, .setA (.operand .m), .setM .d] ++
          [.symbol Cell.arg.symbol, .setD (.inc .m)] ++ storeD Cell.sp.symbol) m = some m' ∧
      m'.ram = m.ram.answer := by
  have hbase : m.ram.drop Cell.arg.address = m.ram Cell.arg.address :=
    Memory.drop_of_ne _ (by decide)
  rw [follow_append, follow_append, follow_append, follow_popD hc h1 hsp, Option.bind_some,
    follow_storeThrough hc (by simp only [hbase]; exact harg), Option.bind_some,
    follow_cell_setD hc, Option.bind_some, follow_storeD (hc.lt .sp), hc]
  simp only [hbase]
  exact ⟨_, rfl, rfl⟩

/-- The jump to the address that was kept. -/
theorem reaches_kept {m : Machine}
    (hp : Placed program address m.pc
      ([.symbol Cell.returnAddress.symbol, .setA (.operand .m)] ++ [.jumpIf .zero .jmp]))
    (hlt : (m.ram Cell.returnAddress.address).toNat < memorySize) :
    ∃ m', Reaches program m m' ∧ m'.pc = (m.ram Cell.returnAddress.address).toNat ∧
      m'.ram = m.ram := by
  let loaded : Machine := { m with a := m.ram Cell.returnAddress.address, pc := m.pc + 2 }
  have hload : follow address [.symbol Cell.returnAddress.symbol, .setA (.operand .m)] m =
      some loaded := follow_cell_setA hc .returnAddress (.operand .m) [] m
  have hjump : program[loaded.pc]? = some (.compute {} .zero (some .jmp)) := hp.right.head rfl
  have hstep : step program loaded = some (loaded.compute {} .zero (some .jmp)) := by
    unfold step
    rw [hjump, Option.bind_some, Machine.execute, if_pos hlt]
  exact ⟨_, (reaches_of_follow hp.left rfl hload).1.trans (Reaches.of_step hstep), rfl, rfl⟩

/-- The code of a return: it goes where the frame says, with the result in place and the
saved cells restored.  The two cells in which it keeps the frame and that address are
left with them. -/
theorem reaches_returnCode {m : Machine} (hp : Placed program address m.pc returnCode)
    (hlow : variableBase < m.ram.sp) (hsp : m.ram.sp ≤ memorySize)
    (harg : Clear (m.ram Cell.arg.address).toNat)
    (hframe : ∀ offset, 0 < offset → offset ≤ frameSize →
      Clear (m.ram Cell.lcl.address - BitVec.ofNat 16 offset).toNat)
    (hgoal : m.ram.returnAddress.toNat < memorySize) :
    ∃ m', Reaches program m m' ∧ m'.pc = m.ram.returnAddress.toNat ∧
      m'.ram.AgreesOff returnScratch m.ram.leave := by
  have hlow' : 16 < m.ram.sp := hlow
  let keep : List Line :=
    loadCell Cell.lcl.symbol ++ storeD Cell.frame.symbol ++ loadBelow frameSize ++
      storeD Cell.returnAddress.symbol
  let store : List Line :=
    popD ++ [.symbol Cell.arg.symbol, .setA (.operand .m), .setM .d] ++
      [.symbol Cell.arg.symbol, .setD (.inc .m)] ++ storeD Cell.sp.symbol
  let restored : List Line :=
    (savedCells.reverse.zipIdx 1).flatMap fun (c, offset) => restoreCell c offset
  have hpieces : returnCode = (keep ++ store ++ restored) ++
      ([.symbol Cell.returnAddress.symbol, .setA (.operand .m)] ++ [.jumpIf .zero .jmp]) := by
    simp [returnCode, keep, store, restored]
  rw [hpieces] at hp
  obtain ⟨m₁, hkeep, hram₁⟩ := follow_keepReturn hc (hframe frameSize (by decide) (Nat.le_refl _))
  have hagree : m₁.ram.AgreesOff returnScratch m.ram := hram₁ ▸ agreesOff_keepReturn m.ram
  have hsp₁ : m₁.ram.sp = m.ram.sp := hagree.sp_eq (by decide)
  have harg₁ : m₁.ram Cell.arg.address = m.ram Cell.arg.address := hagree _ (by decide)
  have hkeeps : Keeps m₁.ram (m.ram Cell.lcl.address) m.ram.returnAddress := by
    rw [hram₁]
    exact ⟨rfl, rfl⟩
  obtain ⟨m₂, hstore, hram₂⟩ :=
    follow_answer hc (m := m₁) (by omega) (by omega) (by rw [harg₁]; exact harg.1)
  have hkeeps₂ : Keeps m₂.ram (m.ram Cell.lcl.address) m.ram.returnAddress := by
    rw [hram₂]
    exact hkeeps.answer (by rw [harg₁]; exact harg.2)
  have hwords : ∀ p ∈ savedCells.reverse.zipIdx 1,
      Clear (m.ram Cell.lcl.address - BitVec.ofNat 16 p.2).toNat ∧
        p.2 < memorySize ∧ p.1.address ∉ returnScratch := by
    intro p hmem
    obtain ⟨hpos, hle, hcell⟩ := saved_offsets p hmem
    exact ⟨hframe p.2 hpos hle, Nat.lt_of_le_of_lt hle (by decide), hcell⟩
  obtain ⟨m₃, hrestored, hram₃, hkeeps₃⟩ :=
    follow_restoreCells hc (savedCells.reverse.zipIdx 1)
      (fun p hp => ⟨(hwords p hp).2.1, (hwords p hp).2.2, (hwords p hp).1.1⟩) hkeeps₂
  have hfollow : follow address (keep ++ store ++ restored) m = some m₃ := by
    rw [follow_append, follow_append, hkeep, Option.bind_some, hstore, Option.bind_some, hrestored]
  obtain ⟨hreach, hpc⟩ := reaches_of_follow hp.left rfl hfollow
  have hjump := hp.right
  rw [← hpc] at hjump
  obtain ⟨m', hreach', hpc', hram'⟩ := reaches_kept hc hjump (by rw [hkeeps₃.goal_eq]; exact hgoal)
  refine ⟨m', hreach.trans hreach', by rw [hpc', hkeeps₃.goal_eq], ?_⟩
  have hleave : m₃.ram = m₁.ram.leave := by
    rw [hram₃, hram₂, Memory.leave, hagree _ (by decide)]
    rfl
  rw [hram', hleave]
  have htop : m₁.ram.sp - 1 ∉ returnScratch := by
    simp only [returnScratch, Cell.address, List.mem_cons, List.not_mem_nil, or_false]
    omega
  refine hagree.leave (by decide) (by decide) (by decide) htop ?_
  intro p hmem
  rw [hagree _ (by decide)]
  exact (hwords p hmem).1.2

end

end VmToHack
