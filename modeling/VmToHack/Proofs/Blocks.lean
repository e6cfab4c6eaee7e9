import VmToHack.Lowering.Block
import VmToHack.Proofs.Straight
set_option autoImplicit false

/-!
# Blocks: what the code of a command does

One lemma for the code of each kind of command, as a change of the memory.  The code
that does not jump is followed; the code that does is run in a program in which it
stands.  Registers other than the memory do not matter between blocks, so no lemma
says what they hold in the end.

Three cells are scratch: `R13` in a pop to a computed address, and `R14` and `R15`
in a return.  The lemmas of these two say that the memory agrees off them with what
the command means.
-/

namespace VmToHack

open VmToHack.Hack

variable {address : String → Nat}

/-! ## Places -/

/-- The cell of a place.  A number has none. -/
def Place.target (address : String → Nat) (ram : Memory) : Place → Nat
  | .literal _ => 0
  | .pointed base offset => (BitVec.ofInt 16 offset + ram base.address).toNat
  | .above base offset => (BitVec.ofInt 16 offset + BitVec.ofNat 16 base.address).toNat
  | .cell symbol => address symbol

/-- The value at a place. -/
def Place.value (address : String → Nat) (ram : Memory) : Place → Word
  | .literal n => BitVec.ofInt 16 n
  | p => ram (p.target address ram)

/-- The numbers in the code of a place can be loaded. -/
def Place.Loadable : Place → Prop
  | .literal n => 0 ≤ n ∧ n < loadLimit
  | .pointed _ offset => 0 ≤ offset ∧ offset < loadLimit
  | .above _ offset => 0 ≤ offset ∧ offset < loadLimit
  | .cell _ => True

/-- The cells that a pop to a place uses for itself. -/
def Place.scratch : Place → List Nat
  | .pointed _ _ | .above _ _ => [Cell.popAddress.address]
  | .literal _ | .cell _ => []

theorem Place.scratch_subset (p : Place) : p.scratch ⊆ [Cell.popAddress.address] := by
  cases p <;> simp [Place.scratch]

theorem straight_pushCode (p : Place) : straight p.pushCode = true := by
  cases p <;> rfl

theorem straight_popCode {p : Place} {code : List Line} (h : p.popCode = .ok code) :
    straight code = true := by
  cases p with
  | literal k => cases h
  | _ =>
    cases h
    rfl

/-! ## Through a cell -/

theorem operand_of_cell {m : Machine} {c : Cell} (ha : m.a = BitVec.ofNat 16 c.address) :
    m.operand = operandOf (BitVec.ofNat 16 c.address) (m.ram c.address) := by
  have hlt : c.address < memorySize := Nat.lt_trans c.address_lt (by decide)
  funext y
  cases y with
  | a => exact ha
  | m => simp only [Machine.operand, operandOf, ha, toNat_ofNat_of_lt hlt]

section

variable (hc : KnowsCells address)
include hc

/-- Computes with the data register and a cell. -/
theorem follow_cell_setD (c : Cell) (comp : Comp) (m : Machine) :
    follow address [.symbol c.symbol, .setD comp] m =
      some { m with
        a := BitVec.ofNat 16 c.address
        d := comp.value m.d (operandOf (BitVec.ofNat 16 c.address) (m.ram c.address))
        pc := m.pc + 2 } := by
  unfold Line.setD
  rw [follow_symbol_compute (hc.lt c), hc c]
  simp only [follow, Machine.compute]
  rw [operand_of_cell rfl]
  rfl

/-- Computes an address from the data register and a cell. -/
theorem follow_cell_setA (c : Cell) (comp : Comp) (lines : List Line) (m : Machine) :
    follow address (.symbol c.symbol :: .setA comp :: lines) m =
      follow address lines { m with
        a := comp.value m.d (operandOf (BitVec.ofNat 16 c.address) (m.ram c.address))
        pc := m.pc + 2 } := by
  unfold Line.setA
  rw [follow_symbol_compute (hc.lt c), hc c]
  simp only [Machine.compute]
  rw [operand_of_cell rfl]
  rfl

/-- Stores the data register where a cell points. -/
theorem follow_storeThrough {c : Cell} {m : Machine} (h : (m.ram c.address).toNat < memorySize) :
    follow address [.symbol c.symbol, .setA (.operand .m), .setM .d] m =
      some { m with
        a := m.ram c.address, pc := m.pc + 3, ram := m.ram.set (m.ram c.address).toNat m.d } := by
  rw [follow_cell_setA hc, Line.setM, follow_compute h]
  rfl

/-! ## Pushes and pops -/

/-- Loads the value at an address that is computed from a number and a cell. -/
theorem follow_loadComputed {offset : Int} (h0 : 0 ≤ offset) (h1 : offset < loadLimit)
    (base : Cell) (comp : Comp) (m : Machine) {target : Word}
    (ht : comp.value (BitVec.ofInt 16 offset)
      (operandOf (BitVec.ofNat 16 base.address) (m.ram base.address)) = target)
    (hlt : target.toNat < memorySize) :
    follow address (loadNumber offset ++ [.symbol base.symbol, .setA comp, .setD (.operand .m)]) m =
      some { a := target, d := m.ram target.toNat, pc := m.pc + 5, ram := m.ram } := by
  rw [follow_append, follow_loadNumber h0 h1, Option.bind_some, follow_cell_setA hc, ht, Line.setD,
    follow_compute hlt]
  rfl

/-- The code of a push: the value goes onto the stack. -/
theorem follow_pushCode {p : Place} {m : Machine} (hload : p.Loadable)
    (htarget : p.target address m.ram < memorySize) (h0 : 0 < m.ram.sp)
    (hlt : m.ram.sp < memorySize) :
    ∃ m', follow address p.pushCode m = some m' ∧
      m'.ram = m.ram.push (p.value address m.ram) := by
  cases p with
  | literal n =>
    rw [Place.pushCode, follow_append, follow_loadNumber hload.1 hload.2, Option.bind_some]
    exact ⟨_, follow_pushD hc h0 hlt, rfl⟩
  | pointed base offset =>
    have hvalue := follow_loadComputed hc hload.1 hload.2 base (.add .m) m rfl htarget
    rw [Place.pushCode, follow_append, hvalue, Option.bind_some]
    exact ⟨_, follow_pushD hc h0 hlt, rfl⟩
  | above base offset =>
    have hvalue := follow_loadComputed hc hload.1 hload.2 base (.add .a) m rfl htarget
    rw [Place.pushCode, follow_append, hvalue, Option.bind_some]
    exact ⟨_, follow_pushD hc h0 hlt, rfl⟩
  | cell symbol =>
    rw [Place.pushCode, follow_append, follow_loadCell htarget, Option.bind_some]
    exact ⟨_, follow_pushD hc h0 hlt, rfl⟩

/-- The code of a pop to a computed address: the address is computed first, and kept in
the scratch cell while the value is taken off the stack. -/
theorem follow_popThrough {offset : Int} (h0 : 0 ≤ offset) (h1 : offset < loadLimit)
    (base : Cell) (comp : Comp) {m : Machine} {target : Word}
    (ht : comp.value (BitVec.ofInt 16 offset)
      (operandOf (BitVec.ofNat 16 base.address) (m.ram base.address)) = target)
    (hlt : target.toNat < memorySize) (hlow : variableBase < m.ram.sp)
    (hsp : m.ram.sp ≤ memorySize) :
    ∃ (m' : Machine) (kept : Memory),
      follow address (popThrough base offset comp) m = some m' ∧
      kept.AgreesOff [Cell.popAddress.address] m.ram ∧
      m'.ram = kept.drop.set target.toNat m.ram.top := by
  have hlow' : 16 < m.ram.sp := hlow
  let kept : Memory := m.ram.set Cell.popAddress.address target
  have hspKept : kept.sp = m.ram.sp := Memory.sp_set_of_ne target (by decide)
  have htop : kept.top = m.ram.top := by
    rw [Memory.top, Memory.top, hspKept]
    exact Memory.set_of_ne _ _ (by show m.ram.sp - 1 ≠ 13; omega)
  have hkept : kept.drop Cell.popAddress.address = target := by
    rw [Memory.drop_of_ne _ (by decide)]
    exact Memory.set_self _ _ _
  have hstart : follow address
      (loadNumber offset ++ [.symbol base.symbol, .setD comp] ++
        storeD Cell.popAddress.symbol) m =
      some { a := BitVec.ofNat 16 Cell.popAddress.address, d := target, pc := m.pc + 6,
             ram := kept } := by
    rw [follow_append, follow_append, follow_loadNumber h0 h1, Option.bind_some,
      follow_cell_setD hc, Option.bind_some, follow_storeD (hc.lt _), hc, ht]
  unfold popThrough
  rw [follow_append, follow_append, hstart, Option.bind_some,
    follow_popD hc (by rw [hspKept]; omega) (by rw [hspKept]; exact hsp), Option.bind_some,
    follow_storeThrough hc (by simp only [hkept]; exact hlt)]
  refine ⟨_, kept, rfl, (Memory.AgreesOff.refl _ m.ram).set_left target List.mem_cons_self, ?_⟩
  simp only [hkept, htop]

/-- The code of a pop to a cell with a symbol. -/
theorem follow_popCell {symbol : String} {m : Machine} (h : address symbol < memorySize)
    (h1 : 1 < m.ram.sp) (hsp : m.ram.sp ≤ memorySize) :
    ∃ m', follow address (popD ++ storeD symbol) m = some m' ∧
      m'.ram = m.ram.drop.set (address symbol) m.ram.top := by
  rw [follow_append, follow_popD hc h1 hsp, Option.bind_some, follow_storeD h]
  exact ⟨_, rfl, rfl⟩

/-- The code of a pop: the value on top goes to the place, also where this is the scratch cell. -/
theorem follow_popCode_keeping {p : Place} {code : List Line} {m : Machine}
    (hcode : p.popCode = .ok code) (hload : p.Loadable)
    (htarget : p.target address m.ram < memorySize) (hlow : variableBase < m.ram.sp)
    (hsp : m.ram.sp ≤ memorySize) :
    ∃ (m' : Machine) (kept : Memory), follow address code m = some m' ∧
      kept.AgreesOff p.scratch m.ram ∧
      m'.ram = kept.drop.set (p.target address m.ram) m.ram.top := by
  have hlow' : 16 < m.ram.sp := hlow
  cases p with
  | literal n => cases hcode
  | pointed base offset =>
    cases hcode
    exact follow_popThrough hc hload.1 hload.2 base (.add .m) rfl htarget hlow hsp
  | above base offset =>
    cases hcode
    exact follow_popThrough hc hload.1 hload.2 base (.add .a) rfl htarget hlow hsp
  | cell symbol =>
    cases hcode
    obtain ⟨m', hfollow, hram⟩ := follow_popCell hc htarget (by omega) hsp
    exact ⟨m', m.ram, hfollow, .refl _ _, hram⟩

/-- The code of a pop, off the scratch cell. -/
theorem follow_popCode {p : Place} {code : List Line} {m : Machine} (hcode : p.popCode = .ok code)
    (hload : p.Loadable) (htarget : p.target address m.ram < memorySize)
    (hlow : variableBase < m.ram.sp) (hsp : m.ram.sp ≤ memorySize) :
    ∃ m', follow address code m = some m' ∧
      m'.ram.AgreesOff [Cell.popAddress.address]
        (m.ram.drop.set (p.target address m.ram) m.ram.top) := by
  obtain ⟨m', kept, hfollow, hkept, hram⟩ :=
    follow_popCode_keeping hc hcode hload htarget hlow hsp
  refine ⟨m', hfollow, ?_⟩
  rw [hram]
  exact ((hkept.mono p.scratch_subset).drop (by decide)).set _ rfl

/-! ## Operators -/

/-- The code of an operator of one operand. -/
theorem follow_unaryCode (comp : Comp) {value : Word} {m : Machine} (h1 : 1 < m.ram.sp)
    (hsp : m.ram.sp ≤ memorySize)
    (hv : comp.value m.d (operandOf (m.ram Cell.sp.address - 1) m.ram.top) = value) :
    ∃ m', follow address (unaryCode comp) m = some m' ∧ m'.ram = m.ram.drop.push value := by
  have hdrop : m.ram.drop.sp = m.ram.sp - 1 := Memory.sp_drop (by omega)
  unfold unaryCode
  rw [follow_append, follow_decSp_setD hc comp h1 hsp, Option.bind_some, hv]
  exact ⟨_, follow_pushD hc (by show 0 < m.ram.drop.sp; omega)
    (by show m.ram.drop.sp < memorySize; omega), rfl⟩

/-- The code in front of the result of an operator of two operands. -/
theorem follow_operands (comp : Comp) {m : Machine} (h2 : 2 < m.ram.sp)
    (hsp : m.ram.sp ≤ memorySize) :
    follow address (popD ++ decSp ++ [.setD comp]) m =
      some
        { a := m.ram.drop Cell.sp.address - 1
          d := comp.value m.ram.top
            (operandOf (m.ram.drop Cell.sp.address - 1) m.ram.drop.top)
          pc := m.pc + 6
          ram := m.ram.drop.drop } := by
  have hdrop : m.ram.drop.sp = m.ram.sp - 1 := Memory.sp_drop (by omega)
  rw [List.append_assoc, follow_append, follow_popD hc (by omega) hsp, Option.bind_some]
  exact follow_decSp_setD hc comp (by show 1 < m.ram.drop.sp; omega)
    (by show m.ram.drop.sp ≤ memorySize; omega)

/-- The code of an operator of two operands that is one computation. -/
theorem follow_binaryCode (comp : Comp) {value : Word} {m : Machine} (h2 : 2 < m.ram.sp)
    (hsp : m.ram.sp ≤ memorySize)
    (hv : comp.value m.ram.top
      (operandOf (m.ram.drop Cell.sp.address - 1) m.ram.drop.top) = value) :
    ∃ m', follow address (binaryCode comp) m = some m' ∧
      m'.ram = m.ram.drop.drop.push value := by
  have hdrop : m.ram.drop.sp = m.ram.sp - 1 := Memory.sp_drop (by omega)
  have hdrop' : m.ram.drop.drop.sp = m.ram.drop.sp - 1 := Memory.sp_drop (by omega)
  unfold binaryCode
  rw [follow_append, follow_operands hc comp h2 hsp, Option.bind_some, hv]
  exact ⟨_, follow_pushD hc (by show 0 < m.ram.drop.drop.sp; omega)
    (by show m.ram.drop.drop.sp < memorySize; omega), rfl⟩

/-! ## Functions -/

omit hc in
theorem straight_functionCode (name : String) (locals : Int) :
    straight (functionCode name locals) = true := by
  have hzeros : ∀ k : Nat, straight (List.replicate k (setTop .zero ++ incSp)).flatten = true := by
    intro k
    induction k with
    | zero => rfl
    | succ k ih =>
      rw [List.replicate_succ, List.flatten_cons, straight_append, ih]
      rfl
  exact hzeros locals.toNat

/-- The code of a function's start: a zero for each local. -/
theorem follow_functionCode (name : String) {locals : Int} {m : Machine} (h0 : 0 < m.ram.sp)
    (hsp : ∀ i ∈ List.range' m.ram.sp locals.toNat, i < memorySize) :
    ∃ m', follow address (functionCode name locals) m = some m' ∧
      m'.ram = m.ram.pushZeros locals.toNat := by
  have hzeros : ∀ (k : Nat) (m : Machine), 0 < m.ram.sp →
      (∀ i ∈ List.range' m.ram.sp k, i < memorySize) →
      ∃ m', follow address (List.replicate k (setTop .zero ++ incSp)).flatten m = some m' ∧
        m'.ram = m.ram.pushZeros k := by
    intro k
    induction k with
    | zero => exact fun m _ _ => ⟨m, rfl, rfl⟩
    | succ k ih =>
      intro m h0 hcells
      have hfirst : m.ram.sp < memorySize := hcells _ (by simp)
      have hnext : (m.ram.push 0).sp = m.ram.sp + 1 :=
        Memory.sp_push _ (by have : memorySize = 32768 := rfl; omega)
      rw [List.replicate_succ, List.flatten_cons, follow_append,
        follow_setTop_incSp hc h0 hfirst fun _ => rfl, Option.bind_some]
      refine ih _ (by show 0 < (m.ram.push 0).sp; omega) ?_
      intro i hi
      apply hcells i
      rw [List.mem_range'_1] at hi ⊢
      have hstart : (m.ram.push 0).sp ≤ i := hi.1
      have hend : i < (m.ram.push 0).sp + k := hi.2
      omega
  exact hzeros locals.toNat m h0 hsp

/-! ## Code that jumps -/

variable {program : List Instruction}

omit hc in
/-- The code of a jump. -/
theorem reaches_goto {label : String} {m : Machine}
    (hp : Placed program address m.pc (goto label)) (hlt : address label < memorySize) :
    ∃ m', Reaches program m m' ∧ m'.pc = address label ∧ m'.ram = m.ram :=
  ⟨_, reaches_jump hp hlt 0 fun _ => rfl, rfl, rfl⟩

/-- The code of a conditional jump: it takes a value off the stack and jumps unless that
is zero. -/
theorem reaches_ifGoto {label : String} {m : Machine}
    (hp : Placed program address m.pc (popD ++ [.symbol label, .jumpIf .d .jne]))
    (hlt : address label < memorySize) (h1 : 1 < m.ram.sp) (hsp : m.ram.sp ≤ memorySize) :
    ∃ m', Reaches program m m' ∧
      m'.pc = (if m.ram.top = 0 then m.pc + 5 else address label) ∧ m'.ram = m.ram.drop := by
  obtain ⟨hpop, -⟩ := reaches_of_follow hp.left rfl (follow_popD hc h1 hsp)
  let popped : Machine :=
    { a := m.ram Cell.sp.address - 1, d := m.ram.top, pc := m.pc + 3, ram := m.ram.drop }
  have hjump : Reaches program popped _ := reaches_jump hp.right hlt m.ram.top fun _ => rfl
  refine ⟨_, hpop.trans hjump, ?_, rfl⟩
  have h0 : (0 : Word).toInt = 0 := BitVec.toInt_zero
  have htaken : Jump.jne.isTaken m.ram.top = true ↔ ¬ m.ram.top = 0 := by
    rw [← BitVec.toInt_inj, h0]
    simp [Jump.isTaken]
  show (if Jump.jne.isTaken m.ram.top = true then address label else m.pc + 5) = _
  simp only [htaken, ite_not]

/-- The code of a comparison: the two values on top give way to minus one if the jump is
taken on their difference, and to zero if not. -/
theorem reaches_comparisonCode {jump : Jump} {whenTrue whenDone : String} {m : Machine}
    (hp : Placed program address m.pc (comparisonCode jump whenTrue whenDone))
    (htrue : address whenTrue = m.pc + 11) (hdone : address whenDone = m.pc + 12)
    (hlt : m.pc + 12 < memorySize) (h2 : 2 < m.ram.sp) (hsp : m.ram.sp ≤ memorySize) :
    ∃ m', Reaches program m m' ∧ m'.pc = m.pc + codeSize (comparisonCode jump whenTrue whenDone) ∧
      m'.ram = m.ram.drop.drop.push
        (if jump.isTaken (m.ram.drop.top - m.ram.top) then -1 else 0) := by
  have hsp1 : m.ram.drop.sp = m.ram.sp - 1 := Memory.sp_drop (by omega)
  have hsp2 : m.ram.drop.drop.sp = m.ram.drop.sp - 1 := Memory.sp_drop (by omega)
  -- The code in four pieces: the difference, the test, the branch of false with its way
  -- around the branch of true, and that branch with the push behind it.
  have hpieces : comparisonCode jump whenTrue whenDone =
      (popD ++ decSp ++ [.setD (.subFrom .m)]) ++
        ([.symbol whenTrue, .jumpIf .d jump] ++
          ([.setD .zero] ++ (goto whenDone ++
            ([.label whenTrue, .setD .minusOne] ++
              ([.label whenDone] ++ (setTop .d ++ incSp)))))) := by
    simp [comparisonCode]
  rw [hpieces] at hp
  have htest := hp.right.left
  have hfalse := hp.right.right.left
  have haround := hp.right.right.right.left
  have hbranch := hp.right.right.right.right.left
  have hpush := hp.right.right.right.right.right
  let diff : Word := m.ram.drop.top - m.ram.top
  -- Pushes whatever the data register holds once the branches have met.
  have hmeet : ∀ (a d : Word), ∃ m', Reaches program ⟨a, d, m.pc + 12, m.ram.drop.drop⟩ m' ∧
      m'.pc = m.pc + 17 ∧ m'.ram = m.ram.drop.drop.push d := by
    intro a d
    have hfollow : follow address ([.label whenDone] ++ (setTop .d ++ incSp))
        ⟨a, d, m.pc + 12, m.ram.drop.drop⟩ = some _ :=
      follow_setTop_incSp hc (by show 0 < m.ram.drop.drop.sp; omega)
        (by show m.ram.drop.drop.sp < memorySize; omega) fun _ => rfl
    obtain ⟨hreach, -⟩ := reaches_of_follow hpush rfl hfollow
    exact ⟨_, hreach, rfl, rfl⟩
  let tested : Machine :=
    ⟨m.ram.drop Cell.sp.address - 1, diff, m.pc + 6, m.ram.drop.drop⟩
  have hstart : Reaches program m tested :=
    (reaches_of_follow hp.left rfl (follow_operands hc (.subFrom .m) h2 hsp)).1
  have hjump : Reaches program tested _ :=
    reaches_jump htest (by rw [htrue]; omega) diff fun _ => rfl
  have hload : (BitVec.ofNat 16 (address whenTrue)).toNat < memorySize := by
    rw [toNat_ofNat_of_lt (by omega)]
    omega
  have hreached := hstart.trans hjump
  by_cases hj : jump.isTaken diff = true
  · simp only [hj, if_true, htrue] at hreached
    have hset : follow address [.label whenTrue, .setD .minusOne]
        ⟨BitVec.ofNat 16 (m.pc + 11), diff, m.pc + 11, m.ram.drop.drop⟩ =
        some ⟨BitVec.ofNat 16 (m.pc + 11), -1, m.pc + 12, m.ram.drop.drop⟩ :=
      follow_compute (by rw [← htrue]; exact hload) _ _ _
    obtain ⟨m', hm', hpc, hram⟩ := hmeet (BitVec.ofNat 16 (m.pc + 11)) (-1)
    refine ⟨m', (hreached.trans (reaches_of_follow hbranch rfl hset).1).trans hm', hpc, ?_⟩
    rw [hram, if_pos hj]
  · simp only [hj] at hreached
    have hset : follow address [.setD .zero]
        ⟨BitVec.ofNat 16 (address whenTrue), diff, m.pc + 8, m.ram.drop.drop⟩ =
        some ⟨BitVec.ofNat 16 (address whenTrue), 0, m.pc + 9, m.ram.drop.drop⟩ :=
      follow_compute hload _ _ _
    let zeroed : Machine :=
      ⟨BitVec.ofNat 16 (address whenTrue), 0, m.pc + 9, m.ram.drop.drop⟩
    have haround : Reaches program zeroed _ :=
      reaches_jump haround (by rw [hdone]; exact hlt) 0 fun _ => rfl
    obtain ⟨m', hm', hpc, hram⟩ := hmeet (BitVec.ofNat 16 (address whenDone)) 0
    have hfalsePart := (hreached.trans (reaches_of_follow hfalse rfl hset).1).trans haround
    simp only [Jump.isTaken, if_true, zeroed, hdone] at hfalsePart
    rw [hdone] at hm'
    refine ⟨m', hfalsePart.trans hm', hpc, ?_⟩
    rw [hram, if_neg hj]

end

end VmToHack
