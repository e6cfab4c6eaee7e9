import VmToHack.Proofs.Memory
set_option autoImplicit false

/-!
# Straight code

How pieces of emitted code run where they stand in a program.  `Placed` says that
some lines stand in a program from an address on; `follow` executes lines one behind
the other and never looks at a program.  The bridge is `reaches_of_follow`: code that
does not jump and stands where the machine is runs as it is followed.

The second half follows the stack idioms, one lemma each.  Every block is made of
them, and its proof is a chain of these lemmas.
-/

namespace VmToHack.Hack

/-! ## Runs -/

/-- A program gets from one state to another. -/
def Reaches (program : List Instruction) (m m' : Machine) : Prop :=
  ∃ n, run program n m = some m'

namespace Reaches

variable {program : List Instruction} {m m' m'' : Machine}

theorem refl (program : List Instruction) (m : Machine) : Reaches program m m := ⟨0, rfl⟩

theorem trans (h : Reaches program m m') (h' : Reaches program m' m'') :
    Reaches program m m'' := by
  obtain ⟨n, hn⟩ := h
  obtain ⟨k, hk⟩ := h'
  exact ⟨n + k, by rw [run_add, hn]; exact hk⟩

theorem of_step (h : step program m = some m') : Reaches program m m' :=
  ⟨1, by simp [run, h]⟩

/-- A program ends in one state only. -/
theorem eq_of_ends (h : Reaches program m m') (h' : Reaches program m m'')
    (hend : step program m' = none) (hend' : step program m'' = none) : m' = m'' := by
  have hlater : ∀ {n k : Nat} {e e' : Machine}, run program n m = some e →
      run program (n + k) m = some e' → step program e = none → e = e' := by
    intro n k e e' he he' hstep
    rw [run_add, he, Option.bind_some] at he'
    cases k with
    | zero => exact Option.some.inj he'
    | succ k =>
      rw [run, hstep] at he'
      cases he'
  obtain ⟨n, hn⟩ := h
  obtain ⟨k, hk⟩ := h'
  rcases Nat.le_total n k with hle | hle
  · obtain ⟨d, rfl⟩ := Nat.exists_eq_add_of_le hle
    exact hlater hn hk hend
  · obtain ⟨d, rfl⟩ := Nat.exists_eq_add_of_le hle
    exact (hlater hk hn hend').symm

end Reaches

/-! ## Lines in a program -/

/-- Some lines stand in a program from an address on, with given addresses of symbols. -/
def Placed (program : List Instruction) (address : String → Nat) (start : Nat)
    (lines : List Line) : Prop :=
  instructions address lines <+: program.drop start

namespace Placed

variable {program : List Instruction} {address : String → Nat} {start : Nat}
  {line : Line} {lines lines' : List Line} {i : Instruction}

theorem left (h : Placed program address start (lines ++ lines')) :
    Placed program address start lines := by
  unfold Placed at h
  rw [instructions_append] at h
  exact (List.prefix_append _ _).trans h

theorem right (h : Placed program address start (lines ++ lines')) :
    Placed program address (start + codeSize lines) lines' := by
  obtain ⟨rest, hrest⟩ := h
  refine ⟨rest, ?_⟩
  rw [← List.drop_drop, ← hrest, instructions_append, List.append_assoc,
    ← length_instructions address lines, List.drop_left]

/-- A line with an instruction puts that instruction into the program. -/
theorem head (h : Placed program address start (line :: lines))
    (hi : line.instruction? address = some i) : program[start]? = some i := by
  obtain ⟨rest, hrest⟩ := h
  have h0 : (program.drop start)[0]? = some i := by
    rw [← hrest]
    simp [instructions, hi]
  simpa using h0

theorem tail (h : Placed program address start (line :: lines)) :
    Placed program address (start + codeSize [line]) lines :=
  right (show Placed program address start ([line] ++ lines) from h)

end Placed

/-! ## Following lines -/

/-- Executes lines one behind the other, wherever an instruction would jump to. -/
def follow (address : String → Nat) : List Line → Machine → Option Machine
  | [], m => some m
  | line :: lines, m =>
    match line.instruction? address with
    | none => follow address lines m
    | some i => (m.execute i).bind (follow address lines)

theorem follow_append (address : String → Nat) (lines lines' : List Line) (m : Machine) :
    follow address (lines ++ lines') m =
      (follow address lines m).bind (follow address lines') := by
  induction lines generalizing m with
  | nil => rfl
  | cons line lines ih =>
    simp only [List.cons_append, follow]
    cases line.instruction? address with
    | none => exact ih m
    | some i =>
      cases hm : m.execute i with
      | none => simp [hm]
      | some m' => simpa [hm] using ih m'

/-- A line that asks for no jump. -/
def Line.isStraight : Line → Bool
  | .compute _ _ (some _) => false
  | _ => true

/-- No line asks for a jump. -/
def straight (lines : List Line) : Bool := lines.all Line.isStraight

theorem straight_append (lines lines' : List Line) :
    straight (lines ++ lines') = (straight lines && straight lines') := List.all_append

/-- An instruction that asks for no jump leads to the next one. -/
theorem pc_execute {address : String → Nat} {line : Line} {i : Instruction} {m m' : Machine}
    (hs : line.isStraight = true) (hi : line.instruction? address = some i)
    (h : m.execute i = some m') : m'.pc = m.pc + 1 := by
  cases line with
  | symbol name =>
    cases hi
    cases h
    rfl
  | number n =>
    cases hi
    cases h
    rfl
  | compute dest comp jump =>
    cases hi
    cases jump with
    | none =>
      simp only [Machine.execute] at h
      split at h
      · cases h
        rfl
      · cases h
    | some j => simp [Line.isStraight] at hs
  | label name => cases hi
  | comment text => cases hi

/-- Straight code runs as it is followed, and ends behind its last instruction. -/
theorem reaches_of_follow {program : List Instruction} {address : String → Nat}
    {lines : List Line} {m m' : Machine} (hp : Placed program address m.pc lines)
    (hs : straight lines = true) (h : follow address lines m = some m') :
    Reaches program m m' ∧ m'.pc = m.pc + codeSize lines := by
  induction lines generalizing m with
  | nil =>
    cases h
    exact ⟨.refl program _, rfl⟩
  | cons line lines ih =>
    obtain ⟨hline, hlines⟩ : line.isStraight = true ∧ straight lines = true := by
      simpa [straight] using hs
    have htail := hp.tail
    have hsize : codeSize (line :: lines) = codeSize [line] + codeSize lines :=
      codeSize_append [line] lines
    rw [follow] at h
    cases hi : line.instruction? address with
    | none =>
      have hzero : codeSize [line] = 0 := by
        rw [← length_instructions address]
        simp [instructions, hi]
      rw [hi] at h
      rw [hzero] at htail
      obtain ⟨hr, hpc⟩ := ih htail hlines h
      exact ⟨hr, by omega⟩
    | some i =>
      have hone : codeSize [line] = 1 := by
        rw [← length_instructions address]
        simp [instructions, hi]
      rw [hi] at h
      obtain ⟨mid, hmid, hrest⟩ := Option.bind_eq_some_iff.mp h
      have hmpc := pc_execute hline hi hmid
      rw [hone, ← hmpc] at htail
      obtain ⟨hr, hpc⟩ := ih htail hlines hrest
      have hstep : step program m = some mid := by
        unfold step
        rw [hp.head hi]
        exact hmid
      exact ⟨(Reaches.of_step hstep).trans hr, by omega⟩

/-! ## Jumps -/

/-- A jump to a label goes there if the value asks for it, and on to the next instruction
otherwise.  The memory and the data register stay. -/
theorem reaches_jump {program : List Instruction} {address : String → Nat} {label : String}
    {comp : Comp} {jump : Jump} {m : Machine}
    (hp : Placed program address m.pc [.symbol label, .jumpIf comp jump])
    (hlt : address label < memorySize) (value : Word)
    (hv : ∀ operand, comp.value m.d operand = value) :
    Reaches program m
      { m with
        a := BitVec.ofNat 16 (address label)
        pc := if jump.isTaken value then address label else m.pc + 2 } := by
  have hnat : (BitVec.ofNat 16 (address label)).toNat = address label := by
    rw [BitVec.toNat_ofNat]
    exact Nat.mod_eq_of_lt (Nat.lt_trans hlt (by decide))
  have hjump : program[m.pc + 1]? = some (.compute {} comp (some jump)) := hp.tail.head rfl
  let loaded : Machine := { m with a := BitVec.ofNat 16 (address label), pc := m.pc + 1 }
  have hload : step program m = some loaded := by
    unfold step
    rw [hp.head rfl]
    simp [Machine.execute, loaded]
  have hstep : step program loaded = some (loaded.compute {} comp (some jump)) := by
    unfold step
    rw [hjump]
    simp [Machine.execute, loaded, hnat, hlt]
  have hend := (Reaches.of_step hload).trans (Reaches.of_step hstep)
  simpa [Machine.compute, loaded, hv, hnat] using hend

/-! ## The idioms -/

/-- The symbols of the machine's cells stand for these cells. -/
def KnowsCells (address : String → Nat) : Prop := ∀ c : Cell, address c.symbol = c.address

section Idioms

variable {address : String → Nat} {symbol : String}

/-- The second operand of a computation, for given contents of both. -/
def operandOf (a m : Word) : Operand → Word
  | .a => a
  | .m => m

theorem toNat_ofInt_of_lt {n : Int} (h0 : 0 ≤ n) (h1 : n < loadLimit) :
    (BitVec.ofInt 16 n).toNat = n.toNat := by
  have : n < 32768 := h1
  rw [BitVec.toNat_ofInt]
  omega

theorem toNat_ofNat_of_lt {n : Nat} (h : n < memorySize) : (BitVec.ofNat 16 n).toNat = n := by
  rw [BitVec.toNat_ofNat]
  exact Nat.mod_eq_of_lt (Nat.lt_trans h (by decide))

theorem follow_number (n : Int) (lines : List Line) (m : Machine) :
    follow address (.number n :: lines) m =
      follow address lines { m with a := BitVec.ofInt 16 n, pc := m.pc + 1 } := rfl

theorem follow_compute {m : Machine} (h : m.a.toNat < memorySize) (dest : Dest) (comp : Comp)
    (lines : List Line) :
    follow address (.compute dest comp none :: lines) m =
      follow address lines (m.compute dest comp none) := by
  simp [follow, Line.instruction?, Machine.execute, h]

/-- A symbol is loaded and the cell that it stands for computed with. -/
theorem follow_symbol_compute (h : address symbol < memorySize) (dest : Dest) (comp : Comp)
    (lines : List Line) (m : Machine) :
    follow address (.symbol symbol :: .compute dest comp none :: lines) m =
      follow address lines
        (Machine.compute { m with a := BitVec.ofNat 16 (address symbol), pc := m.pc + 1 }
          dest comp none) := by
  have hlt : (BitVec.ofNat 16 (address symbol)).toNat < memorySize := by
    rwa [toNat_ofNat_of_lt h]
  have hload : follow address (.symbol symbol :: .compute dest comp none :: lines) m =
      follow address (.compute dest comp none :: lines)
        { m with a := BitVec.ofNat 16 (address symbol), pc := m.pc + 1 } := by
    simp [follow, Line.instruction?, Machine.execute]
  rw [hload, follow_compute hlt]

/-- A number is loaded and computed with. -/
theorem follow_number_setD {n : Int} (h0 : 0 ≤ n) (h1 : n < loadLimit) (comp : Comp)
    (m : Machine) :
    follow address [.number n, .setD comp] m = some
      (Machine.compute { m with a := BitVec.ofInt 16 n, pc := m.pc + 1 } { d := true } comp none) := by
  have hlt : (BitVec.ofInt 16 n).toNat < memorySize := by
    have : n < 32768 := h1
    rw [toNat_ofInt_of_lt h0 h1, memorySize]
    omega
  rw [follow_number, Line.setD, follow_compute hlt]
  rfl

theorem follow_loadNumber {n : Int} (h0 : 0 ≤ n) (h1 : n < loadLimit) (m : Machine) :
    follow address (loadNumber n) m =
      some { m with a := BitVec.ofInt 16 n, d := BitVec.ofInt 16 n, pc := m.pc + 2 } :=
  follow_number_setD h0 h1 _ m

theorem follow_loadAddress (h : address symbol < memorySize) (m : Machine) :
    follow address (loadAddress symbol) m =
      some { m with
        a := BitVec.ofNat 16 (address symbol), d := BitVec.ofNat 16 (address symbol),
        pc := m.pc + 2 } := by
  unfold loadAddress Line.setD
  rw [follow_symbol_compute h]
  rfl

theorem follow_loadCell (h : address symbol < memorySize) (m : Machine) :
    follow address (loadCell symbol) m =
      some { m with
        a := BitVec.ofNat 16 (address symbol), d := m.ram (address symbol), pc := m.pc + 2 } := by
  unfold loadCell Line.setD
  rw [follow_symbol_compute h]
  simp [follow, Machine.compute, Comp.value, Machine.operand, toNat_ofNat_of_lt h]

theorem follow_storeD (h : address symbol < memorySize) (m : Machine) :
    follow address (storeD symbol) m =
      some { m with
        a := BitVec.ofNat 16 (address symbol), pc := m.pc + 2,
        ram := m.ram.set (address symbol) m.d } := by
  unfold storeD Line.setM
  rw [follow_symbol_compute h]
  simp [follow, Machine.compute, Comp.value, toNat_ofNat_of_lt h]

variable (hc : KnowsCells address)
include hc

theorem KnowsCells.lt (c : Cell) : address c.symbol < memorySize := by
  rw [hc c]
  exact Nat.lt_trans c.address_lt (by decide)

theorem follow_incSp (m : Machine) :
    follow address incSp m =
      some { m with
        a := 0, pc := m.pc + 2,
        ram := m.ram.set Cell.sp.address (m.ram Cell.sp.address + 1) } := by
  unfold incSp Line.setM
  rw [follow_symbol_compute (hc.lt .sp), hc .sp]
  rfl

/-- Takes a value off the stack and computes with it and the data register. -/
theorem follow_decSp_setD {m : Machine} (comp : Comp) (h1 : 1 < m.ram.sp)
    (hlt : m.ram.sp ≤ memorySize) :
    follow address (decSp ++ [.setD comp]) m =
      some
        { a := m.ram Cell.sp.address - 1
          d := comp.value m.d (operandOf (m.ram Cell.sp.address - 1) m.ram.top)
          pc := m.pc + 3
          ram := m.ram.drop } := by
  have hnat : (m.ram Cell.sp.address - 1).toNat = m.ram.sp - 1 :=
    Memory.toNat_sp_sub_one (by omega)
  have htop : m.ram.drop (m.ram.sp - 1) = m.ram.top :=
    Memory.drop_of_ne _ (by show m.ram.sp - 1 ≠ 0; omega)
  let dropped : Machine :=
    { m with a := m.ram Cell.sp.address - 1, pc := m.pc + 2, ram := m.ram.drop }
  have hdec : follow address (decSp ++ [.setD comp]) m = follow address [.setD comp] dropped := by
    unfold decSp Line.setAM
    rw [List.cons_append, List.cons_append, List.nil_append,
      follow_symbol_compute (hc.lt .sp), hc .sp]
    rfl
  have hoperand : dropped.operand = operandOf (m.ram Cell.sp.address - 1) m.ram.top := by
    funext y
    cases y with
    | a => rfl
    | m => simp only [Machine.operand, operandOf, dropped, hnat, htop]
  have hbelow : dropped.a.toNat < memorySize := by
    simp only [dropped, hnat]
    omega
  rw [hdec, Line.setD, follow_compute hbelow]
  simp only [follow, Machine.compute, hoperand]
  rfl

theorem follow_popD {m : Machine} (h1 : 1 < m.ram.sp) (hlt : m.ram.sp ≤ memorySize) :
    follow address popD m =
      some
        { a := m.ram Cell.sp.address - 1, d := m.ram.top, pc := m.pc + 3, ram := m.ram.drop } :=
  follow_decSp_setD hc (.operand .m) h1 hlt

/-- Writes a value that does not depend on the memory into the first free cell. -/
theorem follow_setTop {m : Machine} {comp : Comp} {value : Word} (hlt : m.ram.sp < memorySize)
    (hv : ∀ operand, comp.value m.d operand = value) :
    follow address (setTop comp) m =
      some { m with
        a := m.ram Cell.sp.address, pc := m.pc + 3, ram := m.ram.set m.ram.sp value } := by
  let pointed : Machine := { m with a := m.ram Cell.sp.address, pc := m.pc + 2 }
  have hload : follow address (setTop comp) m = follow address [.setM comp] pointed := by
    unfold setTop Line.setA
    rw [follow_symbol_compute (hc.lt .sp), hc .sp]
    rfl
  have hbelow : pointed.a.toNat < memorySize := hlt
  have hvalue : comp.value pointed.d pointed.operand = value := hv _
  rw [hload, Line.setM, follow_compute hbelow]
  simp only [follow, Machine.compute, hvalue]
  rfl

/-- Pushes a value that does not depend on the memory. -/
theorem follow_setTop_incSp {m : Machine} {comp : Comp} {value : Word} (h0 : 0 < m.ram.sp)
    (hlt : m.ram.sp < memorySize) (hv : ∀ operand, comp.value m.d operand = value) :
    follow address (setTop comp ++ incSp) m =
      some { m with a := 0, pc := m.pc + 5, ram := m.ram.push value } := by
  have hsp : m.ram.set m.ram.sp value Cell.sp.address = m.ram Cell.sp.address :=
    Memory.set_of_ne _ _ (Nat.ne_of_lt h0)
  rw [follow_append, follow_setTop hc hlt hv, Option.bind_some, follow_incSp hc]
  simp only [hsp]
  rfl

theorem follow_pushD {m : Machine} (h0 : 0 < m.ram.sp) (hlt : m.ram.sp < memorySize) :
    follow address pushD m = some { m with a := 0, pc := m.pc + 5, ram := m.ram.push m.d } :=
  follow_setTop_incSp hc h0 hlt fun _ => rfl

end Idioms

end VmToHack.Hack
