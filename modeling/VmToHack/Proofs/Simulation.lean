import VmToHack.Proofs.CallReturn
import VmToHack.Proofs.OperatorBlocks
set_option autoImplicit false

/-!
# Simulation

An assembled program does what the reference machine does.  The memories of the two
agree off three cells, which the code uses for itself; the address of the next
instruction is the code address of the position.

The first part says for each kind of code where it lands, from any state whose memory
agrees with one of the reference machine.  `simulates_step` puts these together for one
step, and `simulates_run` follows whole runs.
-/

namespace VmToHack

open VmToHack.Hack

/-- The cells that the code uses for itself. -/
def scratch : List Nat :=
  [Cell.popAddress.address, Cell.frame.address, Cell.returnAddress.address]

theorem not_mem_scratch {i : Nat} (h : variableBase ≤ i) : i ∉ scratch := by
  have hscratch : ∀ j ∈ scratch, j < variableBase := by decide
  intro hmem
  have := hscratch i hmem
  omega

theorem sp_not_mem_scratch : Cell.sp.address ∉ scratch := by decide

theorem framed_not_mem_scratch : ∀ c ∈ Memory.framed, c.address ∉ scratch := by decide

/-- The program gets to an address, with a memory that agrees with a given one. -/
def Lands (program : List Instruction) (m : Machine) (pc : Nat) (ram : Memory) : Prop :=
  ∃ m', Reaches program m m' ∧ m'.pc = pc ∧ m'.ram.AgreesOff scratch ram

section Landing

variable {lines : List Line} {program : List Instruction} {m : Machine} {ram : Memory}

theorem lands_of_follow {code : List Line} {m' : Machine}
    (h : Standing lines program m.pc code) (hs : straight code = true)
    (hfollow : follow (addressOf lines) code m = some m') (hram : m'.ram.AgreesOff scratch ram) :
    Lands program m (m.pc + codeSize code) ram :=
  runs_of_follow (P := fun ram' => ram'.AgreesOff scratch ram) h hs hfollow hram

variable (hagree : m.ram.AgreesOff scratch ram) (hlow : stackBase ≤ ram.sp)
include hagree

theorem agreesOff_sp : m.ram.sp = ram.sp := hagree.sp_eq sp_not_mem_scratch

include hlow

theorem agreesOff_top : m.ram.top = ram.top := by
  have hbase : stackBase = 256 := rfl
  have hbelow : variableBase = 16 := rfl
  refine hagree.top sp_not_mem_scratch (not_mem_scratch ?_)
  rw [agreesOff_sp hagree]
  omega

theorem agreesOff_drop_top : m.ram.drop.top = ram.drop.top := by
  have hbase : stackBase = 256 := rfl
  have hbelow : variableBase = 16 := rfl
  have hsp := agreesOff_sp hagree
  refine (hagree.drop sp_not_mem_scratch).top sp_not_mem_scratch (not_mem_scratch ?_)
  rw [Memory.sp_drop (by omega)]
  omega

/-! ## Arithmetic -/

/-- An operator means the same of memories that agree. -/
theorem agreesOff_apply (mean : Meaning) :
    (mean.apply m.ram).AgreesOff scratch (mean.apply ram) := by
  have hdrop := hagree.drop sp_not_mem_scratch
  have htop := agreesOff_top hagree hlow
  cases mean with
  | unary f => exact hdrop.push sp_not_mem_scratch (congrArg f htop)
  | binary f =>
    have htop' := agreesOff_drop_top hagree hlow
    exact (hdrop.drop sp_not_mem_scratch).push sp_not_mem_scratch (congrArg₂ f htop' htop)

theorem lands_operator {o : Operator} {n : Naming}
    (h : Standing lines program m.pc (o.code n).1)
    (hcells : ∀ i ∈ o.meaning.operands ram, i < memorySize) :
    Lands program m (m.pc + codeSize (o.code n).1) (o.meaning.apply ram) := by
  have hbase : stackBase = 256 := rfl
  have hsp := agreesOff_sp hagree
  have hfit : m.ram.sp ≤ memorySize := by
    have hmem : ram.sp - 1 ∈ o.meaning.operands ram := by
      cases o.meaning <;> exact List.mem_cons_self
    have := hcells _ hmem
    omega
  obtain ⟨m', hreach, hpc, hram⟩ := runs_operator h (by omega) hfit
  refine ⟨m', hreach, hpc, ?_⟩
  rw [hram]
  exact agreesOff_apply hagree hlow o.meaning

/-! ## Pushes and pops -/

section Segments

variable {layout : Layout} {n : Naming} {segment : String} {index : Int} {p : Place}
  (hstatic : addressOf lines (n.static index) = layout.staticCell n.unit index)
  (hplace : place n segment index = .ok p)
include hstatic hplace

theorem lands_push {value : Word} (h : Standing lines program m.pc p.pushCode)
    (hvalue : segmentValue? layout n.unit ram segment index = some value)
    (hcell : ∀ cell, segmentCell? layout n.unit ram segment index = some cell →
      cell < memorySize ∧ cell ∉ scratch)
    (hlt : ram.sp < memorySize) :
    Lands program m (m.pc + codeSize p.pushCode) (ram.push value) := by
  have hc := knowsCells_addressOf lines
  have hbase : stackBase = 256 := rfl
  have hsp := agreesOff_sp hagree
  have hvalue' : segmentValue? layout n.unit m.ram segment index = some value := by
    rw [segmentValue?_congr hagree framed_not_mem_scratch fun cell hread => (hcell cell hread).2]
    exact hvalue
  have htarget : p.target (addressOf lines) m.ram < memorySize := by
    refine target_lt_of_segmentValue? hc hstatic hplace hvalue' ?_
    intro cell hread
    rw [segmentCell?_congr hagree framed_not_mem_scratch] at hread
    exact (hcell cell hread).1
  obtain ⟨m', hfollow, hram⟩ :=
    follow_pushCode hc (loadable_of_pushCode h) htarget (by omega) (by omega)
  apply lands_of_follow h (straight_pushCode p) hfollow
  rw [hram, value_of_segmentValue? hc hstatic hplace hvalue']
  exact hagree.push sp_not_mem_scratch rfl

theorem lands_pop {code : List Line} {cell : Nat} (h : Standing lines program m.pc code)
    (hcode : p.popCode = .ok code)
    (hcell : segmentCell? layout n.unit ram segment index = some cell)
    (hlt : cell < memorySize) (hfit : ram.sp - 1 < memorySize) :
    Lands program m (m.pc + codeSize code) (ram.drop.set cell ram.top) := by
  have hc := knowsCells_addressOf lines
  have hbase : stackBase = 256 := rfl
  have hbelow : variableBase = 16 := rfl
  have hsp := agreesOff_sp hagree
  rw [← segmentCell?_congr hagree framed_not_mem_scratch] at hcell
  obtain ⟨htarget, -⟩ := target_of_segmentCell? hc hstatic hplace hcell
  obtain ⟨m', hfollow, hram⟩ :=
    follow_popCode hc hcode (loadable_of_popCode hcode h) (by rw [htarget]; exact hlt)
      (by omega) (by omega)
  apply lands_of_follow h (straight_popCode hcode) hfollow
  rw [htarget] at hram
  have hmono : m'.ram.AgreesOff scratch (m.ram.drop.set cell m.ram.top) :=
    hram.mono (List.cons_subset_cons _ (List.nil_subset _))
  exact hmono.trans ((hagree.drop sp_not_mem_scratch).set _ (agreesOff_top hagree hlow))

end Segments

/-! ## Jumps -/

omit hlow in
theorem lands_goto {label : String} (h : Standing lines program m.pc (goto label)) :
    Lands program m (addressOf lines label) ram := by
  obtain ⟨m', hreach, hpc, hram⟩ :=
    reaches_goto h.placed (h.addressOf_lt label List.mem_cons_self)
  refine ⟨m', hreach, hpc, ?_⟩
  rw [hram]
  exact hagree

theorem lands_ifGoto {label : String}
    (h : Standing lines program m.pc (popD ++ [.symbol label, .jumpIf .d .jne]))
    (hfit : ram.sp - 1 < memorySize) :
    Lands program m (if ram.top = 0 then m.pc + 5 else addressOf lines label) ram.drop := by
  have hbase : stackBase = 256 := rfl
  have hsp := agreesOff_sp hagree
  have hlt : addressOf lines label < memorySize := h.addressOf_lt label (by simp)
  obtain ⟨m', hreach, hpc, hram⟩ :=
    reaches_ifGoto (knowsCells_addressOf lines) h.placed hlt (by omega) (by omega)
  refine ⟨m', hreach, ?_, ?_⟩
  · rw [hpc, agreesOff_top hagree hlow]
  · rw [hram]
    exact hagree.drop sp_not_mem_scratch

/-! ## Functions -/

theorem lands_function {name : String} {locals : Int}
    (h : Standing lines program m.pc (functionCode name locals))
    (hcells : ∀ i ∈ List.range' ram.sp locals.toNat, i < memorySize) :
    Lands program m (m.pc + codeSize (functionCode name locals))
      (ram.pushZeros locals.toNat) := by
  have hbase : stackBase = 256 := rfl
  have hsp := agreesOff_sp hagree
  obtain ⟨m', hfollow, hram⟩ :=
    follow_functionCode (knowsCells_addressOf lines) name (m := m) (by omega)
      (by rw [hsp]; exact hcells)
  refine lands_of_follow h (straight_functionCode name locals) hfollow ?_
  rw [hram]
  exact hagree.pushZeros sp_not_mem_scratch _

theorem lands_call {f returnLabel : String} {args : Int}
    (h : Standing lines program m.pc (callCode f args returnLabel))
    (hcells : ∀ i ∈ List.range' ram.sp frameSize, i < memorySize) :
    Lands program m (addressOf lines f)
      (ram.enter (BitVec.ofNat 16 (m.pc + codeSize (callCode f args returnLabel)))
        (BitVec.ofInt 16 args)) := by
  have hbase : stackBase = 256 := rfl
  have hsp := agreesOff_sp hagree
  have hfive : frameSize = 5 := rfl
  have hlast := hcells (ram.sp + 4) (by simp [frameSize])
  obtain ⟨m', hreach, hpc, hram⟩ := reaches_call h (by omega) (by omega)
  refine ⟨m', hreach, hpc, ?_⟩
  rw [hram]
  exact hagree.enter sp_not_mem_scratch framed_not_mem_scratch _ _

omit hagree hlow in
/-- A stack that a return leaves high says that its result was not stored into scratch. -/
theorem arg_not_mem_scratch_of_leave (hleave : stackBase ≤ ram.leave.sp) :
    (ram Cell.arg.address).toNat ∉ returnScratch := by
  have hbase : stackBase = 256 := rfl
  intro hmem
  have hcases : (ram Cell.arg.address).toNat = 14 ∨ (ram Cell.arg.address).toNat = 15 := by
    simpa [returnScratch, Cell.address] using hmem
  have hne : Cell.arg.address ≠ (ram Cell.arg.address).toNat := by
    show 2 ≠ (ram Cell.arg.address).toNat
    omega
  have hsp : ram.leave Cell.sp.address = ram Cell.arg.address + 1 := by
    rw [Memory.leave_of_not_mem (by decide), Memory.answer, Memory.set_self,
      Memory.set_of_ne _ _ hne, Memory.drop_of_ne _ (by decide)]
  unfold Memory.sp at hleave
  rw [hsp] at hleave
  bv_omega

theorem lands_return (h : Standing lines program m.pc returnCode)
    (hfit : ram.sp - 1 < memorySize) (harg : (ram Cell.arg.address).toNat < memorySize)
    (hframe : ∀ i ∈ frameCells ram, i < memorySize ∧ i ∉ scratch)
    (hgoal : ram.returnAddress.toNat < memorySize) (hleave : stackBase ≤ ram.leave.sp) :
    Lands program m ram.returnAddress.toNat ram.leave := by
  have hbase : stackBase = 256 := rfl
  have hbelow : variableBase = 16 := rfl
  have hsp := agreesOff_sp hagree
  have hlclOff : Cell.lcl.address ∉ scratch :=
    framed_not_mem_scratch .lcl (by simp [Memory.framed])
  have hargOff : Cell.arg.address ∉ scratch :=
    framed_not_mem_scratch .arg (by simp [Memory.framed])
  have hlcl' : m.ram Cell.lcl.address = ram Cell.lcl.address := hagree _ hlclOff
  have harg' : m.ram Cell.arg.address = ram Cell.arg.address := hagree _ hargOff
  have hsub : ∀ i ∈ returnScratch, i ∈ scratch := by decide
  have hword : ∀ offset, 0 < offset → offset ≤ frameSize →
      (ram Cell.lcl.address - BitVec.ofNat 16 offset).toNat < memorySize ∧
        (ram Cell.lcl.address - BitVec.ofNat 16 offset).toNat ∉ scratch := by
    intro offset hpos hle
    refine hframe _ (List.mem_map_of_mem ?_)
    rw [List.mem_range'_1]
    omega
  have hgoal' : m.ram.returnAddress = ram.returnAddress := by
    unfold Memory.returnAddress
    rw [hlcl']
    exact hagree _ (hword frameSize (by decide) (Nat.le_refl _)).2
  have hclear : Clear (m.ram Cell.arg.address).toNat := by
    rw [harg']
    exact ⟨harg, arg_not_mem_scratch_of_leave hleave⟩
  have hframe' : ∀ offset, 0 < offset → offset ≤ frameSize →
      Clear (m.ram Cell.lcl.address - BitVec.ofNat 16 offset).toNat := by
    intro offset hpos hle
    rw [hlcl']
    obtain ⟨hlt, hne⟩ := hword offset hpos hle
    exact ⟨hlt, fun hmem => hne (hsub _ hmem)⟩
  obtain ⟨m', hreach, hpc, hram⟩ :=
    reaches_returnCode (knowsCells_addressOf lines) h.placed (by omega) (by omega) hclear hframe'
      (by rw [hgoal']; exact hgoal)
  refine ⟨m', hreach, by rw [hpc, hgoal'], (hram.mono hsub).trans ?_⟩
  refine hagree.leave sp_not_mem_scratch hlclOff hargOff ?_ ?_
  · exact not_mem_scratch (by omega)
  · intro p hp
    obtain ⟨hpos, hle, -⟩ := saved_offsets p hp
    rw [hlcl']
    exact (hword p.2 hpos hle).2

omit hlow in
/-- The block that starts a program sets the stack up and calls the first function. -/
theorem lands_bootstrap (h : Standing lines program m.pc bootstrapBlock) :
    Lands program m (addressOf lines initFunction)
      ((ram.set Cell.sp.address (BitVec.ofNat 16 stackBase)).enter
        (BitVec.ofNat 16 (m.pc + codeSize bootstrapBlock)) (BitVec.ofInt 16 0)) := by
  let setUp : List Line := [.comment "bootstrap"] ++ loadNumber stackBase ++
    storeD Cell.sp.symbol ++ [.comment ("call " ++ initFunction ++ " 0")]
  let called : Machine :=
    { a := BitVec.ofNat 16 Cell.sp.address
      d := BitVec.ofNat 16 stackBase
      pc := m.pc + 4
      ram := m.ram.set Cell.sp.address (BitVec.ofNat 16 stackBase) }
  have hsplit : bootstrapBlock =
      setUp ++ callCode initFunction 0 bootstrapNaming.returnLabel := rfl
  rw [hsplit] at h ⊢
  have hc := knowsCells_addressOf lines
  have hfollow : follow (addressOf lines) setUp m = some called := by
    show follow (addressOf lines) (loadNumber stackBase ++ (storeD Cell.sp.symbol ++
      [.comment ("call " ++ initFunction ++ " 0")])) m = some called
    rw [follow_append, follow_loadNumber (by decide) (by decide), Option.bind_some, follow_append,
      follow_storeD (hc.lt .sp), hc]
    rfl
  obtain ⟨hreach, hpc⟩ := reaches_of_follow h.left.placed rfl hfollow
  let ready : Memory := ram.set Cell.sp.address (BitVec.ofNat 16 stackBase)
  have hsp : ready.sp = stackBase := Memory.sp_set_self _ _
  have hagree' : called.ram.AgreesOff scratch ready := hagree.set _ rfl
  have hcells : ∀ i ∈ List.range' ready.sp frameSize, i < memorySize := by
    rw [hsp]
    decide
  have hcall := h.right
  rw [← hpc] at hcall
  obtain ⟨m', hreach', hend⟩ := lands_call hagree' (Nat.le_of_eq hsp.symm) hcall hcells
  refine ⟨m', hreach.trans hreach', ?_⟩
  rw [codeSize_append, ← Nat.add_assoc, ← hpc]
  exact hend

end Landing

/-! ## One step -/

/-- A layout is that of the lines that a program is translated to. -/
structure Layout.Describes (layout : Layout) (program : List Slot) (lines : List Line) : Prop where
  target : ∀ name position, positionOf program name = some position →
    addressOf lines (symbolOf name) = layout.codeAddress position
  static : ∀ unit index,
    addressOf lines (unit ++ "." ++ toString index) = layout.staticCell unit index
  code_lt : ∀ position, layout.codeAddress position < memorySize

/-- A step addresses cells of the memory only, and reads none that the code uses for
itself. -/
structure VmState.Tame (layout : Layout) (s : VmState) (slot : Slot) : Prop where
  addressed : ∀ i ∈ s.addressedCells layout slot, i < memorySize
  read : ∀ i ∈ s.readCells layout slot, i ∉ scratch

theorem codeAddress_positionAt {layout : Layout} {program : List Slot} {address position : Nat}
    (h : layout.positionAt program address = some position) :
    layout.codeAddress position = address := by
  have := List.find?_some h
  simpa using this

section Command

variable {lines : List Line} {program : List Instruction} {layout : Layout} {slots : List Slot}
  {s s' : VmState} {m : Machine} {n n' : Naming} {c : Command} {code : List Line}

/-- The code of a command does what the reference machine does with the command. -/
theorem lands_command (hd : layout.Describes slots lines) (hcode : c.code n = .ok (code, n'))
    (h : Standing lines program m.pc code)
    (hexec : s.execute layout slots (.command n.unit n.function c) = some s')
    (hnext : layout.codeAddress (s.position + 1) = m.pc + codeSize code)
    (htame : s.Tame layout (.command n.unit n.function c))
    (hagree : m.ram.AgreesOff scratch s.ram) (hlow : stackBase ≤ s.ram.sp)
    (hlow' : stackBase ≤ s'.ram.sp) :
    Lands program m (layout.codeAddress s'.position) s'.ram := by
  have haddressed := htame.addressed
  have hread := htame.read
  have hstatic : ∀ index, addressOf lines (n.static index) = layout.staticCell n.unit index :=
    fun index => hd.static n.unit index
  cases c with
  | arithmetic op =>
    obtain ⟨o, ho, rfl⟩ := Option.map_eq_some_iff.mp hexec
    obtain ⟨o', ho', hcode⟩ := code_arithmetic_eq_ok hcode
    rw [ho] at ho'
    cases ho'
    have hlines : (o.code n).1 = code := congrArg Prod.fst hcode
    rw [← hlines] at h hnext
    simp only [VmState.addressedCells, VmState.readCells, List.nil_append, ho, Option.map_some,
      Option.getD_some] at haddressed
    rw [hnext]
    exact lands_operator hagree hlow h haddressed
  | push segment index =>
    obtain ⟨value, hvalue, rfl⟩ := Option.map_eq_some_iff.mp hexec
    obtain ⟨p, hp, rfl, rfl⟩ := code_push_eq_ok hcode
    rw [hnext]
    refine lands_push hagree hlow (hstatic index) hp h hvalue ?_ ?_
    · intro cell hcell
      have hmem : cell ∈ s.readCells layout (.command n.unit n.function (.push segment index)) := by
        simp [VmState.readCells, hcell]
      exact ⟨haddressed cell (List.mem_append_left _ hmem), hread cell hmem⟩
    · exact haddressed _ (List.mem_append_right _ List.mem_cons_self)
  | pop segment index =>
    obtain ⟨cell, hcell, rfl⟩ := Option.map_eq_some_iff.mp hexec
    obtain ⟨p, hp, hpop, rfl⟩ := code_pop_eq_ok hcode
    have hmem : cell < memorySize := haddressed _ (by
      simp [VmState.addressedCells, VmState.readCells, hcell])
    rw [hnext]
    refine lands_pop hagree hlow (hstatic index) hp h hpop hcell hmem ?_
    exact haddressed _ (List.mem_append_right _ List.mem_cons_self)
  | label name =>
    cases hexec
    cases hcode
    rw [hnext]
    exact lands_of_follow h rfl rfl hagree
  | goto name =>
    obtain ⟨target, htarget, rfl⟩ := Option.map_eq_some_iff.mp hexec
    cases hcode
    rw [← hd.target _ _ htarget]
    exact lands_goto hagree h
  | ifGoto name =>
    cases hcode
    have hjump := lands_ifGoto hagree hlow h
      (haddressed _ (List.mem_append_right _ List.mem_cons_self))
    simp only [VmState.execute] at hexec
    split at hexec
    · next htop =>
      cases hexec
      rw [if_pos htop] at hjump
      rw [hnext]
      exact hjump
    · next htop =>
      obtain ⟨target, htarget, rfl⟩ := Option.map_eq_some_iff.mp hexec
      rw [if_neg htop, labelSymbol_eq, hd.target _ _ htarget] at hjump
      exact hjump
  | function name locals =>
    cases hexec
    cases hcode
    rw [hnext]
    exact lands_function hagree hlow h haddressed
  | call name args =>
    obtain ⟨entry, hentry, rfl⟩ := Option.map_eq_some_iff.mp hexec
    cases hcode
    have hcall := lands_call hagree hlow h haddressed
    have hname : addressOf lines name = layout.codeAddress entry := by
      rw [← hd.target _ _ hentry, symbolOf_function]
    rw [hname, ← hnext] at hcall
    exact hcall
  | ret =>
    obtain ⟨target, htarget, rfl⟩ := Option.map_eq_some_iff.mp hexec
    cases hcode
    have hgoal := codeAddress_positionAt htarget
    have hfit : s.ram.returnAddress.toNat < memorySize := by
      rw [← hgoal]
      exact hd.code_lt target
    rw [hgoal]
    refine lands_return hagree hlow h ?_ ?_ ?_ hfit hlow'
    · exact haddressed _ (List.mem_append_right _ List.mem_cons_self)
    · exact haddressed _ (List.mem_append_right _ (List.mem_cons_of_mem _ List.mem_cons_self))
    · exact fun i hi => ⟨haddressed i (List.mem_append_left _ hi), hread i hi⟩
  | other name => cases hexec

end Command

end VmToHack
