import VmToHack.Proofs.Names
import VmToHack.Proofs.Simulation
set_option autoImplicit false

/-!
# Refinement: whole programs and whole runs

Units are translated, put behind one another and assembled.  Whatever run the reference
machine makes of their commands, the assembled program passes through the states of that
run, one after the other.

The layout that the reference machine is given is read off the lines: a position has the
address of its first instruction, and a static cell is where the symbol of the cell is.
-/

namespace VmToHack

open VmToHack.Hack

/-- The layout of the program that some units are translated to. -/
def layoutOf (bootstrap : Bool) (units : List SourceUnit) : Layout where
  codeAddress := codeAddress (items bootstrap units)
  staticCell unit index := addressOf (programLines bootstrap units) (staticSymbol (unit, index))

section Program

variable {bootstrap : Bool} {units : List SourceUnit} {program : List Instruction}
  (h : assemble? (programLines bootstrap units) = some program)
include h

theorem standing_item {position : Nat} {item : Item}
    (hitem : (items bootstrap units)[position]? = some item) :
    Standing (programLines bootstrap units) program
      ((layoutOf bootstrap units).codeAddress position) item.lines := by
  have hsplit := flatMap_eq_of_getElem? hitem
  rw [← programLines_eq] at hsplit
  exact ⟨h, _, _, hsplit, rfl⟩

/-- No code address lies beyond the program. -/
theorem codeAddress_le (position : Nat) :
    (layoutOf bootstrap units).codeAddress position ≤ program.length := by
  obtain ⟨-, -, hprogram⟩ := assemble?_eq_some_iff.mp h
  have hsplit : programLines bootstrap units =
      ((items bootstrap units).take position).flatMap Item.lines ++
        ((items bootstrap units).drop position).flatMap Item.lines := by
    rw [programLines_eq, ← List.flatMap_append, List.take_append_drop]
  rw [← hprogram, length_instructions, hsplit, codeSize_append]
  exact Nat.le_add_right _ _

theorem describes_layoutOf (hsize : program.length < memorySize) :
    (layoutOf bootstrap units).Describes (slots bootstrap units)
      (programLines bootstrap units) := by
  refine ⟨?_, ?_, ?_⟩
  · intro name position hposition
    rw [slots_eq] at hposition
    rw [programLines_eq] at h ⊢
    exact addressOf_symbolOf h hposition
  · intro unit index
    rfl
  · intro position
    exact Nat.lt_of_le_of_lt (codeAddress_le h position) hsize

/-- One step of the reference machine. -/
theorem simulates_step (hfaults : ∀ u ∈ units, u.faults = [])
    (hsize : program.length < memorySize) {s s' : VmState} {m : Machine}
    (hstep : s.step (layoutOf bootstrap units) (slots bootstrap units) = some s')
    (htame : ∀ slot, (slots bootstrap units)[s.position]? = some slot →
      s.Tame (layoutOf bootstrap units) slot)
    (hlow : stackBase ≤ s.ram.sp) (hlow' : stackBase ≤ s'.ram.sp)
    (hpc : m.pc = (layoutOf bootstrap units).codeAddress s.position)
    (hagree : m.ram.AgreesOff scratch s.ram) :
    Lands program m ((layoutOf bootstrap units).codeAddress s'.position) s'.ram := by
  have hd := describes_layoutOf h hsize
  obtain ⟨slot, hslot, hexec⟩ := Option.bind_eq_some_iff.mp hstep
  have htame' := htame slot hslot
  rw [slots_eq, List.getElem?_map, Option.map_eq_some_iff] at hslot
  obtain ⟨item, hitem, rfl⟩ := hslot
  have hnext : (layoutOf bootstrap units).codeAddress (s.position + 1) =
      m.pc + codeSize item.lines := by
    rw [hpc]
    exact codeAddress_succ hitem
  have hstanding := standing_item h hitem
  rw [← hpc] at hstanding
  cases item with
  | bootstrap =>
    obtain ⟨entry, hentry, rfl⟩ := Option.map_eq_some_iff.mp hexec
    have hboot := lands_bootstrap hagree hstanding
    have hname : addressOf (programLines bootstrap units) initFunction =
        (layoutOf bootstrap units).codeAddress entry := by
      rw [← hd.target _ _ hentry, symbolOf_function]
    have hnext' : (layoutOf bootstrap units).codeAddress (s.position + 1) =
        m.pc + codeSize bootstrapBlock := hnext
    rw [hname, ← hnext'] at hboot
    exact hboot
  | site site =>
    obtain ⟨n, c⟩ := site
    have hmem : Item.site ⟨n, c⟩ ∈ items bootstrap units := List.mem_of_getElem? hitem
    obtain ⟨u, hu, hsite⟩ := mem_items_site.mp hmem
    have hrefusal : (c.block n).refusal = none := u.faults_eq_nil_iff.mp (hfaults u hu) _ hsite
    obtain ⟨code, hcode, hlines⟩ := code_of_refusal_eq_none hrefusal
    have hitemLines : (Item.site ⟨n, c⟩).lines = .comment c.text :: code := hlines
    rw [hitemLines] at hstanding hnext
    exact lands_command hd hcode hstanding.comment hexec hnext htame' hagree hlow hlow'

end Program

/-! ## Runs -/

/-- A run of the reference machine in so many steps, in which the stack never falls below
its first cell and every step is tame. -/
structure IsRun (layout : Layout) (program : List Slot) (length : Nat)
    (states : Nat → VmState) : Prop where
  step : ∀ i < length, (states i).step layout program = some (states (i + 1))
  tame : ∀ i < length, ∀ slot, program[(states i).position]? = some slot →
    (states i).Tame layout slot
  low : ∀ i ≤ length, stackBase ≤ (states i).ram.sp

/-- A machine passes through the states of a run in order: after so many steps each time it
is at the code address of the position, and the memories agree. -/
def Passes (layout : Layout) (instructions : List Instruction) (m : Machine) (length : Nat)
    (states : Nat → VmState) : Prop :=
  ∃ steps : Nat → Nat, steps 0 = 0 ∧ (∀ i < length, steps i ≤ steps (i + 1)) ∧
    ∀ i ≤ length, ∃ m', run instructions (steps i) m = some m' ∧
      m'.pc = layout.codeAddress (states i).position ∧ m'.ram.AgreesOff scratch (states i).ram

theorem Passes.succ {layout : Layout} {instructions : List Instruction} {m : Machine}
    {length : Nat} {states : Nat → VmState} (h : Passes layout instructions m length states)
    (hlands : ∀ m' : Machine, m'.pc = layout.codeAddress (states length).position →
      m'.ram.AgreesOff scratch (states length).ram →
      Lands instructions m' (layout.codeAddress (states (length + 1)).position)
        (states (length + 1)).ram) :
    Passes layout instructions m (length + 1) states := by
  obtain ⟨steps, h0, hmono, hpass⟩ := h
  obtain ⟨m', hrun, hpc, hagree⟩ := hpass length (Nat.le_refl _)
  obtain ⟨m'', ⟨k, hk⟩, hpc', hagree'⟩ := hlands m' hpc hagree
  have hrun' : run instructions (steps length + k) m = some m'' := by
    rw [run_add, hrun]
    exact hk
  let steps' : Nat → Nat := fun i => if i ≤ length then steps i else steps length + k
  have hold : ∀ i ≤ length, steps' i = steps i := fun i hi => if_pos hi
  have hnew : steps' (length + 1) = steps length + k := if_neg (by omega)
  refine ⟨steps', ?_, ?_, ?_⟩
  · rw [hold 0 (Nat.zero_le _), h0]
  · intro i hi
    rw [hold i (by omega)]
    by_cases hlt : i < length
    · rw [hold (i + 1) hlt]
      exact hmono i hlt
    · have hlast : i = length := by omega
      rw [hlast, hnew]
      exact Nat.le_add_right _ _
  · intro i hi
    by_cases hle : i ≤ length
    · rw [hold i hle]
      exact hpass i hle
    · have hlast : i = length + 1 := by omega
      rw [hlast, hnew]
      exact ⟨m'', hrun', hpc', hagree'⟩

/-! ## The static segment -/

/-- The static cell that a slot names. -/
def Slot.static? : Slot → Option (String × Int)
  | .command unit _ (.push segment index) =>
    if segment = Segment.static.name then some (unit, index) else none
  | .command unit _ (.pop segment index) =>
    if segment = Segment.static.name then some (unit, index) else none
  | _ => none

/-- The translation of a program without faults loads the symbol of each static cell. -/
theorem symbol_mem_lines {bootstrap : Bool} {units : List SourceUnit}
    (hfaults : ∀ u ∈ units, u.faults = []) {slot : Slot} {cell : String × Int}
    (hslot : slot ∈ slots bootstrap units) (hcell : slot.static? = some cell) :
    .symbol (staticSymbol cell) ∈ programLines bootstrap units := by
  rw [slots_eq] at hslot
  obtain ⟨item, hitem, rfl⟩ := List.mem_map.mp hslot
  cases item with
  | bootstrap => cases hcell
  | site s =>
    obtain ⟨n, c⟩ := s
    obtain ⟨u, hu, hsite⟩ := mem_items_site.mp hitem
    have hrefusal : (c.block n).refusal = none := u.faults_eq_nil_iff.mp (hfaults u hu) _ hsite
    obtain ⟨code, hcode, hlines⟩ := code_of_refusal_eq_none hrefusal
    have hstatic : ∀ index, place n Segment.static.name index =
        .ok (.cell (staticSymbol (n.unit, index))) :=
      fun index => place_name .static n index
    have hmem : Line.symbol (staticSymbol cell) ∈ code := by
      cases c with
      | push segment index =>
        obtain ⟨hsegment, rfl⟩ := Option.ite_some_none_eq_some.mp hcell
        obtain ⟨p, hp, rfl, -⟩ := code_push_eq_ok hcode
        rw [hsegment, hstatic] at hp
        cases hp
        exact List.mem_cons_self
      | pop segment index =>
        obtain ⟨hsegment, rfl⟩ := Option.ite_some_none_eq_some.mp hcell
        obtain ⟨p, hp, hpop, -⟩ := code_pop_eq_ok hcode
        rw [hsegment, hstatic] at hp
        cases hp
        cases hpop
        exact List.mem_append_right _ List.mem_cons_self
      | _ => cases hcell
    rw [programLines_eq]
    refine List.mem_flatMap.mpr ⟨_, hitem, ?_⟩
    show Line.symbol (staticSymbol cell) ∈ (c.block n).lines
    rw [hlines]
    exact List.mem_cons_of_mem _ hmem

/-- The static cells of a layout are cells of their own: none of them is a register, and no
two of them are the same. -/
def Layout.SeparatesStatics (layout : Layout) (program : List Slot) : Prop :=
  ∀ slot ∈ program, ∀ cell, slot.static? = some cell →
    variableBase ≤ layout.staticCell cell.1 cell.2 ∧
      ∀ slot' ∈ program, ∀ cell', slot'.static? = some cell' →
        layout.staticCell cell.1 cell.2 = layout.staticCell cell'.1 cell'.2 → cell = cell'

theorem separatesStatics_layoutOf {bootstrap : Bool} {units : List SourceUnit}
    (hfaults : ∀ u ∈ units, u.faults = [])
    (hlabels : ∀ slot ∈ slots bootstrap units, ∀ cell, slot.static? = some cell →
      staticSymbol cell ∉ (labels 0 (programLines bootstrap units)).map Prod.fst) :
    (layoutOf bootstrap units).SeparatesStatics (slots bootstrap units) := by
  have hvariable : ∀ slot ∈ slots bootstrap units, ∀ cell, slot.static? = some cell →
      staticSymbol cell ∉ (fixedSymbols (programLines bootstrap units)).map Prod.fst := by
    intro slot hslot cell hcell
    unfold fixedSymbols
    rw [List.map_append, List.mem_append, not_or]
    exact ⟨staticSymbol_not_mem_predefined cell, hlabels slot hslot cell hcell⟩
  intro slot hslot cell hcell
  refine ⟨?_, ?_⟩
  · show variableBase ≤ addressOf (programLines bootstrap units) (staticSymbol cell)
    rw [addressOf_of_not_mem (hvariable slot hslot cell hcell)]
    exact Nat.le_add_right _ _
  · intro slot' hslot' cell' hcell' heq
    apply staticSymbol_inj
    exact addressOf_inj_of_variables (symbol_mem_lines hfaults hslot hcell)
      (hvariable slot hslot cell hcell) (hvariable slot' hslot' cell' hcell') heq

/-! ## The theorem -/

/-- The assembled program passes through every run of the reference machine.  The static
cells are variables, so no label may have the symbol of one. -/
theorem assembled_program_passes_through_run {bootstrap : Bool} {units : List SourceUnit}
    {program : List Instruction} {length : Nat} {states : Nat → VmState} {m : Machine}
    (hfaults : ∀ u ∈ units, u.faults = [])
    (h : assemble? (programLines bootstrap units) = some program)
    (hsize : program.length < memorySize)
    (hlabels : ∀ slot ∈ slots bootstrap units, ∀ cell, slot.static? = some cell →
      staticSymbol cell ∉ (labels 0 (programLines bootstrap units)).map Prod.fst)
    (hrun : IsRun (layoutOf bootstrap units) (slots bootstrap units) length states)
    (hpc : m.pc = (layoutOf bootstrap units).codeAddress (states 0).position)
    (hram : m.ram.AgreesOff scratch (states 0).ram) :
    (layoutOf bootstrap units).SeparatesStatics (slots bootstrap units) ∧
      Passes (layoutOf bootstrap units) program m length states := by
  refine ⟨separatesStatics_layoutOf hfaults hlabels, ?_⟩
  induction length with
  | zero =>
    refine ⟨fun _ => 0, rfl, fun i hi => absurd hi (Nat.not_lt_zero i), ?_⟩
    intro i hi
    obtain rfl := Nat.le_zero.mp hi
    exact ⟨m, rfl, hpc, hram⟩
  | succ length ih =>
    have hprefix : IsRun (layoutOf bootstrap units) (slots bootstrap units) length states :=
      ⟨fun i hi => hrun.step i (by omega), fun i hi => hrun.tame i (by omega),
        fun i hi => hrun.low i (by omega)⟩
    refine (ih hprefix).succ ?_
    intro m' hpc' hagree'
    exact simulates_step h hfaults hsize (hrun.step length (by omega))
      (hrun.tame length (by omega)) (hrun.low length (by omega)) (hrun.low (length + 1) (by omega))
      hpc' hagree'

/-- A unit that stores a number in a static cell, again and again. -/
def loopUnit : SourceUnit where
  name := "Main"
  commands := [.label "L", .push "constant" 7, .pop "static" 0, .goto "L"]

/-- A memory with an empty stack. -/
def emptyStack : Memory := fun i => if i = Cell.sp.address then 256 else 0

/-- The states of the first round of the loop. -/
def loopStates : Nat → VmState
  | 0 => ⟨0, emptyStack⟩
  | 1 => ⟨1, emptyStack⟩
  | 2 => ⟨2, emptyStack.push 7⟩
  | 3 => ⟨3, (emptyStack.push 7).drop.set 16 7⟩
  | _ => ⟨0, (emptyStack.push 7).drop.set 16 7⟩

theorem isRun_loopStates :
    IsRun (layoutOf false [loopUnit]) (slots false [loopUnit]) 4 loopStates := by
  refine ⟨?_, ?_, ?_⟩
  · intro i hi
    obtain rfl | rfl | rfl | rfl : i = 0 ∨ i = 1 ∨ i = 2 ∨ i = 3 := by omega
    all_goals rfl
  · intro i hi slot hslot
    obtain rfl | rfl | rfl | rfl : i = 0 ∨ i = 1 ∨ i = 2 ∨ i = 3 := by omega
    all_goals
      cases hslot
      exact ⟨by decide, by decide⟩
  · decide

theorem assembled_program_passes_through_loop :
    ∃ program, assemble? (programLines false [loopUnit]) = some program ∧
      (layoutOf false [loopUnit]).SeparatesStatics (slots false [loopUnit]) ∧
      Passes (layoutOf false [loopUnit]) program { ram := emptyStack } 4 loopStates := by
  have h : assemble? (programLines false [loopUnit]) =
      some (instructions (addressOf (programLines false [loopUnit]))
        (programLines false [loopUnit])) := by
    rw [assemble?_eq_some_iff]
    exact ⟨by decide, by decide, rfl⟩
  exact ⟨_, h, assembled_program_passes_through_run (by decide) h (by decide) (by decide)
    isRun_loopStates rfl (Memory.AgreesOff.refl _ _)⟩

end VmToHack
