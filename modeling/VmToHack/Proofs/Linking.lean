import Mathlib.Data.List.Basic
import VmToHack.Proofs.Straight
set_option autoImplicit false

/-!
# Linking: symbols of an assembled program

What `assemble?` promises about the program that it gives.  Every label stands for the
address behind it, every cell of the machine for itself, and every other symbol for a
variable: distinct symbols for distinct cells, none of them below the first variable.
All that is loaded fits, and a piece of the lines is a piece of the program.
-/

namespace VmToHack.Hack

variable {lines before block after : List Line} {program : List Instruction}

theorem assemble?_eq_some_iff :
    assemble? lines = some program ↔
      ((fixedSymbols lines).map Prod.fst).Nodup ∧
        (instructions (addressOf lines) lines).all Instruction.fits = true ∧
        instructions (addressOf lines) lines = program := by
  simp [assemble?, and_assoc]

/-! ## What symbols stand for -/

theorem knowsCells_addressOf (lines : List Line) : KnowsCells (addressOf lines) := by
  intro c
  rw [addressOf, fixedSymbols, List.lookup_append, lookup_predefined]
  rfl

/-- The labels of a program stand for something fixed. -/
theorem addressOf_of_mem_fixedSymbols (hnodup : ((fixedSymbols lines).map Prod.fst).Nodup)
    {name : String} {address : Nat} (h : (name, address) ∈ fixedSymbols lines) :
    addressOf lines name = address := by
  have hlookup : (fixedSymbols lines).lookup name = some address := by
    obtain ⟨front, back, hsplit⟩ := List.append_of_mem h
    refine List.lookup_eq_some_iff.mpr ⟨front, back, hsplit, ?_⟩
    intro p hp
    rw [hsplit, List.map_append, List.map_cons, List.nodup_append] at hnodup
    have hne := hnodup.2.2 p.1 (List.mem_map_of_mem hp) name List.mem_cons_self
    simpa using hne.symm
  rw [addressOf, hlookup]

theorem addressOf_of_mem_labels (h : assemble? lines = some program) {name : String}
    {address : Nat} (hmem : (name, address) ∈ labels 0 lines) :
    addressOf lines name = address :=
  addressOf_of_mem_fixedSymbols (assemble?_eq_some_iff.mp h).1
    (List.mem_append_right _ hmem)

theorem mem_labels_of_eq {name : String} (h : lines = before ++ .label name :: after) :
    (name, codeSize before) ∈ labels 0 lines := by
  rw [h, labels_append, Nat.zero_add]
  exact List.mem_append_right _ List.mem_cons_self

/-! ## Variables -/

theorem lookup_eq_none_of_not_mem {name : String}
    (h : name ∉ (fixedSymbols lines).map Prod.fst) : (fixedSymbols lines).lookup name = none := by
  rw [List.lookup_eq_none_iff]
  intro p hp
  have hne : name ≠ p.1 := by
    rintro rfl
    exact h (List.mem_map_of_mem hp)
  simpa using hne

/-- A symbol that stands for nothing fixed stands for a variable. -/
theorem addressOf_of_not_mem {name : String} (h : name ∉ (fixedSymbols lines).map Prod.fst) :
    addressOf lines name = variableBase + (variableNames lines).idxOf name := by
  rw [addressOf, lookup_eq_none_of_not_mem h]

theorem mem_variableNames {name : String} (hmem : Line.symbol name ∈ lines)
    (h : name ∉ (fixedSymbols lines).map Prod.fst) : name ∈ variableNames lines := by
  unfold variableNames
  rw [List.mem_eraseDups, List.mem_filter]
  refine ⟨List.mem_filterMap.mpr ⟨_, hmem, rfl⟩, ?_⟩
  rw [lookup_eq_none_of_not_mem h]
  rfl

/-- Two variables have two cells. -/
theorem addressOf_inj_of_variables {name name' : String} (hmem : Line.symbol name ∈ lines)
    (h : name ∉ (fixedSymbols lines).map Prod.fst)
    (h' : name' ∉ (fixedSymbols lines).map Prod.fst)
    (heq : addressOf lines name = addressOf lines name') : name = name' := by
  rw [addressOf_of_not_mem h, addressOf_of_not_mem h', Nat.add_left_cancel_iff] at heq
  exact (List.idxOf_inj (mem_variableNames hmem h)).mp heq

/-! ## What is loaded -/

theorem fits_of_assemble? (h : assemble? lines = some program) {line : Line} {i : Instruction}
    (hmem : line ∈ lines) (hi : line.instruction? (addressOf lines) = some i) :
    i.fits = true :=
  List.all_eq_true.mp (assemble?_eq_some_iff.mp h).2.1 i (List.mem_filterMap.mpr ⟨line, hmem, hi⟩)

theorem addressOf_lt (h : assemble? lines = some program) {name : String}
    (hmem : Line.symbol name ∈ lines) : addressOf lines name < memorySize := by
  have hfits := fits_of_assemble? h hmem rfl
  simp only [Instruction.fits, Bool.and_eq_true, decide_eq_true_eq] at hfits
  exact Int.ofNat_lt.mp hfits.2

theorem number_fits (h : assemble? lines = some program) {n : Int}
    (hmem : Line.number n ∈ lines) : 0 ≤ n ∧ n < loadLimit := by
  have hfits := fits_of_assemble? h hmem rfl
  simpa [Instruction.fits] using hfits

/-! ## Pieces -/

theorem placed_of_eq (h : assemble? lines = some program)
    (hsplit : lines = before ++ block ++ after) :
    Placed program (addressOf lines) (codeSize before) block := by
  obtain ⟨-, -, hprogram⟩ := assemble?_eq_some_iff.mp h
  refine ⟨instructions (addressOf lines) after, ?_⟩
  have hpieces : program = instructions (addressOf lines) before ++
      (instructions (addressOf lines) block ++ instructions (addressOf lines) after) := by
    rw [← hprogram, ← instructions_append, ← instructions_append, ← List.append_assoc, ← hsplit]
  rw [hpieces, ← length_instructions (addressOf lines) before, List.drop_left]

theorem codeSize_comment (text : String) (lines : List Line) :
    codeSize (.comment text :: lines) = codeSize lines := rfl

/-- A piece of the lines of an assembled program, with the address at which it begins. -/
structure Standing (lines : List Line) (program : List Instruction) (start : Nat)
    (block : List Line) : Prop where
  assembled : assemble? lines = some program
  split : ∃ before after, lines = before ++ block ++ after ∧ codeSize before = start

namespace Standing

variable {start : Nat} {block' : List Line}

theorem left (h : Standing lines program start (block ++ block')) :
    Standing lines program start block := by
  obtain ⟨before, after, hsplit, hstart⟩ := h.split
  refine ⟨h.assembled, before, block' ++ after, ?_, hstart⟩
  simp only [hsplit, List.append_assoc]

theorem right (h : Standing lines program start (block ++ block')) :
    Standing lines program (start + codeSize block) block' := by
  obtain ⟨before, after, hsplit, hstart⟩ := h.split
  refine ⟨h.assembled, before ++ block, after, ?_, ?_⟩
  · simp only [hsplit, List.append_assoc]
  · rw [codeSize_append, hstart]

/-- A comment takes no place. -/
theorem comment {text : String} (h : Standing lines program start (.comment text :: block)) :
    Standing lines program start block :=
  right (show Standing lines program start ([.comment text] ++ block) from h)

theorem placed (h : Standing lines program start block) :
    Placed program (addressOf lines) start block := by
  obtain ⟨before, after, hsplit, hstart⟩ := h.split
  rw [← hstart]
  exact placed_of_eq h.assembled hsplit

theorem mem (h : Standing lines program start block) {line : Line} (hmem : line ∈ block) :
    line ∈ lines := by
  obtain ⟨before, after, hsplit, -⟩ := h.split
  rw [hsplit]
  exact List.mem_append_left _ (List.mem_append_right _ hmem)

/-- The labels of a piece are labels of the program. -/
theorem mem_labels (h : Standing lines program start block) {name : String} {address : Nat}
    (hmem : (name, address) ∈ labels start block) : (name, address) ∈ labels 0 lines := by
  obtain ⟨before, after, hsplit, hstart⟩ := h.split
  rw [hsplit, labels_append, labels_append, Nat.zero_add, hstart]
  exact List.mem_append_left _ (List.mem_append_right _ hmem)

theorem addressOf_label (h : Standing lines program start block) {name : String} {address : Nat}
    (hmem : (name, address) ∈ labels start block) : addressOf lines name = address :=
  addressOf_of_mem_labels h.assembled (h.mem_labels hmem)

theorem addressOf_lt (h : Standing lines program start block) (name : String)
    (hmem : Line.symbol name ∈ block) : addressOf lines name < memorySize :=
  Hack.addressOf_lt h.assembled (h.mem hmem)

theorem number_fits (h : Standing lines program start block) (n : Int)
    (hmem : Line.number n ∈ block) : 0 ≤ n ∧ n < loadLimit :=
  Hack.number_fits h.assembled (h.mem hmem)

end Standing

end VmToHack.Hack
