import VmToHack.Proofs.CodeLines
import VmToHack.Proofs.OperatorBlocks
set_option autoImplicit false

/-!
# Contracts: what a block does wherever it stands

A block is run as a piece of an assembled program, with the addresses that the symbols have there.
Its contract speaks of the memory alone: from every memory that meets the precondition the block
runs from its first instruction to right behind its last one, and leaves a memory as the
postcondition says.

A contract would hold of a block that no program can contain.  So what the names of a block have to
be for it to assemble is said here, too (`block_assembles`): labels that the translation has made
never stand in the way, and a short block has room for its variables.
-/

namespace VmToHack

namespace Hack

/-- The number of words. -/
def wordCount : Nat := 65536

/-! ## Contracts -/

/-- Wherever some lines stand in an assembled program, they take a memory from the one condition to
the other, which may depend on the addresses of symbols. -/
def Contract (block : List Line) (pre : (String → Nat) → Memory → Prop)
    (post : (String → Nat) → Memory → Memory → Prop) : Prop :=
  ∀ ⦃lines before after : List Line⦄ ⦃program : List Instruction⦄ ⦃m : Machine⦄,
    assemble? lines = some program → lines = before ++ block ++ after → m.pc = codeSize before →
    pre (addressOf lines) m.ram →
    ∃ m', Reaches program m m' ∧ m'.pc = codeSize (before ++ block) ∧
      post (addressOf lines) m.ram m'.ram

section Contracts

variable {block : List Line} {pre : (String → Nat) → Memory → Prop}
  {post : (String → Nat) → Memory → Memory → Prop}

theorem Contract.of_standing
    (h : ∀ {lines : List Line} {program : List Instruction} {m : Machine},
      Standing lines program m.pc block → pre (addressOf lines) m.ram →
      ∃ m', Reaches program m m' ∧ m'.pc = m.pc + codeSize block ∧
        post (addressOf lines) m.ram m'.ram) :
    Contract block pre post := by
  intro lines before after program m hassembled hlines hpc hpre
  obtain ⟨m', hreach, hpc', hpost⟩ := h ⟨hassembled, before, after, hlines, hpc.symm⟩ hpre
  exact ⟨m', hreach, by rw [hpc', codeSize_append, hpc], hpost⟩

/-- Straight code does what following it does. -/
theorem Contract.of_follow (hstraight : straight block = true)
    (h : ∀ {lines : List Line} {program : List Instruction} {m : Machine},
      Standing lines program m.pc block → pre (addressOf lines) m.ram →
      ∃ m', follow (addressOf lines) block m = some m' ∧ post (addressOf lines) m.ram m'.ram) :
    Contract block pre post := by
  apply Contract.of_standing
  intro lines program m hstanding hpre
  obtain ⟨m', hfollow, hpost⟩ := h hstanding hpre
  exact runs_of_follow hstanding hstraight hfollow hpost

/-- A comment in front takes no place. -/
theorem Contract.comment (text : String) (h : Contract block pre post) :
    Contract (.comment text :: block) pre post := by
  apply Contract.of_standing
  intro lines program m hstanding hpre
  obtain ⟨before, after, hsplit, hstart⟩ := hstanding.comment.split
  obtain ⟨m', hreach, hpc, hpost⟩ := h hstanding.assembled hsplit hstart.symm hpre
  refine ⟨m', hreach, ?_, hpost⟩
  rw [hpc, codeSize_append, hstart, codeSize_comment]

/-- By itself a block is a program that runs to its end. -/
theorem Contract.run_alone (h : Contract block pre post) {program : List Instruction} {m : Machine}
    (hassembled : assemble? block = some program) (hpc : m.pc = 0)
    (hpre : pre (addressOf block) m.ram) :
    ∃ m', Reaches program m m' ∧ step program m' = none ∧ post (addressOf block) m.ram m'.ram := by
  obtain ⟨m', hreach, hend, hpost⟩ :=
    @h block [] [] program m hassembled (List.append_nil _).symm hpc hpre
  refine ⟨m', hreach, ?_, hpost⟩
  obtain ⟨-, -, rfl⟩ := assemble?_eq_some_iff.mp hassembled
  rw [step, hend, List.nil_append, ← length_instructions (addressOf block), List.getElem?_length]
  rfl

end Contracts

/-! ## Lines that assemble -/

section Assembling

variable {lines : List Line}

theorem le_of_mem_labels {name : String} {address start : Nat}
    (h : (name, address) ∈ labels start lines) : address ≤ start + lines.length := by
  induction lines generalizing start with
  | nil => cases h
  | cons line lines ih =>
    cases line with
    | label l =>
      rcases List.mem_cons.mp h with h | h
      · cases h
        omega
      · have := ih h
        rw [List.length_cons]
        omega
    | _ =>
      have := ih h
      rw [List.length_cons]
      omega

theorem length_eraseDups_le (names : List String) : names.eraseDups.length ≤ names.length := by
  induction hlength : names.length using Nat.strongRecOn generalizing names with
  | _ length ih =>
    cases names with
    | nil => simp
    | cons name names =>
      have hfilter := List.length_filter_le (fun other => !other == name) names
      rw [List.length_cons] at hlength
      have hrest := ih _ (by omega) (names.filter fun other => !other == name) rfl
      rw [List.eraseDups_cons, List.length_cons]
      omega

theorem length_variableNames_le (lines : List Line) :
    (variableNames lines).length ≤ lines.length :=
  calc (variableNames lines).length
      ≤ ((lines.filterMap Line.symbol?).filter fun name =>
          ((fixedSymbols lines).lookup name).isNone).length := length_eraseDups_le _
    _ ≤ (lines.filterMap Line.symbol?).length := List.length_filter_le _ _
    _ ≤ lines.length := List.length_filterMap_le _ _

/-- In short code every symbol stands for an address that can be loaded. -/
theorem addressOf_lt_of_short (hshort : variableBase + lines.length ≤ loadLimit) {name : String}
    (hmem : Line.symbol name ∈ lines) : addressOf lines name < loadLimit := by
  have hbase : variableBase = 16 := rfl
  rw [addressOf]
  cases hlookup : (fixedSymbols lines).lookup name with
  | some address =>
    obtain ⟨front, back, hsplit, -⟩ := List.lookup_eq_some_iff.mp hlookup
    have hfixed : (name, address) ∈ fixedSymbols lines := by simp [hsplit]
    rcases List.mem_append.mp hfixed with h | h
    · have hpredefined : ∀ p ∈ predefined, p.2 < loadLimit := by decide
      exact hpredefined _ h
    · have := le_of_mem_labels h
      show address < loadLimit
      omega
  | none =>
    have hname : name ∈ variableNames lines := by
      apply mem_variableNames hmem
      intro hfixed
      obtain ⟨p, hp, rfl⟩ := List.mem_map.mp hfixed
      rw [List.lookup_eq_none_iff] at hlookup
      simpa using hlookup p hp
    have hlt := List.idxOf_lt_length_of_mem hname
    have hle := length_variableNames_le lines
    show variableBase + (variableNames lines).idxOf name < loadLimit
    omega

/-- Short code assembles if its labels are new and distinct and its numbers can be loaded. -/
theorem assemble?_of_short (hlabels : ((fixedSymbols lines).map Prod.fst).Nodup)
    (hnumbers : ∀ k, Line.number k ∈ lines → 0 ≤ k ∧ k < loadLimit)
    (hshort : variableBase + lines.length ≤ loadLimit) :
    assemble? lines = some (instructions (addressOf lines) lines) := by
  refine assemble?_eq_some_iff.mpr ⟨hlabels, List.all_eq_true.mpr ?_, rfl⟩
  intro i hi
  obtain ⟨line, hline, hinstruction⟩ := List.mem_filterMap.mp hi
  cases line with
  | symbol name =>
    cases hinstruction
    have hlt := addressOf_lt_of_short hshort hline
    simp [Instruction.fits, hlt]
  | number k =>
    cases hinstruction
    simpa [Instruction.fits] using hnumbers k hline
  | compute dest comp jump =>
    cases hinstruction
    rfl
  | label name => cases hinstruction
  | comment text => cases hinstruction

end Assembling

end Hack

open VmToHack.Hack

/-- The numbers in the code of a command can be loaded if its own can. -/
theorem CodeNumber.loadable {c : Command} {k : Int} (h : CodeNumber c k)
    (hindex : ∀ segment i, c = .push segment i ∨ c = .pop segment i → 0 ≤ i ∧ i < loadLimit)
    (hcall : ∀ name args, c = .call name args →
      0 ≤ args + frameSize ∧ args + frameSize < loadLimit) : 0 ≤ k ∧ k < loadLimit := by
  cases h with
  | index h => exact hindex _ _ h
  | offset h =>
    have hsize : frameSize < loadLimit := by decide
    omega
  | frame h => exact hcall _ _ h

theorem number_of_mem_block {n : Naming} {c : Command} {k : Int}
    (h : Line.number k ∈ (c.block n).lines) : CodeNumber c k := by
  cases hc : c.code n with
  | error r => simp [block_of_error hc] at h
  | ok p =>
    have hcode : Line.number k ∈ p.1 := by simpa [block_of_code hc] using h
    cases codeLine_of_mem_code hc _ hcode with
    | number hk => exact hk

/-- Whatever the names around it are, the short block of a command that names no position is a
program. -/
theorem block_assembles {n : Naming} {c : Command}
    (hnames : (Item.site ⟨n, c⟩).slot.names? = none)
    (hnumbers : ∀ k, CodeNumber c k → 0 ≤ k ∧ k < loadLimit)
    (hshort : variableBase + (c.block n).lines.length ≤ loadLimit) :
    ∃ program, assemble? (c.block n).lines = some program := by
  have hlabels : labelNames (c.block n).lines = (c.marks.map n.label).map MadeLabel.symbol := by
    have hgenerated := generated_eq (.site ⟨n, c⟩)
    rwa [Item.generated, hnames] at hgenerated
  refine ⟨_, assemble?_of_short ?_ (fun k hk => hnumbers k (number_of_mem_block hk)) hshort⟩
  have hdollar : ∀ name ∈ predefined.map Prod.fst, '$' ∉ name.toList := by decide
  have hpredefined : (predefined.map Prod.fst).Nodup := by decide
  rw [fixedSymbols, List.map_append, map_fst_labels, hlabels]
  refine hpredefined.append ?_ ?_
  · rw [List.map_map]
    refine (nodup_marks c).map fun mark mark' h => ?_
    exact congrArg MadeLabel.mark (MadeLabel.symbol_inj h)
  · intro name hname hmade
    obtain ⟨l, -, rfl⟩ := List.mem_map.mp hmade
    exact hdollar _ hname l.mem_symbol

end VmToHack
