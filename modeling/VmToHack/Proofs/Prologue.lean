import VmToHack.Proofs.CallReturn
import VmToHack.Proofs.Contracts
set_option autoImplicit false

/-!
# The prologue: a function's locals are zero

A function's block clears one cell for each local, each through the stack pointer that the one
before it has moved.  All of them together are the zeros pushed in a row, so what the block clears
and what it leaves alone are the lemmas on rows of pushed values.

The block loads no symbol but the stack pointer, and no number.  So it assembles however many
locals there are, unless the name of the function is one that every program has
(`prologue_assembles_iff`).
-/

namespace VmToHack

open VmToHack.Hack

/-! ## Zeros in a row -/

/-- Some cells from the stack pointer on are cleared, and nothing else but the pointer changes. -/
structure Cleared (locals : Nat) (ram ram' : Memory) : Prop where
  sp : ram'.sp = ram.sp + locals
  cleared : ∀ i, ram.sp ≤ i → i < ram.sp + locals → ram' i = 0
  kept : ∀ i, i ≠ Cell.sp.address → i < ram.sp ∨ ram.sp + locals ≤ i → ram' i = ram i

namespace Hack.Memory

theorem pushZeros_eq_pushAll (ram : Memory) (locals : Nat) :
    ram.pushZeros locals = ram.pushAll (List.replicate locals 0) := by
  induction locals generalizing ram with
  | zero => rfl
  | succ locals ih => exact ih (ram.push 0)

theorem cleared_pushZeros {ram : Memory} {locals : Nat} (h0 : 0 < ram.sp)
    (hfit : ram.sp + locals < wordCount) : Cleared locals ram (ram.pushZeros locals) := by
  rw [pushZeros_eq_pushAll]
  have hlength : (List.replicate locals (0 : Word)).length = locals := List.length_replicate
  have hroom : ram.sp + (List.replicate locals (0 : Word)).length < 65536 := by rwa [hlength]
  constructor
  case sp => rw [sp_pushAll hroom, hlength]
  case cleared =>
    intro i hlow hhigh
    obtain ⟨k, rfl⟩ := Nat.exists_eq_add_of_le hlow
    rw [pushAll_sp_add h0 hroom (by omega), List.getElem_replicate]
  case kept =>
    intro i hi hside
    exact pushAll_of_not_mem hroom hi (by rwa [hlength])

end Hack.Memory

/-! ## The block -/

/-- The block of a function's start. -/
def prologue (f : String) (locals : Nat) (n : Naming) : List Line :=
  ((Command.function f locals).block n).lines

section Block

variable (f : String) (locals : Nat) (n : Naming)

theorem prologue_eq :
    prologue f locals n =
      .comment (Command.function f locals).text :: functionCode f locals := by
  rw [prologue, block_of_code rfl]

theorem labelNames_prologue : labelNames (prologue f locals n) = [f] := by
  rw [prologue_eq]
  exact labelNames_functionCode f locals

theorem symbol_of_mem_prologue {name : String} (h : Line.symbol name ∈ prologue f locals n) :
    name = Cell.sp.symbol := by
  rw [prologue_eq] at h
  simp only [functionCode, setTop, incSp, Line.setA, Line.setM, List.mem_cons, reduceCtorEq,
    List.mem_flatten, List.mem_replicate, false_or] at h
  obtain ⟨piece, ⟨-, rfl⟩, hname⟩ := h
  simpa using hname

theorem number_not_mem_prologue (k : Int) : Line.number k ∉ prologue f locals n := by
  rw [prologue_eq]
  simp [functionCode, setTop, incSp, Line.setA, Line.setM]

/-- By itself the block is a program, unless the function's name is taken. -/
theorem prologue_assembles_iff :
    (∃ program, assemble? (prologue f locals n) = some program) ↔
      f ∉ predefined.map Prod.fst := by
  have hpredefined : (predefined.map Prod.fst).Nodup := by decide
  have hnames : ((fixedSymbols (prologue f locals n)).map Prod.fst).Nodup ↔
      f ∉ predefined.map Prod.fst := by
    rw [fixedSymbols, List.map_append, map_fst_labels, labelNames_prologue,
      ← List.concat_eq_append, List.nodup_concat]
    exact and_iff_left hpredefined
  have hfits : (instructions (addressOf (prologue f locals n)) (prologue f locals n)).all
      Instruction.fits = true := by
    rw [List.all_eq_true]
    intro i hi
    obtain ⟨line, hline, hinstruction⟩ := List.mem_filterMap.mp hi
    cases line with
    | symbol name =>
      cases hinstruction
      rw [symbol_of_mem_prologue f locals n hline, knowsCells_addressOf]
      rfl
    | number k => exact absurd hline (number_not_mem_prologue f locals n k)
    | compute dest comp jump =>
      cases hinstruction
      rfl
    | label name => cases hinstruction
    | comment text => cases hinstruction
  simp only [assemble?_eq_some_iff, hnames, hfits, true_and, exists_and_left, exists_eq', and_true]

theorem prologue_contract :
    Contract (prologue f locals n)
      (fun _ ram => variableBase ≤ ram.sp ∧ ram.sp + locals < memorySize)
      (fun _ => Cleared locals) := by
  rw [prologue_eq]
  apply Contract.comment
  apply Contract.of_follow (straight_functionCode f locals)
  intro lines program m hstanding ⟨hlow, hhigh⟩
  have hbase : variableBase = 16 := rfl
  have hsize : memorySize = 32768 := rfl
  have hcells : ∀ i ∈ List.range' m.ram.sp locals, i < memorySize := by
    intro i hi
    rw [List.mem_range'_1] at hi
    omega
  obtain ⟨m', hfollow, hram⟩ :=
    @follow_functionCode _ (knowsCells_addressOf lines) f locals m (by omega) hcells
  refine ⟨m', hfollow, ?_⟩
  rw [hram]
  exact Memory.cleared_pushZeros (by omega) (by rw [wordCount]; omega)

/-- The function's name stands for the first instruction of the block. -/
theorem addressOf_prologue {lines before after : List Line} {program : List Instruction}
    (hassembled : assemble? lines = some program)
    (hlines : lines = before ++ prologue f locals n ++ after) :
    addressOf lines f = codeSize before := by
  have hstanding : Standing lines program (codeSize before) (prologue f locals n) :=
    ⟨hassembled, before, after, hlines, rfl⟩
  rw [prologue_eq] at hstanding
  exact hstanding.comment.addressOf_label List.mem_cons_self

end Block

/-- A function's start clears its locals and nothing else, under any names and wherever it stands
in an assembled program; its name stands for its beginning, and only a name that every program has
keeps the block from being a program. -/
theorem prologue_exact (f : String) (locals : Nat) (n : Naming) :
    ((∃ program, assemble? (prologue f locals n) = some program) ↔
        f ∉ predefined.map Prod.fst) ∧
      (∀ lines before after program, assemble? lines = some program →
        lines = before ++ prologue f locals n ++ after →
          addressOf lines f = codeSize before) ∧
      Contract (prologue f locals n)
        (fun _ ram => variableBase ≤ ram.sp ∧ ram.sp + locals < memorySize)
        (fun _ => Cleared locals) :=
  ⟨prologue_assembles_iff f locals n,
    fun _ _ _ _ => addressOf_prologue f locals n,
    prologue_contract f locals n⟩

/-- A stack with four free cells to the end of the memory, none of which is clear. -/
def nearlyFull : Machine where
  ram := fun i => if i = Cell.sp.address then 32764 else 7

/-- Three locals have room there; the cells on both sides of them stay. -/
theorem prologue_exact_nearlyFull :
    ∃ program m', assemble? (prologue "Main.f" 3 { unit := "Main" }) = some program ∧
      Reaches program nearlyFull m' ∧ step program m' = none ∧ m'.ram.sp = 32767 ∧
      m'.ram 32763 = 7 ∧ m'.ram 32764 = 0 ∧ m'.ram 32766 = 0 ∧ m'.ram 32767 = 7 := by
  obtain ⟨hassembles, -, hcontract⟩ := prologue_exact "Main.f" 3 { unit := "Main" }
  obtain ⟨program, hassembled⟩ := hassembles.mpr (by decide)
  have hroom : variableBase ≤ nearlyFull.ram.sp ∧ nearlyFull.ram.sp + 3 < memorySize := by decide
  obtain ⟨m', hreach, hend, hsp, hcleared, hkept⟩ := hcontract.run_alone hassembled rfl hroom
  have hstart : nearlyFull.ram.sp = 32764 := by decide
  rw [hstart] at hsp hcleared hkept
  exact ⟨program, m', hassembled, hreach, hend, hsp, hkept _ (by decide) (by decide),
    hcleared _ (by decide) (by decide), hcleared _ (by decide) (by decide),
    hkept _ (by decide) (by decide)⟩

end VmToHack
