import VmToHack.Proofs.Correspondence
set_option autoImplicit false

/-!
# Operator blocks: what they do to the memory

The code of an operator, standing anywhere in an assembled program, turns the memory into what the
operator means of it and ends right behind itself (`runs_operator`).  An operator changes two
cells: the stack pointer, and the cell of its first operand.
-/

namespace VmToHack

open VmToHack.Hack

variable {lines : List Line} {program : List Instruction} {m : Machine}

/-- Straight code that stands where the machine is runs to its end, and leaves what it does to the
memory. -/
theorem runs_of_follow {code : List Line} {m' : Machine} {P : Memory → Prop}
    (h : Standing lines program m.pc code) (hs : straight code = true)
    (hfollow : follow (addressOf lines) code m = some m') (hram : P m'.ram) :
    ∃ m', Reaches program m m' ∧ m'.pc = m.pc + codeSize code ∧ P m'.ram := by
  obtain ⟨hreach, hpc⟩ := reaches_of_follow h.placed hs hfollow
  exact ⟨m', hreach, hpc, hram⟩

/-- The code of an operator does what the operator means. -/
theorem runs_operator {o : Operator} {n : Naming}
    (h : Standing lines program m.pc (o.code n).1) (hlow : 2 < m.ram.sp)
    (hfit : m.ram.sp ≤ memorySize) :
    ∃ m', Reaches program m m' ∧ m'.pc = m.pc + codeSize (o.code n).1 ∧
      m'.ram = o.meaning.apply m.ram := by
  have hc := knowsCells_addressOf lines
  have hcomputes := o.effect_computes
  unfold Operator.code at h ⊢
  generalize o.effect = e at h hcomputes ⊢
  generalize o.meaning = mean at hcomputes ⊢
  cases hcomputes with
  | @unary comp f hv =>
    obtain ⟨m', hfollow, hram⟩ := follow_unaryCode hc comp (by omega) hfit (hv _ _ _)
    exact runs_of_follow (P := fun ram => ram = _) h rfl hfollow hram
  | @binary comp f hv =>
    obtain ⟨m', hfollow, hram⟩ := follow_binaryCode hc comp hlow hfit (hv _ _ _)
    exact runs_of_follow (P := fun ram => ram = _) h rfl hfollow hram
  | @comparison jump f hv =>
    have htrue : addressOf lines (n.trueLabel o.mnemonic) = m.pc + 11 :=
      h.addressOf_label List.mem_cons_self
    have hdone : addressOf lines (n.endLabel o.mnemonic) = m.pc + 12 :=
      h.addressOf_label (List.mem_cons_of_mem _ List.mem_cons_self)
    have hlt : m.pc + 12 < memorySize := by
      rw [← hdone]
      exact h.addressOf_lt _ (by simp [comparisonCode, goto])
    obtain ⟨m', hreach, hpc, hram⟩ :=
      reaches_comparisonCode hc h.placed htrue hdone hlt hlow hfit
    exact ⟨m', hreach, hpc, by rw [hram, hv]; rfl⟩

theorem lines_block_operator (o : Operator) (n : Naming) :
    ((Command.arithmetic o.mnemonic).block n).lines = .comment o.mnemonic :: (o.code n).1 := by
  have hcode : (Command.arithmetic o.mnemonic).code n = .ok ((o.code n).1, (o.code n).2) := by
    rw [Command.code, Operator.ofMnemonic?_mnemonic]
  rw [block_of_code hcode]
  rfl

/-- The block of an operator that stands in an assembled program. -/
theorem runs_operator_block {before after : List Line} {o : Operator} {n : Naming}
    (hassembled : assemble? lines = some program)
    (hlines : lines = before ++ ((Command.arithmetic o.mnemonic).block n).lines ++ after)
    (hpc : m.pc = codeSize before) (hlow : 2 < m.ram.sp) (hfit : m.ram.sp ≤ memorySize) :
    ∃ m', Reaches program m m' ∧
      m'.pc = codeSize (before ++ ((Command.arithmetic o.mnemonic).block n).lines) ∧
      m'.ram = o.meaning.apply m.ram := by
  rw [lines_block_operator] at hlines ⊢
  have hstanding : Standing lines program m.pc (.comment o.mnemonic :: (o.code n).1) :=
    ⟨hassembled, before, after, hlines, hpc.symm⟩
  rw [codeSize_append, codeSize_comment, ← hpc]
  exact runs_operator hstanding.comment hlow hfit

/-! ## Cells -/

namespace Hack.Memory

variable (ram : Memory) (value : Word)

/-- One operand gives way to one value: the stack is as long as before. -/
theorem sp_replaceOne (h : 1 < ram.sp) : (ram.drop.push value).sp = ram.sp := by
  have hlt := ram.sp_lt
  have hdrop : ram.drop.sp = ram.sp - 1 := sp_drop (by omega)
  rw [sp_push _ (by omega), hdrop]
  omega

theorem replaceOne_first (h : 1 < ram.sp) : (ram.drop.push value) (ram.sp - 1) = value := by
  have hdrop : ram.drop.sp = ram.sp - 1 := sp_drop (by omega)
  rw [← hdrop]
  exact push_top _ value (by omega)

theorem replaceOne_of_ne (h : 1 < ram.sp) {i : Nat} (hsp : i ≠ Cell.sp.address)
    (hi : i ≠ ram.sp - 1) : (ram.drop.push value) i = ram i := by
  have hdrop : ram.drop.sp = ram.sp - 1 := sp_drop (by omega)
  rw [← hdrop] at hi
  rw [push_of_ne _ _ hsp hi, drop_of_ne _ hsp]

theorem sp_drop_drop (h : 2 < ram.sp) : ram.drop.drop.sp = ram.sp - 2 := by
  have hdrop : ram.drop.sp = ram.sp - 1 := sp_drop (by omega)
  rw [sp_drop (by omega), hdrop]
  omega

/-- Two operands give way to one value: the stack is shorter by one. -/
theorem sp_replaceTwo (h : 2 < ram.sp) : (ram.drop.drop.push value).sp = ram.sp - 1 := by
  have hlt := ram.sp_lt
  have hdrop := ram.sp_drop_drop h
  rw [sp_push _ (by omega), hdrop]
  omega

theorem replaceTwo_first (h : 2 < ram.sp) : (ram.drop.drop.push value) (ram.sp - 2) = value := by
  have hdrop := ram.sp_drop_drop h
  rw [← hdrop]
  exact push_top _ value (by omega)

theorem replaceTwo_of_ne (h : 2 < ram.sp) {i : Nat} (hsp : i ≠ Cell.sp.address)
    (hi : i ≠ ram.sp - 2) : (ram.drop.drop.push value) i = ram i := by
  rw [← ram.sp_drop_drop h] at hi
  rw [push_of_ne _ _ hsp hi, drop_of_ne _ hsp, drop_of_ne _ hsp]

theorem drop_top_eq (h : 2 < ram.sp) : ram.drop.top = ram (ram.sp - 2) := by
  have hdrop : ram.drop.sp = ram.sp - 1 := sp_drop (by omega)
  have hcell : ram.drop.sp - 1 = ram.sp - 2 := by omega
  have hsp : Cell.sp.address = 0 := rfl
  rw [top, hcell, drop_of_ne _ (by omega)]

end Hack.Memory

end VmToHack
