import VmToHack.Proofs.OperatorBlocks
set_option autoImplicit false

/-!
# Comparisons: signed numbers by their difference

A comparison subtracts, and looks at the sign of the difference.  The difference wraps around, so
its sign is that of the true difference only where this fits a word; beyond, it is the opposite
one, and `gt` and `lt` answer for each other (`ComparesByDifference`).  Of the three comparisons
always exactly one holds, and `gt` holds in at most one direction.  `lt` does so, too, but for one
difference: the least number is its own negation, so it is below zero both ways.

`comparison_by_difference` says what the block of a comparison does wherever it stands, and which
answer it gives; `gt_answers_by_wrapped_difference` has two numbers of which the greater one is not
found to be greater.
-/

namespace VmToHack

open VmToHack.Hack

/-! ## Answers -/

/-- The relation of numbers that a comparison is named for. -/
def Operator.relates : Operator → Int → Int → Bool
  | .eq, a, b => a = b
  | .gt, a, b => b < a
  | .lt, a, b => a < b
  | _, _, _ => false

/-- What a comparison answers: how the difference of its operands relates to zero. -/
def Operator.answer (o : Operator) (a b : Word) : Bool := o.relates (a - b).toInt 0

/-- The difference of two words, as signed numbers, fits a word. -/
def DifferenceFits (a b : Word) : Prop := -32768 ≤ a.toInt - b.toInt ∧ a.toInt - b.toInt < 32768

instance (a b : Word) : Decidable (DifferenceFits a b) :=
  inferInstanceAs (Decidable (_ ∧ _))

theorem meaning_of_compares {o : Operator} (h : o.compares = true) :
    o.meaning = .binary fun a b => truth (o.answer a b) := by
  cases o with
  | eq => rfl
  | gt => rfl
  | lt => rfl
  | _ => cases h

theorem toInt_bounds (a : Word) : -32768 ≤ a.toInt ∧ a.toInt < 32768 := by
  have hlow := a.le_toInt
  have hhigh := a.toInt_lt
  omega

/-- The difference wraps around once at most. -/
theorem toInt_sub_eq (a b : Word) :
    (a - b).toInt =
      if a.toInt - b.toInt < -32768 then a.toInt - b.toInt + 65536
      else if a.toInt - b.toInt < 32768 then a.toInt - b.toInt
      else a.toInt - b.toInt - 65536 := by
  have ha := toInt_bounds a
  have hb := toInt_bounds b
  rw [BitVec.toInt_sub, Int.bmod_def]
  omega

section Answers

variable (a b : Word)

/-- Where the difference fits, the answer is that about the numbers themselves. -/
theorem answer_of_fits (o : Operator) (h : DifferenceFits a b) :
    o.answer a b = o.relates a.toInt b.toInt := by
  obtain ⟨hlow, hhigh⟩ := h
  have hsub : (a - b).toInt = a.toInt - b.toInt := by
    rw [toInt_sub_eq, if_neg (by omega), if_pos hhigh]
  unfold Operator.answer
  rw [hsub]
  cases o <;> simp only [Operator.relates, decide_eq_decide] <;> omega

/-- Where it does not, the answer is that about the numbers the other way round. -/
theorem answer_of_not_fits (o : Operator) (h : ¬ DifferenceFits a b) :
    o.answer a b = o.relates b.toInt a.toInt := by
  have ha := toInt_bounds a
  have hb := toInt_bounds b
  have hsub := toInt_sub_eq a b
  unfold DifferenceFits at h
  unfold Operator.answer
  cases o <;> simp only [Operator.relates, decide_eq_decide] <;> omega

/-- Exactly one of the comparisons holds. -/
theorem existsUnique_answer : ∃! o : Operator, o.compares = true ∧ o.answer a b = true := by
  have hunique : ∀ o o' : Operator, o.answer a b = true → o'.answer a b = true → o = o' := by
    intro o o' ho ho'
    cases o <;> cases o' <;>
      simp only [Operator.answer, Operator.relates, decide_eq_true_eq, Bool.false_eq_true,
        reduceCtorEq] at ho ho' ⊢ <;> omega
  have hexists : ∃ o : Operator, o.compares = true ∧ o.answer a b = true := by
    rcases Int.lt_trichotomy (a - b).toInt 0 with hlt | heq | hgt
    · exact ⟨.lt, rfl, decide_eq_true hlt⟩
    · exact ⟨.eq, rfl, decide_eq_true heq⟩
    · exact ⟨.gt, rfl, decide_eq_true hgt⟩
  obtain ⟨o, hcompares, ho⟩ := hexists
  exact ⟨o, ⟨hcompares, ho⟩, fun o' ho' => hunique o' o ho'.2 ho⟩

theorem gt_asymmetric : ¬ (Operator.gt.answer a b = true ∧ Operator.gt.answer b a = true) := by
  have ha := toInt_bounds a
  have hb := toInt_bounds b
  have hsub := toInt_sub_eq a b
  have hsub' := toInt_sub_eq b a
  simp only [Operator.answer, Operator.relates, decide_eq_true_eq]
  omega

/-- Two words are each less than the other exactly if their difference is the least number. -/
theorem lt_both_iff :
    Operator.lt.answer a b = true ∧ Operator.lt.answer b a = true ↔ a - b = BitVec.intMin 16 := by
  have hmin : (BitVec.intMin 16).toInt = -32768 := by decide
  have ha := toInt_bounds a
  have hb := toInt_bounds b
  have hsub := toInt_sub_eq a b
  have hsub' := toInt_sub_eq b a
  rw [← BitVec.toInt_inj, hmin]
  simp only [Operator.answer, Operator.relates, decide_eq_true_eq]
  omega

end Answers

/-! ## Blocks -/

/-- The three comparisons of two words: by the words as signed numbers where their difference fits
a word, and the other way round where it does not. -/
structure ComparesByDifference (a b : Word) : Prop where
  fits : DifferenceFits a b → ∀ o : Operator, o.compares = true →
    o.answer a b = o.relates a.toInt b.toInt
  wraps : ¬ DifferenceFits a b → ∀ o : Operator, o.compares = true →
    o.answer a b = o.relates b.toInt a.toInt
  one : ∃! o : Operator, o.compares = true ∧ o.answer a b = true
  gtAsymmetric : ¬ (Operator.gt.answer a b = true ∧ Operator.gt.answer b a = true)
  ltAsymmetric : Operator.lt.answer a b = true ∧ Operator.lt.answer b a = true ↔
    a - b = BitVec.intMin 16

theorem comparesByDifference (a b : Word) : ComparesByDifference a b where
  fits h o _ := answer_of_fits a b o h
  wraps h o _ := answer_of_not_fits a b o h
  one := existsUnique_answer a b
  gtAsymmetric := gt_asymmetric a b
  ltAsymmetric := lt_both_iff a b

/-- The two values on top of the stack give way to the answer of a comparison, and no other cell
changes. -/
structure Compared (o : Operator) (ram ram' : Memory) : Prop where
  sp : ram'.sp = ram.sp - 1
  result : ram' (ram.sp - 2) = if o.answer (ram (ram.sp - 2)) (ram (ram.sp - 1)) then -1 else 0
  frame : ∀ i, i ≠ Cell.sp.address → i ≠ ram.sp - 2 → ram' i = ram i

theorem compared_apply {o : Operator} (ho : o.compares = true) {ram : Memory} (h : 2 < ram.sp) :
    Compared o ram (o.meaning.apply ram) := by
  rw [meaning_of_compares ho]
  refine ⟨ram.sp_replaceTwo _ h, ?_, fun i hsp hi => ram.replaceTwo_of_ne _ h hsp hi⟩
  show (ram.drop.drop.push (truth (o.answer ram.drop.top ram.top))) (ram.sp - 2) = _
  rw [ram.replaceTwo_first _ h, ram.drop_top_eq h]
  rfl

/-- The block of a comparison, wherever it stands in an assembled program, replaces the two values
on top of the stack by its answer about them. -/
theorem comparison_by_difference {lines before after : List Line} {program : List Instruction}
    {m : Machine} {n : Naming} {o : Operator} (hassembled : assemble? lines = some program)
    (hlines : lines = before ++ ((Command.arithmetic o.mnemonic).block n).lines ++ after)
    (ho : o.compares = true) (hpc : m.pc = codeSize before)
    (hlow : variableBase + 2 ≤ m.ram.sp) (hhigh : m.ram.sp < memorySize) :
    (∃ m', Reaches program m m' ∧
      m'.pc = codeSize (before ++ ((Command.arithmetic o.mnemonic).block n).lines) ∧
      Compared o m.ram m'.ram) ∧
    ComparesByDifference (m.ram (m.ram.sp - 2)) (m.ram (m.ram.sp - 1)) := by
  have hbase : variableBase = 16 := rfl
  obtain ⟨m', hreach, hend, hram⟩ :=
    runs_operator_block hassembled hlines hpc (by omega) (Nat.le_of_lt hhigh)
  refine ⟨⟨m', hreach, hend, ?_⟩, comparesByDifference _ _⟩
  rw [hram]
  exact compared_apply ho (by omega)

/-! ## Two numbers far apart -/

/-- A comparison on its own, outside any function. -/
def gtLines : List Line := ((Command.arithmetic "gt").block { unit := "Main" }).lines

/-- The greatest number below minus one on the stack. -/
def farApart : Machine where
  ram := fun i => if i = Cell.sp.address then 18 else if i = 16 then 32767 else if i = 17 then -1
    else 0

theorem assemble?_gtLines :
    assemble? gtLines = some (instructions (addressOf gtLines) gtLines) := by
  rw [assemble?_eq_some_iff]
  refine ⟨by decide +kernel, by decide +kernel, rfl⟩

theorem comparison_by_difference_far_apart :
    (∃ m', Reaches (instructions (addressOf gtLines) gtLines) farApart m' ∧
      m'.pc = codeSize gtLines ∧ Compared .gt farApart.ram m'.ram) ∧
    ComparesByDifference 32767 (-1) :=
  @comparison_by_difference gtLines [] [] _ farApart { unit := "Main" } .gt assemble?_gtLines
    (List.append_nil _).symm rfl rfl (by decide) (by decide)

/-- The first number is the greater one, and `gt` answers that it is not. -/
theorem gt_answers_by_wrapped_difference :
    (farApart.ram 17).toInt < (farApart.ram 16).toInt ∧
      ∀ m', Reaches (instructions (addressOf gtLines) gtLines) farApart m' →
        m'.pc = codeSize gtLines → m'.ram 16 = 0 := by
  refine ⟨by decide, fun m' hreach hpc => ?_⟩
  obtain ⟨m'', hreach', hpc', hram⟩ :=
    @runs_operator_block gtLines _ farApart [] [] .gt { unit := "Main" } assemble?_gtLines
      (List.append_nil _).symm rfl (by decide) (by decide)
  have hend : ∀ e : Machine, e.pc = codeSize gtLines →
      step (instructions (addressOf gtLines) gtLines) e = none := by
    intro e he
    rw [step, he, ← length_instructions (addressOf gtLines), List.getElem?_length]
    rfl
  obtain rfl := hreach.eq_of_ends hreach' (hend m' hpc) (hend m'' hpc')
  rw [hram]
  decide

end VmToHack
