import VmToHack.Proofs.Contracts
set_option autoImplicit false

/-!
# Arithmetic: numbers modulo the number of words

What the operators compute, said about numbers: the number that an operator stands for
(`Operator.number`), cut down to a word.  A comparison looks at the difference of its operands as
the word reads it with its sign, so what wraps around counts as wrapped.

`arithmetic_exact` is the contract of an operator's block: the operands give way to the result, in
the cell of the first of them, and no other cell but the stack pointer changes.  In between there
may be jumps; the block still ends right behind itself.
-/

namespace VmToHack

open VmToHack.Hack

/-! ## Numbers -/

namespace Operator

/-- The number of operands. -/
def arity : Operator → Nat
  | .neg | .not => 1
  | _ => 2

/-- The number that an operator stands for, its operands being given without a sign.  The operators
of one operand look at the first one. -/
def number (first second : Nat) : Operator → Int
  | .add => first + second
  | .sub => first - second
  | .and => (first &&& second : Nat)
  | .or => (first ||| second : Nat)
  | .neg => -first
  | .not => -first - 1
  | .eq => if (first - second : Int).bmod wordCount = 0 then -1 else 0
  | .gt => if 0 < (first - second : Int).bmod wordCount then -1 else 0
  | .lt => if (first - second : Int).bmod wordCount < 0 then -1 else 0

end Operator

namespace Meaning

/-- The number of operands that a meaning takes. -/
def arity : Meaning → Nat
  | .unary _ => 1
  | .binary _ => 2

/-- The value of a meaning; an operator of one operand has no use for the second. -/
def value (first second : Word) : Meaning → Word
  | .unary f => f first
  | .binary f => f first second

end Meaning

theorem arity_meaning (o : Operator) : o.meaning.arity = o.arity := by
  cases o <;> rfl

section Words

variable (a b : Word)

theorem toInt_sub_eq_bmod : (a - b).toInt = ((a.toNat : Int) - b.toNat).bmod wordCount := by
  rw [BitVec.toInt_sub, BitVec.toInt_eq_toNat_bmod, BitVec.toInt_eq_toNat_bmod, Int.sub_bmod_bmod,
    Int.bmod_sub_bmod]
  rfl

theorem toNat_truth (p : Prop) [Decidable p] :
    ((truth p).toNat : Int) = (if p then -1 else 0) % (wordCount : Int) := by
  by_cases h : p <;> simp [truth, h, wordCount]

/-- An operator computes its number, cut down to a word. -/
theorem toNat_value (o : Operator) :
    ((o.meaning.value a b).toNat : Int) = o.number a.toNat b.toNat % wordCount := by
  have ha := a.isLt
  have hb := b.isLt
  cases o with
  | add =>
    show ((a + b).toNat : Int) = ((a.toNat : Int) + b.toNat) % 65536
    rw [BitVec.toNat_add]
    omega
  | sub =>
    show ((a - b).toNat : Int) = ((a.toNat : Int) - b.toNat) % 65536
    rw [BitVec.toNat_sub]
    omega
  | neg =>
    show ((-a).toNat : Int) = (-(a.toNat : Int)) % 65536
    rw [BitVec.toNat_neg]
    omega
  | not =>
    show ((~~~a).toNat : Int) = (-(a.toNat : Int) - 1) % 65536
    rw [BitVec.toNat_not]
    omega
  | and =>
    have hlt : a.toNat &&& b.toNat < 65536 := Nat.and_lt_two_pow a.toNat hb
    show ((a &&& b).toNat : Int) = ((a.toNat &&& b.toNat : Nat) : Int) % 65536
    rw [BitVec.toNat_and]
    omega
  | or =>
    have hlt : a.toNat ||| b.toNat < 65536 := Nat.or_lt_two_pow ha hb
    show ((a ||| b).toNat : Int) = ((a.toNat ||| b.toNat : Nat) : Int) % 65536
    rw [BitVec.toNat_or]
    omega
  | eq | gt | lt =>
    rw [Operator.number, ← toInt_sub_eq_bmod]
    exact toNat_truth _

end Words

/-! ## Memories -/

/-- The operands on top of the stack give way to the result of an operator, and no other cell
changes. -/
structure Computed (o : Operator) (ram ram' : Memory) : Prop where
  sp : ram'.sp = ram.sp - o.arity + 1
  result : ((ram' (ram.sp - o.arity)).toNat : Int) =
    o.number (ram (ram.sp - o.arity)).toNat (ram (ram.sp - 1)).toNat % wordCount
  frame : ∀ i, i ≠ Cell.sp.address → i ≠ ram.sp - o.arity → ram' i = ram i

namespace Meaning

variable {ram : Memory} (mean : Meaning)

theorem sp_apply (h : 2 < ram.sp) : (mean.apply ram).sp = ram.sp - mean.arity + 1 := by
  cases mean with
  | unary f =>
    have hsp := ram.sp_replaceOne (f ram.top) (by omega)
    show (ram.drop.push (f ram.top)).sp = ram.sp - 1 + 1
    omega
  | binary f =>
    have hsp := ram.sp_replaceTwo (f ram.drop.top ram.top) h
    show (ram.drop.drop.push (f ram.drop.top ram.top)).sp = ram.sp - 2 + 1
    omega

theorem apply_first (h : 2 < ram.sp) :
    mean.apply ram (ram.sp - mean.arity) =
      mean.value (ram (ram.sp - mean.arity)) (ram (ram.sp - 1)) := by
  cases mean with
  | unary f => exact ram.replaceOne_first _ (by omega)
  | binary f =>
    show (ram.drop.drop.push (f ram.drop.top ram.top)) (ram.sp - 2) = _
    rw [ram.replaceTwo_first _ h, ram.drop_top_eq h]
    rfl

theorem apply_of_ne (h : 2 < ram.sp) {i : Nat} (hsp : i ≠ Cell.sp.address)
    (hi : i ≠ ram.sp - mean.arity) : mean.apply ram i = ram i := by
  cases mean with
  | unary f => exact ram.replaceOne_of_ne _ (by omega) hsp hi
  | binary f => exact ram.replaceTwo_of_ne _ h hsp hi

end Meaning

/-- What an operator means, by the cells of its operands. -/
theorem computed_apply (o : Operator) {ram : Memory} (h : 2 < ram.sp) :
    Computed o ram (o.meaning.apply ram) := by
  constructor <;> rw [← arity_meaning o]
  case sp => exact o.meaning.sp_apply h
  case result =>
    rw [o.meaning.apply_first h]
    exact toNat_value _ _ o
  case frame => exact fun i => o.meaning.apply_of_ne h

/-! ## Blocks -/

/-- The block of an operator. -/
def Operator.lines (o : Operator) (n : Naming) : List Line :=
  ((Command.arithmetic o.mnemonic).block n).lines

theorem length_operator_le (o : Operator) (n : Naming) : (o.lines n).length ≤ 32 := by
  rw [Operator.lines, lines_block_operator]
  cases o <;> simp [Operator.code, Operator.effect, binaryCode, unaryCode, comparisonCode, popD,
    pushD, decSp, incSp, setTop, goto]

theorem operator_assembles (o : Operator) (n : Naming) :
    ∃ program, assemble? (o.lines n) = some program := by
  have hbase : variableBase = 16 := rfl
  have hlimit : loadLimit = 32768 := rfl
  have hlength := length_operator_le o n
  have hshort : variableBase + (o.lines n).length ≤ loadLimit := by omega
  refine block_assembles rfl (fun k hk => hk.loadable ?_ nofun) hshort
  rintro segment i (h | h) <;> cases h

/-- The block of an operator, under any names and wherever it stands in an assembled program,
replaces its operands by its result. -/
theorem arithmetic_exact (o : Operator) (n : Naming) :
    (∃ program, assemble? (o.lines n) = some program) ∧
      Contract (o.lines n)
        (fun _ ram => variableBase + o.arity ≤ ram.sp ∧ ram.sp < memorySize)
        (fun _ => Computed o) := by
  refine ⟨operator_assembles o n, ?_⟩
  intro lines before after program m hassembled hlines hpc ⟨hlow, hhigh⟩
  have hbase : variableBase = 16 := rfl
  obtain ⟨m', hreach, hend, hram⟩ :=
    runs_operator_block hassembled hlines hpc (by omega) (Nat.le_of_lt hhigh)
  refine ⟨m', hreach, hend, ?_⟩
  rw [hram]
  exact computed_apply o (by omega)

/-- The least number and one on the stack. -/
def leastAndOne : Machine where
  ram := fun i => if i = Cell.sp.address then 18 else if i = 16 then BitVec.intMin 16
    else if i = 17 then 1 else 0

/-- The least number is less than one, but their difference wraps around to a positive one. -/
theorem arithmetic_exact_wrapping :
    ∃ program m', assemble? (Operator.lt.lines { unit := "Main" }) = some program ∧
      Reaches program leastAndOne m' ∧ step program m' = none ∧ m'.ram.sp = 17 ∧
      m'.ram 16 = 0 := by
  obtain ⟨⟨program, hassembled⟩, hcontract⟩ := arithmetic_exact .lt { unit := "Main" }
  have hroom : variableBase + Operator.lt.arity ≤ leastAndOne.ram.sp ∧
      leastAndOne.ram.sp < memorySize := by decide
  obtain ⟨m', hreach, hend, hcomputed⟩ := hcontract.run_alone hassembled rfl hroom
  have hresult : ((m'.ram 16).toNat : Int) = (0 : Word).toNat := hcomputed.result
  exact ⟨program, m', hassembled, hreach, hend, hcomputed.sp,
    BitVec.eq_of_toNat_eq (Int.ofNat_inj.mp hresult)⟩

end VmToHack
