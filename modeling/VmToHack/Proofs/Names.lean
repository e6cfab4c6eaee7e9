import Mathlib.Data.List.Basic
import VmToHack.Hack.Assembly
import VmToHack.Lowering.Routines
import VmToHack.Vocabulary
set_option autoImplicit false

/-!
# Names: what symbols are made of

The symbols that the translation makes up are parts with a separator between them, and a
number at the end.  A number holds no separator, so a symbol can be taken apart again at
its last one: `separated_inj`.  Static symbols are separated by a point, made labels by a
dollar sign, once or twice.
-/

namespace VmToHack

open VmToHack.Hack

/-! ## Parts -/

/-- A text falls into two parts at the last separator in only one way. -/
theorem separated_inj {c : Char} {a a' b b' : List Char} (hb : c ∉ b) (hb' : c ∉ b')
    (h : a ++ c :: b = a' ++ c :: b') : a = a' ∧ b = b' := by
  have hreverse : b.reverse ++ c :: a.reverse = b'.reverse ++ c :: a'.reverse := by
    have := congrArg List.reverse h
    simpa using this
  rw [List.append_eq_append_iff] at hreverse
  -- If one tail were longer than the other, the separator would lie in it.
  obtain ⟨l, hl, hrest⟩ | ⟨l, hl, hrest⟩ := hreverse
  · cases l with
    | nil =>
      simp only [List.append_nil, List.nil_append, List.cons.injEq, true_and] at hl hrest
      exact ⟨List.reverse_inj.mp hrest, (List.reverse_inj.mp hl).symm⟩
    | cons x l =>
      obtain ⟨rfl, -⟩ := List.cons.inj hrest
      exact absurd (by rw [← List.mem_reverse, hl]; simp) hb'
  · cases l with
    | nil =>
      simp only [List.append_nil, List.nil_append, List.cons.injEq, true_and] at hl hrest
      exact ⟨(List.reverse_inj.mp hrest).symm, List.reverse_inj.mp hl⟩
    | cons x l =>
      obtain ⟨rfl, -⟩ := List.cons.inj hrest
      exact absurd (by rw [← List.mem_reverse, hl]; simp) hb

theorem not_mem_toList_repr {c : Char} (hdigit : c.isDigit = false) (k : Nat) :
    c ∉ k.repr.toList := by
  intro hmem
  rw [Nat.toList_repr] at hmem
  have := Nat.isDigit_of_mem_toDigits (by decide) (by decide) hmem
  rw [hdigit] at this
  cases this

/-- A number is written with digits and a sign. -/
theorem not_mem_toList_toString {c : Char} (hdigit : c.isDigit = false) (hsign : c ≠ '-')
    (n : Int) : c ∉ (toString n).toList := by
  rw [Int.toString_eq_repr, Int.repr_eq_if]
  split
  · exact not_mem_toList_repr hdigit _
  · rw [String.toList_append, List.mem_append]
    rintro (h | h)
    · exact hsign (by simpa using h)
    · exact not_mem_toList_repr hdigit _ h

theorem natRepr_inj {k k' : Nat} (h : k.repr = k'.repr) : k = k' := by
  have hdigits := congrArg (fun text => Nat.ofDigitChars 10 text.toList 0) h
  simpa only [Nat.toList_repr, Nat.ofDigitChars_toDigits (show 1 < 10 by omega) (Nat.le_refl 10)]
    using hdigits

/-- Two numbers are written in two ways. -/
theorem toString_inj {n n' : Int} (h : toString n = toString n') : n = n' := by
  have hsign : ∀ k k' : Nat, "-" ++ k.repr ≠ k'.repr := by
    intro k k' heq
    refine not_mem_toList_repr (c := '-') (by decide) k' ?_
    rw [← heq, String.toList_append]
    exact List.mem_append_left _ List.mem_cons_self
  rw [Int.toString_eq_repr, Int.toString_eq_repr, Int.repr_eq_if, Int.repr_eq_if] at h
  split at h <;> split at h
  · have := natRepr_inj h
    omega
  · exact absurd h.symm (hsign _ _)
  · exact absurd h (hsign _ _)
  · have hdigits : (-n).toNat.repr.toList = (-n').toNat.repr.toList := by
      have := congrArg String.toList h
      simpa using this
    have := natRepr_inj (String.toList_injective hdigits)
    omega

/-! ## Static symbols -/

/-- The symbol of a cell of the static segment. -/
def staticSymbol (cell : String × Int) : String := cell.1 ++ "." ++ toString cell.2

theorem toList_staticSymbol (cell : String × Int) :
    (staticSymbol cell).toList = cell.1.toList ++ '.' :: (toString cell.2).toList := by
  simp [staticSymbol]

theorem staticSymbol_inj {cell cell' : String × Int} (h : staticSymbol cell = staticSymbol cell') :
    cell = cell' := by
  have hpoint := not_mem_toList_toString (c := '.') (by decide) (by decide)
  have hlist := congrArg String.toList h
  rw [toList_staticSymbol, toList_staticSymbol] at hlist
  obtain ⟨hunit, hindex⟩ := separated_inj (hpoint cell.2) (hpoint cell'.2) hlist
  exact Prod.ext (String.toList_injective hunit) (toString_inj (String.toList_injective hindex))

/-- The machine has no symbol like that of its own. -/
theorem staticSymbol_not_mem_predefined (cell : String × Int) :
    staticSymbol cell ∉ predefined.map Prod.fst := by
  have hpoint : ∀ name ∈ predefined.map Prod.fst, '.' ∉ name.toList := by decide
  intro hmem
  apply hpoint _ hmem
  rw [toList_staticSymbol]
  exact List.mem_append_right _ List.mem_cons_self

/-! ## Made labels -/

/-- What a made label is for. -/
inductive Mark where
  /-- where a call goes on -/
  | back
  /-- the branch of a comparison that holds -/
  | whenTrue (o : Operator)
  /-- where the branches of a comparison meet -/
  | whenDone (o : Operator)
  deriving DecidableEq, Repr, Inhabited

/-- A label that the translation makes up. -/
structure MadeLabel where
  owner : String
  mark : Mark
  number : Int
  deriving DecidableEq, Repr, Inhabited

namespace MadeLabel

/-- How a made label is written. -/
def symbol (l : MadeLabel) : String :=
  match l.mark with
  | .back => l.owner ++ "$ret." ++ toString l.number
  | .whenTrue o => l.owner ++ "$" ++ o.mnemonic.toUpper ++ "$TRUE." ++ toString l.number
  | .whenDone o => l.owner ++ "$" ++ o.mnemonic.toUpper ++ "$END." ++ toString l.number

/-- The part in front of the last dollar sign. -/
def stem (l : MadeLabel) : List Char :=
  match l.mark with
  | .back => l.owner.toList
  | .whenTrue o => l.owner.toList ++ '$' :: o.mnemonic.toUpper.toList
  | .whenDone o => l.owner.toList ++ '$' :: o.mnemonic.toUpper.toList

end MadeLabel

/-- The word behind the last dollar sign. -/
def Mark.word : Mark → List Char
  | .back => "ret.".toList
  | .whenTrue _ => "TRUE.".toList
  | .whenDone _ => "END.".toList

namespace MadeLabel

/-- The part behind the last dollar sign. -/
def tail (l : MadeLabel) : List Char := l.mark.word ++ (toString l.number).toList

theorem toList_symbol (l : MadeLabel) : l.symbol.toList = l.stem ++ '$' :: l.tail := by
  obtain ⟨owner, mark, number⟩ := l
  cases mark <;> simp [symbol, stem, tail, Mark.word]

theorem not_mem_tail (l : MadeLabel) : '$' ∉ l.tail := by
  have hword : ∀ mark : Mark, '$' ∉ mark.word := by
    intro mark
    cases mark <;> simp [Mark.word]
  rw [tail, List.mem_append, not_or]
  exact ⟨hword l.mark, not_mem_toList_toString (by decide) (by decide) l.number⟩

theorem tail_inj {l l' : MadeLabel} (h : l.tail = l'.tail) :
    l.mark.word = l'.mark.word ∧ l.number = l'.number := by
  obtain ⟨owner, mark, number⟩ := l
  obtain ⟨owner', mark', number'⟩ := l'
  -- The words begin with different letters, and equal words can be cancelled.
  cases mark <;> cases mark' <;> simp [tail, Mark.word] at h ⊢ <;>
    exact toString_inj (String.toList_injective h)

theorem upper_inj {o o' : Operator} (h : o.mnemonic.toUpper = o'.mnemonic.toUpper) : o = o' := by
  have hall : ∀ o ∈ Operator.all, ∀ o' ∈ Operator.all,
      o.mnemonic.toUpper = o'.mnemonic.toUpper → o = o' := by
    decide +kernel
  exact hall o (Operator.mem_all o) o' (Operator.mem_all o') h

theorem not_mem_upper (o : Operator) : '$' ∉ o.mnemonic.toUpper.toList := by
  have hall : ∀ o ∈ Operator.all, '$' ∉ o.mnemonic.toUpper.toList := by
    decide +kernel
  exact hall o (Operator.mem_all o)

/-- A made label says what it is for. -/
theorem symbol_inj {l l' : MadeLabel} (h : l.symbol = l'.symbol) : l = l' := by
  have hparts := congrArg String.toList h
  rw [toList_symbol, toList_symbol] at hparts
  obtain ⟨hstem, htail⟩ := separated_inj l.not_mem_tail l'.not_mem_tail hparts
  obtain ⟨hword, hnumber⟩ := tail_inj htail
  obtain ⟨owner, mark, number⟩ := l
  obtain ⟨owner', mark', number'⟩ := l'
  have hcompared : ∀ o o' : Operator, owner.toList ++ '$' :: o.mnemonic.toUpper.toList =
      owner'.toList ++ '$' :: o'.mnemonic.toUpper.toList → owner = owner' ∧ o = o' := by
    intro o o' heq
    obtain ⟨howner, hop⟩ := separated_inj (not_mem_upper o) (not_mem_upper o') heq
    exact ⟨String.toList_injective howner, upper_inj (String.toList_injective hop)⟩
  cases hnumber
  cases mark with
  | back =>
    cases mark' with
    | back =>
      cases String.toList_injective hstem
      rfl
    | _ => simp [Mark.word] at hword
  | whenTrue o =>
    cases mark' with
    | whenTrue o' =>
      obtain ⟨rfl, rfl⟩ := hcompared o o' hstem
      rfl
    | _ => simp [Mark.word] at hword
  | whenDone o =>
    cases mark' with
    | whenDone o' =>
      obtain ⟨rfl, rfl⟩ := hcompared o o' hstem
      rfl
    | _ => simp [Mark.word] at hword

/-- Every made label has a dollar sign in it. -/
theorem mem_symbol (l : MadeLabel) : '$' ∈ l.symbol.toList := by
  rw [toList_symbol]
  exact List.mem_append_right _ List.mem_cons_self

end MadeLabel

end VmToHack
