set_option autoImplicit false

/-!
# Text: white space

The characters that separate words in the sense of Unicode, and the three
operations that depend on them: cutting white space off the end of a text, off
both ends, and finding the first word.

The blanks of a VM line are a much smaller class (space and tab); they belong to
`Grammar.Terminal`.  The wide class of this module decides only what a diagnostic
shows and where it points.
-/

namespace VmToHack.Text

/-- The white space of Unicode, with the four information separators counted in. -/
def isSpace (c : Char) : Bool :=
  let n := c.toNat
  (0x09 ≤ n && n ≤ 0x0D) || (0x1C ≤ n && n ≤ 0x20) || n == 0x85 || n == 0xA0 ||
    n == 0x1680 || (0x2000 ≤ n && n ≤ 0x200A) || n == 0x2028 || n == 0x2029 ||
    n == 0x202F || n == 0x205F || n == 0x3000

/-- The text without the white space at its end. -/
def trimEnd (cs : List Char) : List Char := (cs.reverse.dropWhile isSpace).reverse

/-- The text without the white space at its two ends. -/
def trim (cs : List Char) : List Char := trimEnd (cs.dropWhile isSpace)

/-- The first run of characters that are not white space, if there is one. -/
def firstWord? (cs : List Char) : Option (List Char) :=
  match (cs.dropWhile isSpace).takeWhile (fun c => !isSpace c) with
  | [] => none
  | word => some word

theorem firstWord?_cons_of_isSpace {c : Char} (hc : isSpace c = true) (cs : List Char) :
    firstWord? (c :: cs) = firstWord? cs := by
  unfold firstWord?
  rw [List.dropWhile_cons_of_pos hc]

theorem firstWord?_cons_of_not_isSpace {c : Char} (hc : isSpace c = false) (cs : List Char) :
    firstWord? (c :: cs) = some (c :: cs.takeWhile fun x => !isSpace x) := by
  have hdrop : (c :: cs).dropWhile isSpace = c :: cs := List.dropWhile_cons_of_neg (by simp [hc])
  have hword : (c :: cs).takeWhile (fun x => !isSpace x) = c :: cs.takeWhile fun x => !isSpace x :=
    List.takeWhile_cons_of_pos (by simp [hc])
  unfold firstWord?
  rw [hdrop, hword]

theorem firstWord?_eq_none_iff {cs : List Char} :
    firstWord? cs = none ↔ ∀ c ∈ cs, isSpace c = true := by
  induction cs with
  | nil => exact iff_of_true rfl nofun
  | cons c cs ih =>
    cases hc : isSpace c with
    | true => rw [firstWord?_cons_of_isSpace hc, ih, List.forall_mem_cons, and_iff_right hc]
    | false => simp [firstWord?_cons_of_not_isSpace hc, hc]

/-- A word does not begin with white space. -/
theorem exists_cons_of_firstWord? {cs word : List Char} (h : firstWord? cs = some word) :
    ∃ c more, word = c :: more ∧ isSpace c = false := by
  induction cs with
  | nil => cases h
  | cons c cs ih =>
    cases hc : isSpace c with
    | true =>
      rw [firstWord?_cons_of_isSpace hc] at h
      exact ih h
    | false =>
      rw [firstWord?_cons_of_not_isSpace hc] at h
      exact ⟨c, _, (Option.some.inj h).symm, hc⟩

end VmToHack.Text
