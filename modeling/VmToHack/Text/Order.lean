set_option autoImplicit false

/-!
# Text: order

Texts in the order of their code points.
-/

namespace VmToHack.Text

/-- Puts a text in front of the first one that does not come before it. -/
def insertText (text : String) : List String → List String
  | [] => [text]
  | first :: rest =>
    if first < text then first :: insertText text rest else text :: first :: rest

/-- Sorts texts by code point. -/
def sortTexts : List String → List String
  | [] => []
  | text :: texts => insertText text (sortTexts texts)

theorem insertText_perm (text : String) (texts : List String) :
    (insertText text texts).Perm (text :: texts) := by
  induction texts with
  | nil => exact .refl _
  | cons first rest ih =>
    rw [insertText]
    split
    · exact (ih.cons first).trans (.swap ..)
    · exact .refl _

/-- Sorting neither loses nor adds a text. -/
theorem sortTexts_perm (texts : List String) : (sortTexts texts).Perm texts := by
  induction texts with
  | nil => exact .refl _
  | cons text texts ih => exact (insertText_perm text _).trans (ih.cons text)

theorem lt_of_not_lt {a b : String} (h : ¬ a < b) (hne : a ≠ b) : b < a := by
  refine Decidable.byContradiction fun hlt => hne ?_
  exact String.le_antisymm (String.not_lt.mp hlt) (String.not_lt.mp h)

theorem pairwise_insertText {text : String} {texts : List String}
    (h : texts.Pairwise fun a b => a < b) (hnew : text ∉ texts) :
    (insertText text texts).Pairwise fun a b => a < b := by
  induction texts with
  | nil => exact List.pairwise_singleton _ _
  | cons first rest ih =>
    obtain ⟨hfirst, hrest⟩ := List.pairwise_cons.mp h
    simp only [List.mem_cons, not_or] at hnew
    rw [insertText]
    split
    · next hlt =>
      refine List.pairwise_cons.mpr ⟨fun other hother => ?_, ih hrest hnew.2⟩
      rcases List.mem_cons.mp ((insertText_perm text rest).mem_iff.mp hother) with rfl | hmem
      · exact hlt
      · exact hfirst other hmem
    · next hlt =>
      have hbefore : text < first := lt_of_not_lt hlt (Ne.symm hnew.1)
      refine List.pairwise_cons.mpr ⟨fun other hother => ?_, h⟩
      rcases List.mem_cons.mp hother with rfl | hmem
      · exact hbefore
      · exact String.lt_trans hbefore (hfirst other hmem)

/-- Different texts come out in the order of their code points. -/
theorem pairwise_sortTexts {texts : List String} (h : texts.Nodup) :
    (sortTexts texts).Pairwise fun a b => a < b := by
  induction texts with
  | nil => exact .nil
  | cons text texts ih =>
    obtain ⟨hnew, hrest⟩ := List.nodup_cons.mp h
    exact pairwise_insertText (ih hrest) fun hmem => hnew ((sortTexts_perm texts).mem_iff.mp hmem)

end VmToHack.Text
