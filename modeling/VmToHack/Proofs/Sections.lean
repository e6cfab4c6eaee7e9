import VmToHack.Proofs.MadeLabels
set_option autoImplicit false

/-!
# Sections: the commands of one function

The functions divide the commands of a unit into sections: what stands in front of the
first one, and what follows each up to the next.  Within a section the scope of labels is
one, and the numbers of made labels count up from where they are, so that what a section
makes can be said outright: a return label for each call and two labels for each comparison,
numbered in order.
-/

namespace VmToHack

open VmToHack.Hack

/-! ## Sections -/

/-- The commands in front of the first function. -/
def topLevel (cs : List Command) : List Command := cs.takeWhile fun c => c.function?.isNone

/-- The commands of a function, up to the next one. -/
def bodyOf (f : String) : List Command → List Command
  | [] => []
  | c :: cs => if c.function? = some f then topLevel cs else bodyOf f cs

/-- The label that a command defines. -/
def Command.label? : Command → Option String
  | .label name => some name
  | _ => none

/-- The labels that some commands define, in order. -/
def ownLabels (cs : List Command) : List String := cs.filterMap Command.label?

/-- A command that makes a return label. -/
def Command.isCall : Command → Bool
  | .call _ _ => true
  | _ => false

/-- How many calls there are among some commands. -/
def callCount (cs : List Command) : Nat := cs.countP Command.isCall

/-- The operators with which some commands compare, in order. -/
def comparisonsOf (cs : List Command) : List Operator := cs.filterMap Command.comparison?

theorem topLevel_cons_of_none {c : Command} {cs : List Command} (h : c.function? = none) :
    topLevel (c :: cs) = c :: topLevel cs := by
  unfold topLevel
  rw [List.takeWhile_cons, h]
  rfl

theorem topLevel_cons_of_some {c : Command} {cs : List Command} {f : String}
    (h : c.function? = some f) : topLevel (c :: cs) = [] := by
  unfold topLevel
  rw [List.takeWhile_cons, h]
  rfl

theorem bodyOf_cons_of_none {c : Command} {cs : List Command} (h : c.function? = none)
    (f : String) : bodyOf f (c :: cs) = bodyOf f cs := by
  rw [bodyOf, h, if_neg (by simp)]

theorem bodyOf_cons_self {c : Command} {cs : List Command} {f : String}
    (h : c.function? = some f) : bodyOf f (c :: cs) = topLevel cs := by
  rw [bodyOf, if_pos h]

theorem bodyOf_cons_of_ne {c : Command} {cs : List Command} {f g : String}
    (h : c.function? = some f) (hne : g ≠ f) : bodyOf g (c :: cs) = bodyOf g cs := by
  rw [bodyOf, h, if_neg (by simpa using hne.symm)]

/-- No function begins in front of the first one. -/
theorem functionNames_topLevel (cs : List Command) : functionNames (topLevel cs) = [] := by
  induction cs with
  | nil => rfl
  | cons c cs ih =>
    cases hf : c.function? with
    | none => rw [topLevel_cons_of_none hf, functionNames_cons_of_none hf, ih]
    | some f => rw [topLevel_cons_of_some hf, functionNames, List.filterMap_nil]

theorem functionNames_bodyOf (f : String) (cs : List Command) :
    functionNames (bodyOf f cs) = [] := by
  induction cs with
  | nil => rfl
  | cons c cs ih =>
    rw [bodyOf]
    split
    · exact functionNames_topLevel cs
    · exact ih

/-- What the sites of some commands have, section by section, if a function's start itself
has nothing. -/
theorem flatMap_sites {α : Type} {F : Site → List α}
    (hF : ∀ n c f, c.function? = some f → F ⟨n, c⟩ = []) {n : Naming} {cs : List Command}
    (hnodup : (functionNames cs).Nodup) :
    (sites n cs).flatMap F = (sites n (topLevel cs)).flatMap F ++
      (functionNames cs).flatMap fun f => (sites (n.enter f) (bodyOf f cs)).flatMap F := by
  induction cs generalizing n with
  | nil => rfl
  | cons c cs ih =>
    cases hf : c.function? with
    | none =>
      have henter : ∀ g, (n.after c).enter g = n.enter g := by
        intro g
        rw [Naming.enter, unit_after, Naming.enter]
      rw [functionNames_cons_of_none hf] at hnodup ⊢
      rw [topLevel_cons_of_none hf, sites_cons, sites_cons, List.flatMap_cons, List.flatMap_cons,
        ih hnodup, List.append_assoc]
      simp only [henter, bodyOf_cons_of_none hf]
    | some f =>
      rw [functionNames_cons_of_some hf] at hnodup ⊢
      obtain ⟨hmem, hnodup⟩ := List.nodup_cons.mp hnodup
      have hlater : (functionNames cs).flatMap
            (fun g => (sites (n.enter g) (bodyOf g (c :: cs))).flatMap F) =
          (functionNames cs).flatMap fun g => (sites (n.enter g) (bodyOf g cs)).flatMap F := by
        apply List.flatMap_congr
        intro g hg
        have hne : g ≠ f := by
          rintro rfl
          exact hmem hg
        rw [bodyOf_cons_of_ne hf hne]
      rw [topLevel_cons_of_some hf, sites_cons, List.flatMap_cons, hF n c f hf,
        after_of_function? n hf, ih hnodup, List.flatMap_cons, bodyOf_cons_self hf, hlater]
      rfl

theorem bodyOf_eq_nil {f : String} {cs : List Command} (h : f ∉ functionNames cs) :
    bodyOf f cs = [] := by
  induction cs with
  | nil => rfl
  | cons c cs ih =>
    cases hf : c.function? with
    | none =>
      rw [functionNames_cons_of_none hf] at h
      rw [bodyOf_cons_of_none hf, ih h]
    | some g =>
      rw [functionNames_cons_of_some hf, List.mem_cons, not_or] at h
      rw [bodyOf_cons_of_ne hf h.1, ih h.2]

theorem topLevel_subset (cs : List Command) : topLevel cs ⊆ cs := List.takeWhile_subset _

theorem bodyOf_subset (f : String) (cs : List Command) : bodyOf f cs ⊆ cs := by
  induction cs with
  | nil => exact fun c hc => hc
  | cons c cs ih =>
    rw [bodyOf]
    split
    · exact List.Subset.trans (topLevel_subset cs) (List.subset_cons_self c cs)
    · exact List.Subset.trans ih (List.subset_cons_self c cs)

/-! ## The numbers of made labels -/

/-- The operator of the comparison that a mark is for. -/
def Mark.comparison? : Mark → Option Operator
  | .back => none
  | .whenTrue o => some o
  | .whenDone o => some o

theorem marks_arithmetic_eq (op : String) :
    (Command.arithmetic op).marks =
      match (Command.arithmetic op).comparison? with
      | some o => [.whenTrue o, .whenDone o]
      | none => [] := rfl

theorem back_mem_marks (c : Command) : Mark.back ∈ c.marks ↔ c.isCall = true := by
  cases c with
  | arithmetic op =>
    rw [marks_arithmetic_eq]
    cases (Command.arithmetic op).comparison? <;> simp [Command.isCall]
  | _ => simp [Command.marks, Command.comparison?, Command.isCall]

theorem mem_marks_iff {mark : Mark} {o : Operator} (h : mark.comparison? = some o) (c : Command) :
    mark ∈ c.marks ↔ c.comparison? = some o := by
  have hback : mark ≠ .back := by
    rintro rfl
    cases h
  cases c with
  | arithmetic op =>
    rw [marks_arithmetic_eq]
    cases (Command.arithmetic op).comparison? with
    | none => simp
    | some o' =>
      cases mark with
      | back => exact absurd rfl hback
      | _ =>
        cases h
        simp [eq_comm]
  | _ => simp [Command.marks, Command.comparison?, hback]

theorem mem_map_label {n : Naming} {marks : List Mark} {l : MadeLabel} :
    l ∈ marks.map n.label ↔ l.mark ∈ marks ∧ l.owner = n.owner ∧ l.number = n.next l.mark := by
  constructor
  · intro h
    obtain ⟨mark, hmark, rfl⟩ := List.mem_map.mp h
    exact ⟨hmark, rfl, rfl⟩
  · rintro ⟨hmark, howner, hnumber⟩
    refine List.mem_map.mpr ⟨l.mark, hmark, ?_⟩
    unfold Naming.label
    rw [← howner, ← hnumber]

theorem calls_after {n : Naming} {c : Command} (h : c.function? = none) :
    (n.after c).calls = n.calls + if c.isCall then 1 else 0 := by
  cases c with
  | function name locals => cases h
  | arithmetic op =>
    simp only [Naming.after]
    split <;> exact (Int.add_zero n.calls).symm
  | call name args => rfl
  | _ => exact (Int.add_zero n.calls).symm

theorem comparisons_after {n : Naming} {c : Command} (h : c.function? = none) :
    (n.after c).comparisons = n.comparisons + if c.comparison?.isSome then 1 else 0 := by
  cases c with
  | function name locals => cases h
  | arithmetic op =>
    simp only [Naming.after]
    split
    · rfl
    · exact (Int.add_zero n.comparisons).symm
  | _ => exact (Int.add_zero n.comparisons).symm

theorem callCount_cons (c : Command) (cs : List Command) :
    callCount (c :: cs) = callCount cs + if c.isCall then 1 else 0 := List.countP_cons

/-- Where no function begins, the calls are numbered in order. -/
theorem back_mem_madeFrom {n : Naming} {cs : List Command} (h : functionNames cs = [])
    (owner : String) (k : Int) :
    ⟨owner, .back, k⟩ ∈ madeFrom n cs ↔
      owner = n.owner ∧ n.calls ≤ k ∧ k < n.calls + callCount cs := by
  induction cs generalizing n with
  | nil =>
    have hnone : callCount [] = 0 := rfl
    simp only [madeFrom, sites, List.flatMap_nil, List.not_mem_nil, hnone, false_iff]
    omega
  | cons c cs ih =>
    have hf : c.function? = none := List.filterMap_eq_nil_iff.mp h c List.mem_cons_self
    rw [functionNames_cons_of_none hf] at h
    rw [madeFrom_cons, List.mem_append, mem_map_label, back_mem_marks, ih h, owner_after hf,
      calls_after hf, callCount_cons]
    cases hc : c.isCall with
    | false => simp
    | true =>
      simp only [Naming.next, if_true, true_and]
      push_cast
      constructor
      · rintro (⟨howner, hk⟩ | ⟨howner, hge, hlt⟩)
        · exact ⟨howner, by omega, by omega⟩
        · exact ⟨howner, by omega, by omega⟩
      · rintro ⟨howner, hge, hlt⟩
        rcases Int.le_iff_eq_or_lt.mp hge with heq | hgt
        · exact .inl ⟨howner, heq.symm⟩
        · exact .inr ⟨howner, by omega, by omega⟩

/-- Where no function begins, the comparisons are numbered in order. -/
theorem compared_mem_madeFrom {n : Naming} {cs : List Command} (h : functionNames cs = [])
    {l : MadeLabel} {o : Operator} (hmark : l.mark.comparison? = some o) :
    l ∈ madeFrom n cs ↔ l.owner = n.owner ∧
      ∃ i : Nat, (comparisonsOf cs)[i]? = some o ∧ l.number = n.comparisons + i := by
  induction cs generalizing n with
  | nil => simp [madeFrom, sites, comparisonsOf]
  | cons c cs ih =>
    have hf : c.function? = none := List.filterMap_eq_nil_iff.mp h c List.mem_cons_self
    have hnext : n.next l.mark = n.comparisons := by
      cases hm : l.mark with
      | back =>
        rw [hm] at hmark
        cases hmark
      | _ => rfl
    rw [functionNames_cons_of_none hf] at h
    rw [madeFrom_cons, List.mem_append, mem_map_label, mem_marks_iff hmark, ih h, owner_after hf,
      comparisons_after hf, hnext]
    unfold comparisonsOf
    cases hc : c.comparison? with
    | none =>
      rw [List.filterMap_cons_none hc]
      simp
    | some o' =>
      rw [List.filterMap_cons_some hc]
      constructor
      · rintro (⟨heq, howner, hnumber⟩ | ⟨howner, i, hi, hnumber⟩)
        · exact ⟨howner, 0, heq, by omega⟩
        · refine ⟨howner, i + 1, hi, ?_⟩
          simp only [Option.isSome_some, if_true] at hnumber
          omega
      · rintro ⟨howner, i, hi, hnumber⟩
        cases i with
        | zero => exact .inl ⟨hi, howner, by omega⟩
        | succ i =>
          refine .inr ⟨howner, i, hi, ?_⟩
          simp only [Option.isSome_some, if_true]
          omega

theorem owner_of_mem_madeFrom {n : Naming} {cs : List Command} (h : functionNames cs = [])
    {l : MadeLabel} (hmem : l ∈ madeFrom n cs) : l.owner = n.owner := by
  have hne : "" ∉ functionNames cs := by simp [h]
  rcases mayMake_of_mem hne hmem with ⟨howner, -⟩ | ⟨howner, -⟩
  · exact howner
  · rw [h] at howner
    cases howner

theorem nodup_madeFrom_section (n : Naming) {cs : List Command} (h : functionNames cs = []) :
    (madeFrom n cs).Nodup := by
  refine nodup_madeFrom ?_ ?_ ?_ <;> rw [h]
  · exact List.nodup_nil
  · exact List.not_mem_nil
  · exact List.not_mem_nil

end VmToHack
