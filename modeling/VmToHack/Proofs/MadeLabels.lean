import Mathlib.Data.List.Nodup
import Mathlib.Data.List.Perm.Basic
import VmToHack.Proofs.Correspondence
import VmToHack.Proofs.Names
import VmToHack.Proofs.Reading
set_option autoImplicit false

/-!
# Made labels: no two are the same

The numbers of made labels start again in every function, so a label is told apart by
its owner and its number together.  The invariant is about what is still to come: every
label that is made later either belongs to the owner of now and has a number that has
not been used, or belongs to a function that is still to come.

The block that starts a program makes the one label with the number zero.
-/

namespace VmToHack

open VmToHack.Hack

/-! ## Labels in lines -/

/-- The name that a line defines, if it is a label. -/
def Hack.Line.label? : Line → Option String
  | .label name => some name
  | _ => none

/-- The labels that some lines define, in order. -/
def labelNames (lines : List Line) : List String := lines.filterMap Line.label?

theorem labelNames_append (lines lines' : List Line) :
    labelNames (lines ++ lines') = labelNames lines ++ labelNames lines' := List.filterMap_append

theorem labelNames_flatMap {α : Type} (f : α → List Line) (xs : List α) :
    labelNames (xs.flatMap f) = xs.flatMap fun x => labelNames (f x) := List.filterMap_flatMap

/-- These are the names that the assembler finds. -/
theorem map_fst_labels (start : Nat) (lines : List Line) :
    (labels start lines).map Prod.fst = labelNames lines := by
  induction lines generalizing start with
  | nil => rfl
  | cons line lines ih =>
    cases line with
    | label name =>
      rw [labels, List.map_cons, ih]
      rfl
    | comment text => exact ih start
    | _ => exact ih (start + 1)

/-! ## The labels that a command makes -/

/-- The marks of the labels that a command makes. -/
def Command.marks (c : Command) : List Mark :=
  match c with
  | .call _ _ => [.back]
  | c =>
    match c.comparison? with
    | some o => [.whenTrue o, .whenDone o]
    | none => []

/-- The number of the next label with a mark. -/
def Naming.next (n : Naming) : Mark → Int
  | .back => n.calls
  | _ => n.comparisons

/-- The next label with a mark. -/
def Naming.label (n : Naming) (mark : Mark) : MadeLabel := ⟨n.owner, mark, n.next mark⟩

/-- The labels that a site makes. -/
def Site.made (s : Site) : List MadeLabel := s.command.marks.map s.naming.label

/-- The labels that an item makes. -/
def Item.made : Item → List MadeLabel
  | .bootstrap => [bootstrapNaming.label .back]
  | .site s => s.made

/-- The labels that an item defines without having been given their names. -/
def Item.generated (item : Item) : List String :=
  if item.slot.names?.isSome then [] else labelNames item.lines

theorem labelNames_operator (o : Operator) (n : Naming) :
    labelNames (o.code n).1 =
      if o.compares then [(n.label (.whenTrue o)).symbol, (n.label (.whenDone o)).symbol]
      else [] := by
  cases o <;> rfl

theorem labelNames_pushCode (p : Place) : labelNames p.pushCode = [] := by cases p <;> rfl

theorem labelNames_popCode {p : Place} {code : List Line} (h : p.popCode = .ok code) :
    labelNames code = [] := by
  cases p with
  | literal k => cases h
  | _ =>
    cases h
    rfl

theorem marks_arithmetic {op : String} {o : Operator} (ho : Operator.ofMnemonic? op = some o) :
    (Command.arithmetic op).marks = if o.compares then [.whenTrue o, .whenDone o] else [] := by
  cases hcompares : o.compares <;> simp [Command.marks, Command.comparison?, ho, Option.filter,
    hcompares]

/-- What an item defines without having been given names are the labels that it makes. -/
theorem generated_eq (item : Item) : item.generated = item.made.map MadeLabel.symbol := by
  cases item with
  | bootstrap => rfl
  | site s =>
    obtain ⟨n, c⟩ := s
    show (if (Item.site ⟨n, c⟩).slot.names?.isSome then []
      else labelNames (c.block n).lines) = (c.marks.map n.label).map MadeLabel.symbol
    cases hc : c.code n with
    | error r =>
      rw [block_of_error hc]
      cases c with
      | arithmetic op =>
        cases ho : Operator.ofMnemonic? op with
        | none => simp [Item.slot, Slot.names?, Command.marks, Command.comparison?, ho, labelNames,
            Line.label?]
        | some o =>
          rw [Command.code, ho] at hc
          cases hc
      | call name args => cases hc
      | function name locals => cases hc
      | label name => cases hc
      | _ => rfl
    | ok p =>
      obtain ⟨code, n'⟩ := p
      rw [block_of_code hc]
      show (if (Item.site ⟨n, c⟩).slot.names?.isSome then [] else labelNames code) = _
      cases c with
      | arithmetic op =>
        obtain ⟨o, ho, hcode⟩ := code_arithmetic_eq_ok hc
        have hlabels := labelNames_operator o n
        rw [hcode] at hlabels
        show labelNames code = ((Command.arithmetic op).marks.map n.label).map MadeLabel.symbol
        rw [hlabels, marks_arithmetic ho]
        split <;> rfl
      | push segment index =>
        obtain ⟨p, -, rfl, -⟩ := code_push_eq_ok hc
        exact labelNames_pushCode p
      | pop segment index =>
        obtain ⟨p, -, hpop, -⟩ := code_pop_eq_ok hc
        exact labelNames_popCode hpop
      | other name => cases hc
      | _ =>
        cases hc
        rfl

/-! ## Functions -/

/-- The function that a command begins. -/
def Command.function? : Command → Option String
  | .function name _ => some name
  | _ => none

/-- The functions that some commands begin, in order. -/
def functionNames (cs : List Command) : List String := cs.filterMap Command.function?

theorem functionNames_cons_of_none {c : Command} {cs : List Command} (h : c.function? = none) :
    functionNames (c :: cs) = functionNames cs := List.filterMap_cons_none h

theorem functionNames_cons_of_some {c : Command} {cs : List Command} {f : String}
    (h : c.function? = some f) : functionNames (c :: cs) = f :: functionNames cs :=
  List.filterMap_cons_some h

theorem function_ne_empty {c : Command} {f : String} (hc : c.Symbolic)
    (h : c.function? = some f) : f ≠ "" := by
  cases c with
  | function name locals =>
    cases h
    rintro rfl
    exact (hc "" rfl).ne_nil rfl
  | _ => cases h

theorem functionName_ne_empty {cs : List Command} (hsymbolic : ∀ c ∈ cs, c.Symbolic) :
    "" ∉ functionNames cs := by
  intro hmem
  obtain ⟨c, hc, hf⟩ := List.mem_filterMap.mp hmem
  exact function_ne_empty (hsymbolic c hc) hf rfl

theorem after_of_function? (n : Naming) {c : Command} {f : String} (h : c.function? = some f) :
    n.after c = n.enter f := by
  cases c with
  | function name locals =>
    cases h
    rfl
  | _ => cases h

theorem function_after_of_none {n : Naming} {c : Command} (h : c.function? = none) :
    (n.after c).function = n.function := by
  rw [function_after]
  cases c with
  | function name locals => cases h
  | _ => rfl

theorem owner_after {n : Naming} {c : Command} (h : c.function? = none) :
    (n.after c).owner = n.owner := by
  unfold Naming.owner
  rw [unit_after, function_after_of_none h]

theorem owner_enter {f : String} (n : Naming) (h : f ≠ "") : (n.enter f).owner = f := if_neg h

/-- Outside a function's start no number goes back. -/
theorem next_le_after {n : Naming} {c : Command} (h : c.function? = none) (mark : Mark) :
    n.next mark ≤ (n.after c).next mark := by
  have hcalls : n.next mark ≤ n.afterCall.next mark := by
    cases mark <;> simp only [Naming.next, Naming.afterCall] <;> omega
  have hcomparisons : n.next mark ≤ n.afterComparison.next mark := by
    cases mark <;> simp only [Naming.next, Naming.afterComparison] <;> omega
  cases c with
  | function name locals => cases h
  | call name args => exact hcalls
  | arithmetic op =>
    simp only [Naming.after]
    split
    · exact hcomparisons
    · exact Int.le_refl _
  | _ => exact Int.le_refl _

/-- The number of a label that is made is used up. -/
theorem next_lt_after {n : Naming} {c : Command} {mark : Mark} (h : mark ∈ c.marks) :
    n.next mark < (n.after c).next mark := by
  cases c with
  | arithmetic op =>
    cases hc : (Command.arithmetic op).comparison? with
    | none => simp [Command.marks, hc] at h
    | some o =>
      have hafter : n.after (.arithmetic op) = n.afterComparison := by simp [Naming.after, hc]
      simp only [Command.marks, hc, List.mem_cons, List.not_mem_nil, or_false] at h
      rw [hafter]
      rcases h with rfl | rfl <;> exact Int.lt_succ n.comparisons
  | call name args =>
    obtain rfl := List.mem_singleton.mp h
    exact Int.lt_succ n.calls
  | _ => cases h

theorem nodup_marks (c : Command) : c.marks.Nodup := by
  cases c with
  | arithmetic op =>
    cases hc : (Command.arithmetic op).comparison? with
    | none => simp [Command.marks, hc]
    | some o => simp [Command.marks, hc]
  | _ => simp [Command.marks, Command.comparison?]

/-! ## The labels of a unit -/

/-- The labels that some commands make. -/
def madeFrom (n : Naming) (cs : List Command) : List MadeLabel := (sites n cs).flatMap Site.made

theorem sites_cons (n : Naming) (c : Command) (cs : List Command) :
    sites n (c :: cs) = ⟨n, c⟩ :: sites (n.after c) cs := by rw [sites, naming_block]

theorem madeFrom_cons (n : Naming) (c : Command) (cs : List Command) :
    madeFrom n (c :: cs) = c.marks.map n.label ++ madeFrom (n.after c) cs := by
  unfold madeFrom
  rw [sites_cons, List.flatMap_cons]
  rfl

/-- The invariant: what a label may be that is still to be made. -/
def Naming.MayMake (n : Naming) (cs : List Command) (l : MadeLabel) : Prop :=
  l.owner = n.owner ∧ n.next l.mark ≤ l.number ∨ l.owner ∈ functionNames cs ∧ 1 ≤ l.number

theorem mayMake_of_after {n : Naming} {c : Command} {cs : List Command} {l : MadeLabel}
    (hne : "" ∉ functionNames (c :: cs)) (h : (n.after c).MayMake cs l) :
    n.MayMake (c :: cs) l := by
  cases hf : c.function? with
  | none =>
    unfold Naming.MayMake
    rw [functionNames_cons_of_none hf]
    rcases h with ⟨howner, hnumber⟩ | hlater
    · rw [owner_after hf] at howner
      exact .inl ⟨howner, Int.le_trans (next_le_after hf l.mark) hnumber⟩
    · exact .inr hlater
  | some f =>
    unfold Naming.MayMake
    rw [functionNames_cons_of_some hf] at hne ⊢
    rw [List.mem_cons, not_or] at hne
    rw [after_of_function? n hf] at h
    rcases h with ⟨howner, hnumber⟩ | ⟨howner, hnumber⟩
    · rw [owner_enter n (Ne.symm hne.1)] at howner
      have hone : (n.enter f).next l.mark = 1 := by cases l.mark <;> rfl
      rw [hone] at hnumber
      exact .inr ⟨by rw [howner]; exact List.mem_cons_self, hnumber⟩
    · exact .inr ⟨List.mem_cons_of_mem f howner, hnumber⟩

theorem mayMake_of_mem {n : Naming} {cs : List Command} {l : MadeLabel}
    (hne : "" ∉ functionNames cs) (h : l ∈ madeFrom n cs) : n.MayMake cs l := by
  induction cs generalizing n with
  | nil => cases h
  | cons c cs ih =>
    rw [madeFrom_cons, List.mem_append] at h
    rcases h with hnow | hlater
    · obtain ⟨mark, hmark, rfl⟩ := List.mem_map.mp hnow
      exact .inl ⟨rfl, Int.le_refl _⟩
    · have hne' : "" ∉ functionNames cs := fun hmem =>
        hne ((List.Sublist.filterMap _ (List.sublist_cons_self c cs)).subset hmem)
      exact mayMake_of_after hne (ih hne' hlater)

theorem nodup_madeFrom {n : Naming} {cs : List Command} (hnodup : (functionNames cs).Nodup)
    (hne : "" ∉ functionNames cs) (howner : n.owner ∉ functionNames cs) :
    (madeFrom n cs).Nodup := by
  induction cs generalizing n with
  | nil => exact List.nodup_nil
  | cons c cs ih =>
    have hsub : functionNames cs ⊆ functionNames (c :: cs) :=
      (List.Sublist.filterMap _ (List.sublist_cons_self c cs)).subset
    have hnodup' : (functionNames cs).Nodup :=
      hnodup.sublist (List.Sublist.filterMap _ (List.sublist_cons_self c cs))
    have hne' : "" ∉ functionNames cs := fun hmem => hne (hsub hmem)
    have howner' : (n.after c).owner ∉ functionNames cs := by
      cases hf : c.function? with
      | none =>
        rw [owner_after hf]
        exact fun hmem => howner (hsub hmem)
      | some f =>
        rw [functionNames_cons_of_some hf] at hnodup hne
        rw [List.mem_cons, not_or] at hne
        rw [after_of_function? n hf, owner_enter n (Ne.symm hne.1)]
        exact (List.nodup_cons.mp hnodup).1
    have hlabel : Function.Injective n.label :=
      fun mark mark' heq => congrArg MadeLabel.mark heq
    rw [madeFrom_cons, List.nodup_append]
    refine ⟨List.Nodup.map hlabel (nodup_marks c), ih hnodup' hne' howner', ?_⟩
    rintro l hnow l' hlater rfl
    obtain ⟨mark, hmark, rfl⟩ := List.mem_map.mp hnow
    have hf : c.function? = none := by
      cases c with
      | function name locals => cases hmark
      | _ => rfl
    rcases mayMake_of_mem hne' hlater with ⟨-, hnumber⟩ | ⟨hmem, -⟩
    · have hlt := next_lt_after (n := n) hmark
      have hle : (n.after c).next mark ≤ n.next mark := hnumber
      omega
    · exact howner (hsub hmem)

namespace SourceUnit

/-- The labels that a unit makes. -/
def made (u : SourceUnit) : List MadeLabel := madeFrom { unit := u.name } u.commands

/-- The names of a unit and of its functions, which own the labels that it makes. -/
def owners (u : SourceUnit) : List String := u.name :: functionNames u.commands

theorem owner_mem_of_mem_made {u : SourceUnit} (hne : "" ∉ functionNames u.commands)
    {l : MadeLabel} (h : l ∈ u.made) : l.owner ∈ u.owners ∧ 1 ≤ l.number := by
  rcases mayMake_of_mem hne h with ⟨howner, hnumber⟩ | ⟨howner, hnumber⟩
  · have hone : Naming.next { unit := u.name } l.mark = 1 := by cases l.mark <;> rfl
    have hunit : Naming.owner { unit := u.name } = u.name := rfl
    rw [hone] at hnumber
    rw [howner, hunit]
    exact ⟨List.mem_cons_self, hnumber⟩
  · exact ⟨List.mem_cons_of_mem _ howner, hnumber⟩

theorem nodup_made {u : SourceUnit} (hne : "" ∉ functionNames u.commands)
    (howners : u.owners.Nodup) : u.made.Nodup := by
  obtain ⟨hname, hnodup⟩ := List.nodup_cons.mp howners
  exact nodup_madeFrom hnodup hne hname

end SourceUnit

/-! ## Whole programs -/

section Program

variable {bootstrap : Bool} {units : List SourceUnit}

theorem flatMap_made (bootstrap : Bool) (units : List SourceUnit) :
    (items bootstrap units).flatMap Item.made =
      (if bootstrap then [bootstrapNaming.label .back] else []) ++
        units.flatMap SourceUnit.made := by
  have hunit : ∀ u : SourceUnit, (u.sites.map Item.site).flatMap Item.made = u.made := by
    intro u
    rw [List.flatMap_map]
    rfl
  unfold items
  rw [List.flatMap_append, List.flatMap_assoc]
  simp only [hunit]
  cases bootstrap <;> rfl

theorem nodup_flatMap_made (hne : ∀ u ∈ units, "" ∉ functionNames u.commands)
    (hnames : (units.map SourceUnit.name ++
      units.flatMap fun u => functionNames u.commands).Nodup) :
    ((items bootstrap units).flatMap Item.made).Nodup := by
  have howners : (units.flatMap SourceUnit.owners).Nodup :=
    (List.map_append_flatMap_perm units SourceUnit.name _).nodup_iff.mp hnames
  obtain ⟨hunits, hdisjoint⟩ := List.nodup_flatMap.mp howners
  have hmade : (units.flatMap SourceUnit.made).Nodup := by
    rw [List.nodup_flatMap]
    refine ⟨fun u hu => SourceUnit.nodup_made (hne u hu) (hunits u hu), ?_⟩
    apply hdisjoint.imp_of_mem
    intro u u' hu hu' hdisj l hl hl'
    exact hdisj (SourceUnit.owner_mem_of_mem_made (hne u hu) hl).1
      (SourceUnit.owner_mem_of_mem_made (hne u' hu') hl').1
  rw [flatMap_made, List.nodup_append]
  refine ⟨?_, hmade, ?_⟩
  · cases bootstrap <;> simp
  · rintro l hboot l' hl' rfl
    obtain ⟨u, hu, hmem⟩ := List.mem_flatMap.mp hl'
    have hone := (SourceUnit.owner_mem_of_mem_made (hne u hu) hmem).2
    cases bootstrap with
    | false => cases hboot
    | true =>
      obtain rfl := List.mem_singleton.mp hboot
      exact absurd hone (by decide)

end Program

/-! ## What the code of a made label loads -/

theorem not_mem_cell_symbol (c : Cell) : '$' ∉ c.symbol.toList := by cases c <;> decide

theorem symbol_mem_callCode {f returnLabel name : String} {args : Int}
    (h : Line.symbol name ∈ callCode f args returnLabel) :
    name = returnLabel ∨ name = f ∨ ∃ c : Cell, name = c.symbol := by
  have hcases : name = returnLabel ∨ name = Cell.sp.symbol ∨ name = Cell.lcl.symbol ∨
      name = Cell.arg.symbol ∨ name = Cell.this.symbol ∨ name = Cell.that.symbol ∨ name = f := by
    simp [callCode, frameCode, loadAddress, pushD, setTop, incSp, savedCells, pushCell, loadCell,
      storeD, goto, Line.setD, Line.setA, Line.setM, Line.jumpIf] at h
    tauto
  rcases hcases with h | h | h | h | h | h | h
  · exact .inl h
  · exact .inr (.inr ⟨.sp, h⟩)
  · exact .inr (.inr ⟨.lcl, h⟩)
  · exact .inr (.inr ⟨.arg, h⟩)
  · exact .inr (.inr ⟨.this, h⟩)
  · exact .inr (.inr ⟨.that, h⟩)
  · exact .inr (.inl h)

theorem symbol_mem_comparisonCode {jump : Jump} {whenTrue whenDone name : String}
    (h : Line.symbol name ∈ comparisonCode jump whenTrue whenDone) :
    name = whenTrue ∨ name = whenDone ∨ ∃ c : Cell, name = c.symbol := by
  have hcases : name = Cell.sp.symbol ∨ name = whenTrue ∨ name = whenDone := by
    simp [comparisonCode, popD, decSp, goto, setTop, incSp, Line.setD, Line.setA, Line.setAM,
      Line.setM, Line.jumpIf] at h
    tauto
  rcases hcases with h | h | h
  · exact .inr (.inr ⟨.sp, h⟩)
  · exact .inl h
  · exact .inr (.inl h)

theorem code_of_compares {o : Operator} (h : o.compares = true) (n : Naming) :
    ∃ jump, (o.code n).1 =
      comparisonCode jump (n.trueLabel o.mnemonic) (n.endLabel o.mnemonic) := by
  cases o with
  | eq => exact ⟨.jeq, rfl⟩
  | gt => exact ⟨.jgt, rfl⟩
  | lt => exact ⟨.jlt, rfl⟩
  | _ => cases h

/-- An item that makes labels loads these and names without a dollar sign. -/
theorem loads_own_labels {item : Item} (hmakes : item.made ≠ [])
    (hsymbolic : ∀ s, item = .site s → s.command.Symbolic) {name : String}
    (hload : Line.symbol name ∈ item.lines) :
    name ∈ labelNames item.lines ∨ '$' ∉ name.toList := by
  have hcell : (∃ c : Cell, name = c.symbol) → '$' ∉ name.toList := by
    rintro ⟨c, rfl⟩
    exact not_mem_cell_symbol c
  cases item with
  | bootstrap =>
    have hcode : Line.symbol name ∈ callCode initFunction 0 bootstrapNaming.returnLabel ∨
        name = Cell.sp.symbol := by
      have hlines : Line.symbol name ∈ bootstrapBlock := hload
      simp only [bootstrapBlock, loadNumber, storeD, List.mem_append, List.mem_cons,
        List.not_mem_nil, Line.symbol.injEq, reduceCtorEq, Line.setD, Line.setM] at hlines
      tauto
    rcases hcode with hcode | rfl
    · rcases symbol_mem_callCode hcode with rfl | rfl | h
      · exact .inl List.mem_cons_self
      · exact .inr (by decide)
      · exact .inr (hcell h)
    · exact .inr (not_mem_cell_symbol .sp)
  | site s =>
    obtain ⟨n, c⟩ := s
    have hmarks : c.marks ≠ [] := by
      intro hnil
      apply hmakes
      show c.marks.map n.label = []
      rw [hnil]
      rfl
    cases c with
    | arithmetic op =>
      cases ho : Operator.ofMnemonic? op with
      | none => simp [Command.marks, Command.comparison?, ho] at hmarks
      | some o =>
        cases hcompares : o.compares with
        | false => simp [marks_arithmetic ho, hcompares] at hmarks
        | true =>
          obtain ⟨jump, hcode⟩ := code_of_compares hcompares n
          have hblock : (Item.site ⟨n, .arithmetic op⟩).lines =
              .comment (Command.arithmetic op).text ::
                comparisonCode jump (n.trueLabel o.mnemonic) (n.endLabel o.mnemonic) := by
            show ((Command.arithmetic op).block n).lines = _
            rw [block_of_code (by rw [Command.code, ho]), hcode]
          rw [hblock] at hload ⊢
          obtain hcomment | hload := List.mem_cons.mp hload
          · cases hcomment
          rcases symbol_mem_comparisonCode hload with rfl | rfl | h
          · exact .inl List.mem_cons_self
          · exact .inl (List.mem_cons_of_mem _ List.mem_cons_self)
          · exact .inr (hcell h)
    | call f args =>
      obtain hcomment | hload := List.mem_cons.mp hload
      · cases hcomment
      rcases symbol_mem_callCode hload with rfl | rfl | h
      · exact .inl List.mem_cons_self
      · exact .inr ((hsymbolic _ rfl _ rfl).dollar_not_mem)
      · exact .inr (hcell h)
    | _ => exact absurd rfl hmarks

theorem command_mem_of_mem_sites {n : Naming} {cs : List Command} {s : Site}
    (h : s ∈ sites n cs) : s.command ∈ cs := by
  induction cs generalizing n with
  | nil => cases h
  | cons c cs ih =>
    unfold sites at h
    rw [List.mem_cons] at h
    rcases h with rfl | h
    · exact List.mem_cons_self
    · exact List.mem_cons_of_mem c (ih h)

/-- The labels that a program makes, in order. -/
def madeLabels (bootstrap : Bool) (units : List SourceUnit) : List MadeLabel :=
  (items bootstrap units).flatMap Item.made

/-- The labels that the lines of a program define without having been given their names. -/
def generatedLabels (bootstrap : Bool) (units : List SourceUnit) : List String :=
  (items bootstrap units).flatMap Item.generated

theorem generatedLabels_eq (bootstrap : Bool) (units : List SourceUnit) :
    generatedLabels bootstrap units = (madeLabels bootstrap units).map MadeLabel.symbol := by
  unfold generatedLabels madeLabels
  rw [List.map_flatMap]
  exact congrArg (List.flatMap · (items bootstrap units)) (funext generated_eq)

/-- The labels of a program are made and defined one by one: each label that a comparison, a call
or the block that starts the program makes is defined there, and nowhere else among the generated
labels; and such a block loads no generated label but its own. -/
structure MadeApart (bootstrap : Bool) (units : List SourceUnit) : Prop where
  lines : programLines bootstrap units = (items bootstrap units).flatMap Item.lines
  generated : generatedLabels bootstrap units = (madeLabels bootstrap units).map MadeLabel.symbol
  once : ∀ l ∈ madeLabels bootstrap units, (generatedLabels bootstrap units).count l.symbol = 1
  defined : ∀ item ∈ items bootstrap units, ∀ l ∈ item.made, .label l.symbol ∈ item.lines
  loaded : ∀ item ∈ items bootstrap units, item.made ≠ [] → ∀ name, .symbol name ∈ item.lines →
    name ∈ generatedLabels bootstrap units → .label name ∈ item.lines

theorem label_mem_of_mem_labelNames {name : String} {lines : List Line}
    (h : name ∈ labelNames lines) : .label name ∈ lines := by
  obtain ⟨line, hline, hname⟩ := List.mem_filterMap.mp h
  cases line with
  | label name' =>
    cases hname
    exact hline
  | _ => cases hname

theorem Item.label_mem_of_mem_made {item : Item} {l : MadeLabel} (h : l ∈ item.made) :
    .label l.symbol ∈ item.lines := by
  have hgenerated : l.symbol ∈ item.generated := by
    rw [generated_eq]
    exact List.mem_map_of_mem h
  unfold Item.generated at hgenerated
  split at hgenerated
  · cases hgenerated
  · exact label_mem_of_mem_labelNames hgenerated

/-- Over a whole program every label that is made is defined exactly once, where it is made, and
code that makes labels loads no generated labels but its own.  The owners have to be distinct; which
commands there are, and whether they can be translated, does not matter. -/
theorem generated_labels_unique {bootstrap : Bool} {units : List SourceUnit}
    (hread : ∀ u ∈ units, u.IsRead)
    (hnames : (units.map SourceUnit.name ++
      units.flatMap fun u => functionNames u.commands).Nodup) : MadeApart bootstrap units := by
  have hne : ∀ u ∈ units, "" ∉ functionNames u.commands :=
    fun u hu => functionName_ne_empty (hread u hu).symbolic
  have hgenerated := generatedLabels_eq bootstrap units
  have hnodup : (generatedLabels bootstrap units).Nodup := by
    rw [hgenerated]
    exact (nodup_flatMap_made hne hnames).map fun l l' heq => MadeLabel.symbol_inj heq
  refine ⟨programLines_eq bootstrap units, hgenerated, fun l hl => ?once,
    fun _ _ _ => Item.label_mem_of_mem_made, ?loaded⟩
  case once =>
    refine List.count_eq_one_of_mem hnodup ?_
    rw [hgenerated]
    exact List.mem_map_of_mem hl
  case loaded =>
    intro item hitem hmakes name hload hmade
    have hsymbolic : ∀ s, item = .site s → s.command.Symbolic := by
      rintro s rfl
      obtain ⟨u, hu, hs⟩ := mem_items_site.mp hitem
      exact (hread u hu).symbolic _ (command_mem_of_mem_sites hs)
    have hdollar : '$' ∈ name.toList := by
      rw [hgenerated] at hmade
      obtain ⟨l, -, rfl⟩ := List.mem_map.mp hmade
      exact l.mem_symbol
    exact label_mem_of_mem_labelNames
      ((loads_own_labels hmakes hsymbolic hload).resolve_right fun hnot => hnot hdollar)

/-- Two units that compare and call, inside functions and outside, with a command that
cannot be translated in between. -/
def comparingUnits : List SourceUnit :=
  [⟨"A", [.call "g" 0, .function "f" 0, .arithmetic "eq", .pop "constant" 0, .call "g" 0]⟩,
    ⟨"B", [.arithmetic "eq", .function "g" 0, .arithmetic "eq", .ret]⟩]

theorem generated_labels_unique_comparing :
    (∀ u ∈ comparingUnits, u.IsRead) ∧
    (comparingUnits.map SourceUnit.name ++
      comparingUnits.flatMap fun u => functionNames u.commands).Nodup ∧
    (madeLabels true comparingUnits).length = 9 ∧ MadeApart true comparingUnits := by
  have hread : ∀ u ∈ comparingUnits, u.IsRead := by
    intro u hu
    simp only [comparingUnits, List.mem_cons, List.not_mem_nil, or_false] at hu
    rcases hu with rfl | rfl
    · exact ⟨"call g 0\nfunction f 0\neq\npop constant 0\ncall g 0\n".toList, _,
        eq_ok_of_toOption (a := ⟨_, []⟩) (by decide +kernel), rfl⟩
    · exact ⟨"eq\nfunction g 0\neq\nreturn\n".toList, _,
        eq_ok_of_toOption (a := ⟨_, []⟩) (by decide +kernel), rfl⟩
  have hnames : (comparingUnits.map SourceUnit.name ++
      comparingUnits.flatMap fun u => functionNames u.commands).Nodup := by decide
  exact ⟨hread, hnames, by decide, generated_labels_unique hread hnames⟩

end VmToHack
