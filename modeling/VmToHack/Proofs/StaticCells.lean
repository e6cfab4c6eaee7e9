import VmToHack.Proofs.LabelClashes
import VmToHack.Proofs.Ledger
set_option autoImplicit false

/-!
# Static cells: whose they are

A static cell has the symbol `unit.index`, where the unit is the name of its file up to the
first dot.  It is meant to be a cell of that file alone, and a variable.  Two things can go
wrong.  Files with different names may have the same unit.  And labels may be written like
static symbols: names of the source may hold dots, and the name of a file may hold dollar signs.
`statics_private_iff` says exactly when neither happens, by the names and indices that stand in
the files; for files with plain names little of that is left (`staticsApart_iff_of_plain`).
-/

namespace VmToHack

open VmToHack.Hack VmToHack.Text

/-! ## Symbols and labels -/

/-- A given name is written like a static symbol if it is that name outside any function, or the
unit holds the name of the function. -/
theorem symbolOf_eq_staticSymbol_iff {name : String × String} {unit : String} {index : Int} :
    symbolOf name = staticSymbol (unit, index) ↔
      name = ("", staticSymbol (unit, index)) ∨
        name.1 ≠ "" ∧ ∃ rest, unit = name.1 ++ "$" ++ rest ∧
          name.2 = staticSymbol (rest, index) := by
  obtain ⟨f, l⟩ := name
  have hdollar : '$' ∉ (toString index).toList :=
    not_mem_toList_toString (by decide) (by decide) index
  by_cases hf : f = ""
  · subst hf
    simp [symbolOf]
  · simp only [Prod.mk.injEq, hf, false_and, false_or, ne_eq, not_false_eq_true, true_and]
    constructor
    · intro h
      have hlist := congrArg String.toList h
      rw [toList_symbolOf hf, toList_staticSymbol, List.append_eq_append_iff] at hlist
      -- The dollar sign is in the unit: there is none behind the point.
      obtain ⟨middle, hunit, hrest⟩ | ⟨middle, -, hrest⟩ := hlist
      · cases middle with
        | nil => cases hrest
        | cons c middle =>
          obtain ⟨rfl, hl⟩ := List.cons.inj hrest
          refine ⟨String.ofList middle, ?_, ?_⟩
          · apply String.toList_injective
            simpa using hunit
          · apply String.toList_injective
            rw [toList_staticSymbol, String.toList_ofList, hl]
            rfl
      · have hmem : '$' ∈ '.' :: (toString index).toList := by
          rw [hrest]
          exact List.mem_append_right _ List.mem_cons_self
        rcases List.mem_cons.mp hmem with hpoint | hmem
        · exact absurd hpoint (by decide)
        · exact absurd hmem hdollar
    · rintro ⟨rest, rfl, rfl⟩
      apply String.toList_injective
      rw [toList_symbolOf hf, toList_staticSymbol, toList_staticSymbol]
      simp

/-- A made label without its number and the point in front of it. -/
def MadeLabel.base (l : MadeLabel) : String :=
  match l.mark with
  | .back => l.owner ++ "$ret"
  | .whenTrue o => l.owner ++ "$" ++ o.mnemonic.toUpper ++ "$TRUE"
  | .whenDone o => l.owner ++ "$" ++ o.mnemonic.toUpper ++ "$END"

/-- A made label is written like a static symbol of its base. -/
theorem MadeLabel.symbol_eq (l : MadeLabel) : l.symbol = staticSymbol (l.base, l.number) := by
  obtain ⟨owner, mark, number⟩ := l
  apply String.toList_injective
  cases mark <;> simp [MadeLabel.symbol, MadeLabel.base, toList_staticSymbol]

theorem MadeLabel.dollar_mem_base (l : MadeLabel) : '$' ∈ l.base.toList := by
  obtain ⟨owner, mark, number⟩ := l
  cases mark <;> simp [MadeLabel.base]

/-! ## Commands with static cells -/

/-- The index of the static cell that a command pushes or pops. -/
def Command.staticIndex? : Command → Option Int
  | .push segment index => if segment = Segment.static.name then some index else none
  | .pop segment index => if segment = Segment.static.name then some index else none
  | _ => none

/-- The block of such a command uses the stack pointer and the static symbol. -/
theorem symbol_mem_staticBlock_iff {c : Command} {index : Int} (h : c.staticIndex? = some index)
    (n : Naming) (symbol : String) :
    .symbol symbol ∈ (c.block n).lines ↔
      symbol = staticSymbol (n.unit, index) ∨ symbol = Cell.sp.symbol := by
  cases c with
  | push segment i =>
    obtain ⟨rfl, rfl⟩ := Option.ite_some_none_eq_some.mp h
    show .symbol symbol ∈ .comment _ :: (loadCell (staticSymbol (n.unit, i)) ++ pushD) ↔ _
    simp [loadCell, pushD, setTop, incSp, Line.setD, Line.setA, Line.setM]
  | pop segment i =>
    obtain ⟨rfl, rfl⟩ := Option.ite_some_none_eq_some.mp h
    show .symbol symbol ∈ .comment _ :: (popD ++ storeD (staticSymbol (n.unit, i))) ↔ _
    simp [storeD, popD, decSp, Line.setD, Line.setAM, Line.setM, or_comm]
  | _ => cases h

theorem unit_of_mem_sites {n : Naming} {cs : List Command} {s : Site} (h : s ∈ sites n cs) :
    s.naming.unit = n.unit := by
  induction cs generalizing n with
  | nil => cases h
  | cons c cs ih =>
    rw [sites_cons] at h
    rcases List.mem_cons.mp h with rfl | h
    · rfl
    · rw [ih h, unit_after]

theorem map_command_sites (n : Naming) (cs : List Command) :
    (sites n cs).map Site.command = cs := by
  induction cs generalizing n with
  | nil => rfl
  | cons c cs ih => rw [sites_cons, List.map_cons, ih]

/-! ## Files -/

/-- A file of source. -/
structure SourceFile where
  name : String
  text : List Char
  deriving DecidableEq, Repr, Inhabited

namespace SourceFile

/-- What the translation writes for a file. -/
def lines (f : SourceFile) : List Line := (translateSource f.text f.name {}).1.output.lines

/-- The unit of the commands that a file says. -/
def unit (f : SourceFile) : SourceUnit :=
  ⟨unitLabel f.name, (numberedLines f.text).filterMap SourceLine.command?⟩

theorem lines_eq {f : SourceFile} (h : Evaluable f.text) : f.lines = f.unit.lines := by
  unfold lines
  rw [translateSource_of_evaluable h]
  rfl

/-- The indices of the static cells that a file uses. -/
def statics (f : SourceFile) : List Int := f.unit.commands.filterMap Command.staticIndex?

/-- A symbol that the file emits for a static index: it stands in the block of a command with
this index, and is none of the machine's own. -/
def Emits (f : SourceFile) (index : Int) (symbol : String) : Prop :=
  ∃ s ∈ f.unit.sites, s.command.staticIndex? = some index ∧ .symbol symbol ∈ s.lines ∧
    symbol ∉ predefined.map Prod.fst

theorem emits_iff {f : SourceFile} {index : Int} {symbol : String} :
    f.Emits index symbol ↔
      index ∈ f.statics ∧ symbol = staticSymbol (unitLabel f.name, index) := by
  have hunit : ∀ s ∈ f.unit.sites, s.naming.unit = unitLabel f.name :=
    fun s hs => unit_of_mem_sites hs
  constructor
  · rintro ⟨s, hs, hindex, hload, hown⟩
    refine ⟨List.mem_filterMap.mpr ⟨s.command, command_mem_of_mem_sites hs, hindex⟩, ?_⟩
    rw [← hunit s hs]
    refine ((symbol_mem_staticBlock_iff hindex s.naming symbol).mp hload).resolve_right ?_
    rintro rfl
    exact hown (by decide)
  · rintro ⟨hindex, rfl⟩
    obtain ⟨c, hc, hindex⟩ := List.mem_filterMap.mp hindex
    have hcommands : f.unit.sites.map Site.command = f.unit.commands := map_command_sites _ _
    rw [← hcommands] at hc
    obtain ⟨s, hs, rfl⟩ := List.mem_map.mp hc
    refine ⟨s, hs, hindex, ?_, staticSymbol_not_mem_predefined _⟩
    rw [← hunit s hs]
    exact (symbol_mem_staticBlock_iff hindex s.naming _).mpr (.inl rfl)

end SourceFile

/-- What is written for some files, with or without the block that starts a program. -/
def outputLines (bootstrap : Bool) (files : List SourceFile) : List Line :=
  (if bootstrap then bootstrapBlock else []) ++ files.flatMap SourceFile.lines

section

variable {bootstrap : Bool} {files : List SourceFile}

theorem evaluable_of_short
    (h : ∀ f ∈ files, ∀ line ∈ splitLines f.text, line.length ≤ numeralLimit) :
    ∀ f ∈ files, Evaluable f.text :=
  fun f hf => evaluable_of_length_le (h f hf)

theorem outputLines_eq (h : ∀ f ∈ files, Evaluable f.text) :
    outputLines bootstrap files = programLines bootstrap (files.map SourceFile.unit) := by
  unfold outputLines programLines
  rw [List.flatMap_map]
  congr 1
  exact List.flatMap_congr fun f hf => SourceFile.lines_eq (h f hf)

/-- The labels of a program are those that its files give and those that are made. -/
theorem mem_labelNames_programLines_iff {units : List SourceUnit} {symbol : String} :
    symbol ∈ labelNames (programLines bootstrap units) ↔
      (∃ u ∈ units, ∃ name ∈ u.names, symbolOf name = symbol) ∨
        ∃ l ∈ (items bootstrap units).flatMap Item.made, l.symbol = symbol := by
  have hunit : ∀ u : SourceUnit, symbol ∈ labelNames u.lines ↔
      (∃ name ∈ u.names, symbolOf name = symbol) ∨ ∃ l ∈ u.made, l.symbol = symbol := by
    intro u
    rw [(u.labelNames_lines_perm).mem_iff, List.mem_append, List.mem_map, List.mem_map]
  have hstart : symbol ∈ labelNames (if bootstrap then bootstrapBlock else []) ↔
      ∃ l ∈ (if bootstrap then [bootstrapNaming.label .back] else []), l.symbol = symbol := by
    cases bootstrap with
    | false => simp [labelNames]
    | true =>
      show symbol ∈ [(bootstrapNaming.label .back).symbol] ↔ _
      simp [eq_comm]
  unfold programLines
  rw [labelNames_append, labelNames_flatMap, List.mem_append, List.mem_flatMap, flatMap_made,
    hstart]
  simp only [hunit, List.mem_append, List.mem_flatMap]
  constructor
  · rintro (⟨l, hl, heq⟩ | ⟨u, hu, hname | ⟨l, hl, heq⟩⟩)
    · exact .inr ⟨l, .inl hl, heq⟩
    · exact .inl ⟨u, hu, hname⟩
    · exact .inr ⟨l, .inr ⟨u, hu, hl⟩, heq⟩
  · rintro (⟨u, hu, hname⟩ | ⟨l, hl | ⟨u, hu, hl⟩, heq⟩)
    · exact .inr ⟨u, hu, .inl hname⟩
    · exact .inl ⟨l, hl, heq⟩
    · exact .inr ⟨u, hu, .inr ⟨l, hl, heq⟩⟩

end

/-! ## When static cells are private -/

/-- Every static symbol belongs to one index of one file, and none is a label. -/
structure StaticsPrivate (bootstrap : Bool) (files : List SourceFile) : Prop where
  cells : ∀ f ∈ files, ∀ g ∈ files, ∀ i j symbol, f.Emits i symbol → g.Emits j symbol →
    f = g ∧ i = j
  labels : ∀ f ∈ files, ∀ i symbol, f.Emits i symbol →
    symbol ∉ labelNames (outputLines bootstrap files)

/-- No two files share a static cell, and no name is written like a static symbol. -/
structure StaticsApart (bootstrap : Bool) (files : List SourceFile) : Prop where
  /-- Files of one unit use different indices. -/
  units : ∀ f ∈ files, ∀ g ∈ files, f ≠ g → unitLabel f.name = unitLabel g.name →
    ∀ i ∈ f.statics, i ∉ g.statics
  /-- No function, and no label outside all functions, has the name of a static symbol. -/
  names : ∀ f ∈ files, ∀ i ∈ f.statics, ∀ g ∈ files,
    ("", staticSymbol (unitLabel f.name, i)) ∉ g.unit.names
  /-- Where the unit begins like the labels of a function, this function has no label that
  goes on like the static symbol. -/
  bodies : ∀ f ∈ files, ∀ i ∈ f.statics, ∀ g ∈ files, ∀ function rest, function ≠ "" →
    unitLabel f.name = function ++ "$" ++ rest →
      (function, staticSymbol (rest, i)) ∉ g.unit.names
  /-- Where the unit is the base of a made label, the number is none of the indices. -/
  made : ∀ f ∈ files, ∀ i ∈ f.statics,
    ∀ l ∈ (items bootstrap (files.map SourceFile.unit)).flatMap Item.made,
      l.base = unitLabel f.name → l.number ≠ i

section

variable {bootstrap : Bool} {files : List SourceFile}

/-- Static symbols are shared only by files of one unit that use one index. -/
theorem cells_private_iff :
    (∀ f ∈ files, ∀ g ∈ files, ∀ i j symbol, f.Emits i symbol → g.Emits j symbol →
      f = g ∧ i = j) ↔
    ∀ f ∈ files, ∀ g ∈ files, f ≠ g → unitLabel f.name = unitLabel g.name →
      ∀ i ∈ f.statics, i ∉ g.statics := by
  constructor
  · intro h f hf g hg hne hunit i hi hi'
    have hf' := SourceFile.emits_iff.mpr ⟨hi, rfl⟩
    have hg' := SourceFile.emits_iff.mpr ⟨hi', rfl⟩
    rw [← hunit] at hg'
    exact hne (h f hf g hg i i _ hf' hg').1
  · intro h f hf g hg i j symbol hi hj
    obtain ⟨hf', rfl⟩ := SourceFile.emits_iff.mp hi
    obtain ⟨hg', hsymbol⟩ := SourceFile.emits_iff.mp hj
    obtain ⟨hunit, rfl⟩ := Prod.mk.inj (staticSymbol_inj hsymbol)
    refine ⟨?_, rfl⟩
    by_contra hne
    exact h f hf g hg hne hunit i hf' hg'

/-- The ways in which a static symbol can be a label. -/
theorem staticSymbol_mem_labelNames_iff {units : List SourceUnit} {unit : String} {i : Int} :
    staticSymbol (unit, i) ∈ labelNames (programLines bootstrap units) ↔
      (∃ u ∈ units, ("", staticSymbol (unit, i)) ∈ u.names) ∨
      (∃ u ∈ units, ∃ function rest, function ≠ "" ∧ unit = function ++ "$" ++ rest ∧
        (function, staticSymbol (rest, i)) ∈ u.names) ∨
      ∃ l ∈ (items bootstrap units).flatMap Item.made, l.base = unit ∧ l.number = i := by
  rw [mem_labelNames_programLines_iff]
  constructor
  · rintro (⟨u, hu, name, hname, heq⟩ | ⟨l, hl, heq⟩)
    · obtain rfl | ⟨hfirst, rest, hunit, hsecond⟩ := symbolOf_eq_staticSymbol_iff.mp heq
      · exact .inl ⟨u, hu, hname⟩
      · refine .inr (.inl ⟨u, hu, name.1, rest, hfirst, hunit, ?_⟩)
        rwa [← hsecond]
    · rw [l.symbol_eq] at heq
      obtain ⟨hbase, hnumber⟩ := Prod.mk.inj (staticSymbol_inj heq)
      exact .inr (.inr ⟨l, hl, hbase, hnumber⟩)
  · rintro (⟨u, hu, hname⟩ | ⟨u, hu, function, rest, hfirst, rfl, hname⟩ | ⟨l, hl, rfl, rfl⟩)
    · exact .inl ⟨u, hu, _, hname, symbolOf_eq_staticSymbol_iff.mpr (.inl rfl)⟩
    · exact .inl ⟨u, hu, _, hname,
        symbolOf_eq_staticSymbol_iff.mpr (.inr ⟨hfirst, rest, rfl, rfl⟩)⟩
    · exact .inr ⟨l, hl, l.symbol_eq⟩

/-- No static symbol is a label if the last three conditions hold, and only then. -/
theorem labels_apart_iff (h : ∀ f ∈ files, Evaluable f.text) :
    (∀ f ∈ files, ∀ i symbol, f.Emits i symbol →
      symbol ∉ labelNames (outputLines bootstrap files)) ↔
    ∀ f ∈ files, ∀ i ∈ f.statics,
      staticSymbol (unitLabel f.name, i) ∉
        labelNames (programLines bootstrap (files.map SourceFile.unit)) := by
  rw [outputLines_eq h]
  constructor
  · exact fun hlabels f hf i hi => hlabels f hf i _ (SourceFile.emits_iff.mpr ⟨hi, rfl⟩)
  · intro hlabels f hf i symbol hsymbol
    obtain ⟨hi, rfl⟩ := SourceFile.emits_iff.mp hsymbol
    exact hlabels f hf i hi

end

/-- The static cells of files are private exactly if they are apart. -/
theorem statics_private_iff {bootstrap : Bool} {files : List SourceFile}
    (h : ∀ f ∈ files, Evaluable f.text) :
    outputLines bootstrap files =
        (items bootstrap (files.map SourceFile.unit)).flatMap Item.lines ∧
      (StaticsPrivate bootstrap files ↔ StaticsApart bootstrap files) := by
  refine ⟨(outputLines_eq h).trans (programLines_eq _ _), ?_⟩
  constructor
  · rintro ⟨hcells, hlabels⟩
    rw [labels_apart_iff h] at hlabels
    simp only [staticSymbol_mem_labelNames_iff, not_or] at hlabels
    refine ⟨cells_private_iff.mp hcells, ?names, ?bodies, ?made⟩
    case names =>
      intro f hf i hi g hg hname
      exact (hlabels f hf i hi).1 ⟨g.unit, List.mem_map_of_mem hg, hname⟩
    case bodies =>
      intro f hf i hi g hg function rest hfirst hunit hname
      exact (hlabels f hf i hi).2.1
        ⟨g.unit, List.mem_map_of_mem hg, function, rest, hfirst, hunit, hname⟩
    case made =>
      intro f hf i hi l hl hbase hnumber
      exact (hlabels f hf i hi).2.2 ⟨l, hl, hbase, hnumber⟩
  · rintro ⟨hunits, hnames, hbodies, hmade⟩
    refine ⟨cells_private_iff.mpr hunits, (labels_apart_iff h).mpr ?_⟩
    intro f hf i hi hmem
    rcases staticSymbol_mem_labelNames_iff.mp hmem with ⟨u, hu, hname⟩ |
      ⟨u, hu, function, rest, hfirst, hunit, hname⟩ | ⟨l, hl, hbase, hnumber⟩
    · obtain ⟨g, hg, rfl⟩ := List.mem_map.mp hu
      exact hnames f hf i hi g hg hname
    · obtain ⟨g, hg, rfl⟩ := List.mem_map.mp hu
      exact hbodies f hf i hi g hg function rest hfirst hunit hname
    · exact hmade f hf i hi l hl hbase hnumber

/-- Two files that use their static cells, and a function in one of them. -/
def separateFiles : List SourceFile :=
  [⟨"A.vm", "push static 0\npush static 1\n".toList⟩,
    ⟨"B.vm", "function B.f 0\npop static 0\n".toList⟩]

theorem statics_private_iff_separate :
    (∀ f ∈ separateFiles, Evaluable f.text) ∧
    outputLines true separateFiles =
        (items true (separateFiles.map SourceFile.unit)).flatMap Item.lines ∧
      (StaticsPrivate true separateFiles ↔ StaticsApart true separateFiles) := by
  have h : ∀ f ∈ separateFiles, Evaluable f.text := evaluable_of_short (by decide)
  exact ⟨h, statics_private_iff h⟩

/-- Two files whose names are the same up to the first dot. -/
def sharingFiles : List SourceFile :=
  [⟨"A.b.vm", "push static 0\n".toList⟩, ⟨"A.vm", "pop static 0\n".toList⟩]

/-- A file with a function that has the name of its static symbol. -/
def namingFiles : List SourceFile :=
  [⟨"Test.vm", "function Test.0 0\npush static 0\n".toList⟩]

/-- Two files use one cell, and a static symbol is the label of a function. -/
theorem statics_not_private :
    ((sharingFiles.map SourceFile.name).Nodup ∧ (∀ f ∈ sharingFiles, Evaluable f.text) ∧
      ¬ StaticsPrivate true sharingFiles) ∧
    (∀ f ∈ namingFiles, Evaluable f.text) ∧ ¬ StaticsPrivate true namingFiles := by
  refine ⟨⟨by decide, evaluable_of_short (by decide), fun h => ?_⟩,
    evaluable_of_short (by decide), fun h => ?_⟩
  · have hb : SourceFile.Emits ⟨"A.b.vm", "push static 0\n".toList⟩ 0 "A.0" :=
      SourceFile.emits_iff.mpr ⟨by decide +kernel, by decide +kernel⟩
    have ha : SourceFile.Emits ⟨"A.vm", "pop static 0\n".toList⟩ 0 "A.0" :=
      SourceFile.emits_iff.mpr ⟨by decide +kernel, by decide +kernel⟩
    have hsame := (h.cells _ List.mem_cons_self _ (List.mem_cons_of_mem _ List.mem_cons_self)
      0 0 _ hb ha).1
    exact absurd (congrArg SourceFile.name hsame) (by decide)
  · have hemits : SourceFile.Emits ⟨"Test.vm", "function Test.0 0\npush static 0\n".toList⟩ 0
        "Test.0" :=
      SourceFile.emits_iff.mpr ⟨by decide +kernel, by decide +kernel⟩
    refine h.labels _ List.mem_cons_self 0 _ hemits ?_
    decide +kernel

/-! ## Files with ordinary names -/

/-- A file name with one dot, in front of its suffix, and no separator or dollar sign. -/
def IsPlain (name : String) : Prop :=
  ∃ stem : List Char, name.toList = stem ++ ".vm".toList ∧
    '.' ∉ stem ∧ '/' ∉ stem ∧ '\\' ∉ stem ∧ '$' ∉ stem

/-- The unit of a file with a plain name is the name without its suffix. -/
theorem toList_unitLabel {name : String} {stem : List Char}
    (hname : name.toList = stem ++ ".vm".toList) (hdot : '.' ∉ stem) (hslash : '/' ∉ stem)
    (hback : '\\' ∉ stem) : (unitLabel name).toList = stem := by
  have hsuffix : ".vm".toList.all (fun c => c ≠ '/' && c ≠ '\\') = true := by decide
  have hnone : ∀ c ∈ name.toList.reverse, (c ≠ '/' && c ≠ '\\') = true := by
    intro c hc
    rw [List.mem_reverse, hname, List.mem_append] at hc
    rcases hc with hc | hc
    · have hone : c ≠ '/' := fun heq => hslash (heq ▸ hc)
      have htwo : c ≠ '\\' := fun heq => hback (heq ▸ hc)
      simp [hone, htwo]
    · exact List.all_eq_true.mp hsuffix c hc
  have hlast : lastComponent name.toList = stem ++ ".vm".toList := by
    rw [lastComponent, List.takeWhile_eq_self_iff.mpr hnone, List.reverse_reverse, hname]
  have hstem : ∀ c ∈ stem, decide (c ≠ '.') = true :=
    fun c hc => decide_eq_true fun heq => hdot (heq ▸ hc)
  rw [unitLabel, String.toList_ofList, hlast, List.takeWhile_append_of_pos hstem]
  simp

/-- With plain names, static cells are apart if no function, and no label outside all functions,
has the name of a static symbol. -/
theorem staticsApart_iff_of_plain {bootstrap : Bool} {files : List SourceFile}
    (hplain : ∀ f ∈ files, IsPlain f.name)
    (hdistinct : ∀ f ∈ files, ∀ g ∈ files, f.name = g.name → f = g) :
    StaticsApart bootstrap files ↔
      ∀ f ∈ files, ∀ i ∈ f.statics, ∀ g ∈ files,
        ("", staticSymbol (unitLabel f.name, i)) ∉ g.unit.names := by
  have hunit : ∀ f ∈ files, ∀ g ∈ files, unitLabel f.name = unitLabel g.name → f = g := by
    intro f hf g hg heq
    obtain ⟨stem, hname, hdot, hslash, hback, -⟩ := hplain f hf
    obtain ⟨stem', hname', hdot', hslash', hback', -⟩ := hplain g hg
    have hstem := congrArg String.toList heq
    rw [toList_unitLabel hname hdot hslash hback, toList_unitLabel hname' hdot' hslash' hback']
      at hstem
    refine hdistinct f hf g hg (String.toList_injective ?_)
    rw [hname, hname', hstem]
  have hdollar : ∀ f ∈ files, '$' ∉ (unitLabel f.name).toList := by
    intro f hf
    obtain ⟨stem, hname, hdot, hslash, hback, hdollar⟩ := hplain f hf
    rwa [toList_unitLabel hname hdot hslash hback]
  constructor
  · exact StaticsApart.names
  · intro hnames
    refine ⟨?units, hnames, ?bodies, ?made⟩
    case units =>
      intro f hf g hg hne heq
      exact absurd (hunit f hf g hg heq) hne
    case bodies =>
      intro f hf i hi g hg function rest hfirst heq
      refine absurd ?_ (hdollar f hf)
      simp [heq]
    case made =>
      intro f hf i hi l hl heq
      exact absurd (heq ▸ l.dollar_mem_base) (hdollar f hf)

end VmToHack
