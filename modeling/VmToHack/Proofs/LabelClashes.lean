import VmToHack.Proofs.Sections
set_option autoImplicit false

/-!
# Label clashes: when one name is defined twice

All labels of a translated text share one space of names: the functions, the labels that
the text defines, and the labels that the translation makes.  `nodup_labelNames_iff` says
exactly when they are distinct, for a text whose own names are.

Two kinds of clash are left.  A label of a function may be written like the return label
of one of its calls.  And if the file has the name of one of its functions, the labels
that are made outside any function have the same owner as those made in this function.
-/

namespace VmToHack

open VmToHack.Hack

/-! ## The labels of a site -/

namespace Site

/-- The function that a site begins, as a name of the reference machine. -/
def entry (s : Site) : List (String × String) :=
  (s.command.function?.map fun f => ("", f)).toList

/-- The label that a site is given, with the function around it. -/
def ownLabel (s : Site) : List (String × String) :=
  (s.command.label?.map fun l => (s.naming.function, l)).toList

end Site

theorem labelNames_functionCode (name : String) (locals : Int) :
    labelNames (functionCode name locals) = [name] := by
  have hzeros : ∀ k : Nat, labelNames (List.replicate k (setTop .zero ++ incSp)).flatten = [] := by
    intro k
    induction k with
    | zero => rfl
    | succ k ih =>
      rw [List.replicate_succ, List.flatten_cons, labelNames_append, ih]
      rfl
  show name :: labelNames (List.replicate locals.toNat (setTop .zero ++ incSp)).flatten = [name]
  rw [hzeros]

/-- A site defines what it is given and what it makes, and nothing else. -/
theorem labelNames_site (s : Site) :
    labelNames s.lines =
      (s.entry ++ s.ownLabel).map symbolOf ++ s.made.map MadeLabel.symbol := by
  obtain ⟨n, c⟩ := s
  have hgenerated := generated_eq (.site ⟨n, c⟩)
  cases c with
  | label name => rfl
  | function name locals =>
    show labelNames (functionCode name locals) = [symbolOf ("", name)]
    rw [labelNames_functionCode, symbolOf_function]
  | _ => exact hgenerated

namespace SourceUnit

/-- The names that are given in a unit. -/
def names (u : SourceUnit) : List (String × String) :=
  u.sites.flatMap Site.entry ++ u.sites.flatMap Site.ownLabel

theorem labelNames_lines_perm (u : SourceUnit) :
    (labelNames u.lines).Perm (u.names.map symbolOf ++ u.made.map MadeLabel.symbol) := by
  have hsites : labelNames u.lines = u.sites.flatMap fun s =>
      (s.entry ++ s.ownLabel).map symbolOf ++ s.made.map MadeLabel.symbol := by
    rw [u.lines_eq, labelNames_flatMap]
    exact congrArg (List.flatMap · u.sites) (funext labelNames_site)
  rw [hsites]
  refine (List.flatMap_append_perm _ _ _).symm.trans ?_
  rw [← List.map_flatMap, ← List.map_flatMap]
  exact ((List.flatMap_append_perm _ _ _).symm.map symbolOf).append_right _

end SourceUnit

/-! ## Given names -/

theorem flatMap_entry (n : Naming) (cs : List Command) :
    (sites n cs).flatMap Site.entry = (functionNames cs).map fun f => ("", f) := by
  induction cs generalizing n with
  | nil => rfl
  | cons c cs ih =>
    rw [sites_cons, List.flatMap_cons, ih]
    cases hf : c.function? with
    | none =>
      rw [functionNames_cons_of_none hf, Site.entry, hf]
      rfl
    | some f =>
      rw [functionNames_cons_of_some hf, Site.entry, hf]
      rfl

/-- Where no function begins, the labels that are given belong to the same one. -/
theorem flatMap_ownLabel {n : Naming} {cs : List Command} (h : functionNames cs = []) :
    (sites n cs).flatMap Site.ownLabel = (ownLabels cs).map fun l => (n.function, l) := by
  induction cs generalizing n with
  | nil => rfl
  | cons c cs ih =>
    have hf : c.function? = none := List.filterMap_eq_nil_iff.mp h c List.mem_cons_self
    rw [functionNames_cons_of_none hf] at h
    rw [sites_cons, List.flatMap_cons, ih h, function_after_of_none hf]
    unfold ownLabels
    cases hl : c.label? with
    | none =>
      rw [List.filterMap_cons_none hl, Site.ownLabel, hl]
      rfl
    | some l =>
      rw [List.filterMap_cons_some hl, Site.ownLabel, hl]
      rfl

/-- The names that are given in a text are apart, as far as a reader of the text sees. -/
structure NamesApart (cs : List Command) : Prop where
  functions : (functionNames cs).Nodup
  topLevel : (ownLabels (topLevel cs)).Nodup
  outside : ∀ f ∈ functionNames cs, f ∉ ownLabels (VmToHack.topLevel cs)
  bodies : ∀ f ∈ functionNames cs, (ownLabels (bodyOf f cs)).Nodup

instance (cs : List Command) : Decidable (NamesApart cs) :=
  decidable_of_iff ((functionNames cs).Nodup ∧ (ownLabels (topLevel cs)).Nodup ∧
      (∀ f ∈ functionNames cs, f ∉ ownLabels (topLevel cs)) ∧
      ∀ f ∈ functionNames cs, (ownLabels (bodyOf f cs)).Nodup)
    ⟨fun ⟨hfunctions, htop, houtside, hbodies⟩ => ⟨hfunctions, htop, houtside, hbodies⟩,
      fun h => ⟨h.functions, h.topLevel, h.outside, h.bodies⟩⟩

namespace SourceUnit

theorem names_eq (u : SourceUnit) (h : (functionNames u.commands).Nodup) :
    u.names = ((functionNames u.commands).map fun f => ("", f)) ++
      (((ownLabels (topLevel u.commands)).map fun l => ("", l)) ++
        (functionNames u.commands).flatMap fun f =>
          (ownLabels (bodyOf f u.commands)).map fun l => (f, l)) := by
  have hstart : ∀ (n : Naming) (c : Command) (f : String), c.function? = some f →
      Site.ownLabel ⟨n, c⟩ = [] := by
    intro n c f hf
    cases c with
    | function name locals => rfl
    | _ => cases hf
  unfold names sites
  rw [flatMap_entry, flatMap_sites hstart h,
    flatMap_ownLabel (functionNames_topLevel u.commands)]
  simp only [flatMap_ownLabel (functionNames_bodyOf _ _), Naming.enter]

theorem nodup_names {u : SourceUnit} (hne : "" ∉ functionNames u.commands)
    (h : NamesApart u.commands) : u.names.Nodup := by
  have hpair : ∀ f : String, Function.Injective fun l : String => (f, l) :=
    fun f l l' heq => congrArg Prod.snd heq
  rw [u.names_eq h.functions, List.nodup_append', List.nodup_append']
  refine ⟨h.functions.map (hpair ""), ⟨h.topLevel.map (hpair ""), ?_, ?_⟩, ?_⟩
  · rw [List.nodup_flatMap]
    refine ⟨fun f hf => (h.bodies f hf).map (hpair f), ?_⟩
    apply h.functions.imp
    intro f f' hne' name hmem hmem'
    obtain ⟨l, -, rfl⟩ := List.mem_map.mp hmem
    obtain ⟨l', -, heq⟩ := List.mem_map.mp hmem'
    exact hne' (congrArg Prod.fst heq).symm
  · intro name htop hbody
    obtain ⟨l, -, rfl⟩ := List.mem_map.mp htop
    obtain ⟨f, hf, hmem⟩ := List.mem_flatMap.mp hbody
    obtain ⟨l', -, heq⟩ := List.mem_map.mp hmem
    cases heq
    exact hne hf
  · intro name hentry hown
    obtain ⟨f, hf, rfl⟩ := List.mem_map.mp hentry
    rcases List.mem_append.mp hown with htop | hbody
    · obtain ⟨l, hl, heq⟩ := List.mem_map.mp htop
      cases heq
      exact h.outside f hf hl
    · obtain ⟨g, hg, hmem⟩ := List.mem_flatMap.mp hbody
      obtain ⟨l', -, heq⟩ := List.mem_map.mp hmem
      cases heq
      exact hne hg

end SourceUnit

/-! ## Symbols of given names -/

/-- A name that could have been given in a text: no dollar sign is in it. -/
def IsGiven (name : String × String) : Prop := '$' ∉ name.1.toList ∧ '$' ∉ name.2.toList

theorem toList_symbolOf {name : String × String} (h : name.1 ≠ "") :
    (symbolOf name).toList = name.1.toList ++ '$' :: name.2.toList := by
  unfold symbolOf
  rw [if_neg h]
  simp

theorem symbolOf_inj {name name' : String × String} (hname : IsGiven name)
    (hname' : IsGiven name') (h : symbolOf name = symbolOf name') : name = name' := by
  have hempty : ∀ {name : String × String}, name.1 = "" → symbolOf name = name.2 :=
    fun hfirst => if_pos hfirst
  have hdollar : ∀ {name : String × String}, name.1 ≠ "" → '$' ∈ (symbolOf name).toList := by
    intro name hfirst
    rw [toList_symbolOf hfirst]
    exact List.mem_append_right _ List.mem_cons_self
  by_cases hfirst : name.1 = "" <;> by_cases hfirst' : name'.1 = ""
  · rw [hempty hfirst, hempty hfirst'] at h
    exact Prod.ext (hfirst.trans hfirst'.symm) h
  · have hmem := hdollar hfirst'
    rw [← h, hempty hfirst] at hmem
    exact absurd hmem hname.2
  · have hmem := hdollar hfirst
    rw [h, hempty hfirst'] at hmem
    exact absurd hmem hname'.2
  · have hparts := congrArg String.toList h
    rw [toList_symbolOf hfirst, toList_symbolOf hfirst'] at hparts
    obtain ⟨hone, htwo⟩ := separated_inj hname.2 hname'.2 hparts
    exact Prod.ext (String.toList_injective hone) (String.toList_injective htwo)

theorem symbol_back (owner : String) (number : Int) :
    (MadeLabel.mk owner .back number).symbol = owner ++ "$" ++ ("ret." ++ toString number) := by
  apply String.toList_injective
  simp [MadeLabel.symbol]

/-- The only made label that a given name can be taken for is a return label of the function
around. -/
theorem symbolOf_eq_symbol_iff {name : String × String} (hname : IsGiven name) {l : MadeLabel} :
    symbolOf name = l.symbol ↔
      name.1 ≠ "" ∧ ∃ k, l = ⟨name.1, .back, k⟩ ∧ name.2 = "ret." ++ toString k := by
  constructor
  · intro h
    have hfirst : name.1 ≠ "" := by
      intro hempty
      refine hname.2 ?_
      have hsecond : symbolOf name = name.2 := if_pos hempty
      rw [← hsecond, h]
      exact l.mem_symbol
    have hparts := congrArg String.toList h
    rw [toList_symbolOf hfirst, MadeLabel.toList_symbol] at hparts
    obtain ⟨hstem, htail⟩ := separated_inj hname.2 l.not_mem_tail hparts
    obtain ⟨owner, mark, number⟩ := l
    -- The stem of the label of a comparison has a dollar sign of its own.
    have hcompared : ∀ rest : List Char, name.1.toList ≠ owner.toList ++ '$' :: rest := by
      intro rest heq
      refine hname.1 ?_
      rw [heq]
      exact List.mem_append_right _ List.mem_cons_self
    cases mark with
    | back =>
      refine ⟨hfirst, number, ?_, ?_⟩
      · rw [String.toList_injective hstem]
      · apply String.toList_injective
        rw [htail]
        simp [MadeLabel.tail, Mark.word]
    | whenTrue o => exact absurd hstem (hcompared _)
    | whenDone o => exact absurd hstem (hcompared _)
  · rintro ⟨hfirst, k, rfl, hsecond⟩
    rw [symbol_back, symbolOf, if_neg hfirst, hsecond]

/-! ## Names that a text gives -/

section Symbolic

variable {cs : List Command} (hsymbolic : ∀ c ∈ cs, c.Symbolic)

include hsymbolic

theorem dollar_not_mem_functionName {f : String} (h : f ∈ functionNames cs) : '$' ∉ f.toList := by
  obtain ⟨c, hc, hf⟩ := List.mem_filterMap.mp h
  cases c with
  | function name locals =>
    cases hf
    exact (hsymbolic _ hc f rfl).dollar_not_mem
  | _ => cases hf

theorem dollar_not_mem_ownLabel {part : List Command} (hpart : part ⊆ cs) {l : String}
    (h : l ∈ ownLabels part) : '$' ∉ l.toList := by
  obtain ⟨c, hc, hl⟩ := List.mem_filterMap.mp h
  cases c with
  | label name =>
    cases hl
    exact (hsymbolic _ (hpart hc) l rfl).dollar_not_mem
  | _ => cases hl

end Symbolic

/-! ## Clashes -/

/-- How many return labels carry the name of a function: one for each of its calls.  If the
unit has its name, the calls outside any function count from one as well. -/
def returnLabels (unit : String) (cs : List Command) (f : String) : Nat :=
  max (callCount (bodyOf f cs)) (if f = unit then callCount (topLevel cs) else 0)

/-- No label of a function is written like one of its return labels, and the commands
outside any function make none of the labels that a function with the name of the unit
makes. -/
structure ClashFree (unit : String) (cs : List Command) : Prop where
  returns : ∀ (f : String) (k : Int), 1 ≤ k → k ≤ returnLabels unit cs f →
    "ret." ++ toString k ∉ ownLabels (bodyOf f cs)
  calls : callCount (topLevel cs) = 0 ∨ callCount (bodyOf unit cs) = 0
  comparisons : ∀ (i : Nat) (o : Operator), (comparisonsOf (topLevel cs))[i]? = some o →
    (comparisonsOf (bodyOf unit cs))[i]? ≠ some o

namespace SourceUnit

variable {u : SourceUnit}

/-- The names with which a unit begins. -/
def start (u : SourceUnit) : Naming := { unit := u.name }

theorem owner_start (u : SourceUnit) : u.start.owner = u.name := rfl

theorem owner_enter_name (u : SourceUnit) : (u.start.enter u.name).owner = u.name := by
  unfold Naming.owner
  split <;> rfl

theorem made_eq (u : SourceUnit) (h : (functionNames u.commands).Nodup) :
    u.made = madeFrom u.start (topLevel u.commands) ++
      (functionNames u.commands).flatMap fun f =>
        madeFrom (u.start.enter f) (bodyOf f u.commands) := by
  have hstart : ∀ (n : Naming) (c : Command) (f : String), c.function? = some f →
      Site.made ⟨n, c⟩ = [] := by
    intro n c f hf
    cases c with
    | function name locals => rfl
    | _ => cases hf
  exact flatMap_sites hstart h

/-- A label that is made in a function is made in the one that owns it. -/
theorem mem_flatMap_bodies (hne : "" ∉ functionNames u.commands) {l : MadeLabel} :
    (l ∈ (functionNames u.commands).flatMap fun f =>
      madeFrom (u.start.enter f) (bodyOf f u.commands)) ↔
        l ∈ madeFrom (u.start.enter l.owner) (bodyOf l.owner u.commands) := by
  rw [List.mem_flatMap]
  constructor
  · rintro ⟨f, hf, hmem⟩
    have howner := owner_of_mem_madeFrom (functionNames_bodyOf f u.commands) hmem
    rw [owner_enter _ (fun heq => hne (heq ▸ hf))] at howner
    rwa [howner]
  · intro hmem
    refine ⟨l.owner, ?_, hmem⟩
    by_contra hnot
    rw [bodyOf_eq_nil hnot] at hmem
    cases hmem

theorem nodup_made_iff (hne : "" ∉ functionNames u.commands)
    (h : (functionNames u.commands).Nodup) :
    u.made.Nodup ↔ ∀ l ∈ madeFrom u.start (topLevel u.commands),
      l ∉ madeFrom (u.start.enter u.name) (bodyOf u.name u.commands) := by
  have hbodies : ((functionNames u.commands).flatMap fun f =>
      madeFrom (u.start.enter f) (bodyOf f u.commands)).Nodup := by
    rw [List.nodup_flatMap]
    refine ⟨fun f hf => nodup_madeFrom_section _ (functionNames_bodyOf f u.commands), ?_⟩
    apply h.imp_of_mem
    intro f g hf hg hfg l hl hl'
    have howner := owner_of_mem_madeFrom (functionNames_bodyOf f u.commands) hl
    have howner' := owner_of_mem_madeFrom (functionNames_bodyOf g u.commands) hl'
    rw [owner_enter _ (fun heq => hne (heq ▸ hf))] at howner
    rw [owner_enter _ (fun heq => hne (heq ▸ hg))] at howner'
    exact hfg (howner.symm.trans howner')
  have htop := nodup_madeFrom_section u.start (functionNames_topLevel u.commands)
  rw [u.made_eq h, List.nodup_append', and_iff_right htop, and_iff_right hbodies]
  refine forall₂_congr ?_
  intro l hl
  have howner : l.owner = u.name :=
    owner_of_mem_madeFrom (functionNames_topLevel u.commands) hl
  rw [mem_flatMap_bodies hne, howner]

theorem nodup_made_iff_apart (hne : "" ∉ functionNames u.commands)
    (h : (functionNames u.commands).Nodup) :
    u.made.Nodup ↔
      (callCount (topLevel u.commands) = 0 ∨ callCount (bodyOf u.name u.commands) = 0) ∧
      ∀ (i : Nat) (o : Operator), (comparisonsOf (topLevel u.commands))[i]? = some o →
        (comparisonsOf (bodyOf u.name u.commands))[i]? ≠ some o := by
  have htop := functionNames_topLevel u.commands
  have hbody := functionNames_bodyOf u.name u.commands
  rw [nodup_made_iff hne h]
  constructor
  · intro hdisjoint
    constructor
    · -- Otherwise the first return label is made twice.
      by_contra hcalls
      rw [not_or] at hcalls
      refine hdisjoint ⟨u.name, .back, 1⟩ ?_ ?_
      · rw [back_mem_madeFrom htop]
        exact ⟨rfl, Int.le_refl 1, by simp only [start]; omega⟩
      · rw [back_mem_madeFrom hbody, owner_enter_name]
        exact ⟨rfl, Int.le_refl 1, by simp only [Naming.enter]; omega⟩
    · intro i o hi hi'
      refine hdisjoint ⟨u.name, .whenTrue o, 1 + i⟩ ?_ ?_
      · rw [compared_mem_madeFrom htop rfl]
        exact ⟨rfl, i, hi, rfl⟩
      · rw [compared_mem_madeFrom hbody rfl, owner_enter_name]
        exact ⟨rfl, i, hi', rfl⟩
  · rintro ⟨hcalls, hcomparisons⟩ l hl hl'
    cases hmark : l.mark.comparison? with
    | none =>
      obtain ⟨owner, mark, k⟩ := l
      cases mark with
      | back =>
        obtain ⟨-, hone, hlt⟩ := (back_mem_madeFrom htop owner k).mp hl
        obtain ⟨-, -, hlt'⟩ := (back_mem_madeFrom hbody owner k).mp hl'
        simp only [start, Naming.enter] at hone hlt hlt'
        omega
      | _ => cases hmark
    | some o =>
      obtain ⟨-, i, hi, hnumber⟩ := (compared_mem_madeFrom htop hmark).mp hl
      obtain ⟨-, j, hj, hnumber'⟩ := (compared_mem_madeFrom hbody hmark).mp hl'
      have hij : j = i := by
        simp only [start, Naming.enter] at hnumber hnumber'
        omega
      rw [hij] at hj
      exact hcomparisons i o hi hj

theorem back_mem_made_iff (hne : "" ∉ functionNames u.commands)
    (h : (functionNames u.commands).Nodup) {f : String} (hf : f ≠ "") (k : Int) :
    ⟨f, .back, k⟩ ∈ u.made ↔ 1 ≤ k ∧ k ≤ returnLabels u.name u.commands f := by
  rw [u.made_eq h, List.mem_append, mem_flatMap_bodies hne,
    back_mem_madeFrom (functionNames_topLevel u.commands),
    back_mem_madeFrom (functionNames_bodyOf f u.commands), owner_enter _ hf, owner_start,
    returnLabels]
  simp only [start, Naming.enter, true_and]
  by_cases hname : f = u.name
  · rw [if_pos hname, and_iff_right hname]
    omega
  · rw [if_neg hname]
    simp only [hname, false_and, false_or]
    omega

theorem mem_names_iff (h : (functionNames u.commands).Nodup) {name : String × String}
    (hname : name.1 ≠ "") :
    name ∈ u.names ↔ name.2 ∈ ownLabels (bodyOf name.1 u.commands) := by
  obtain ⟨f, l⟩ := name
  have hfirst : ∀ l' : String, ("", l') ≠ (f, l) := fun l' heq => hname (congrArg Prod.fst heq).symm
  rw [u.names_eq h, List.mem_append, List.mem_append, List.mem_flatMap]
  constructor
  · rintro (hentry | htop | ⟨g, -, hbody⟩)
    · obtain ⟨l', -, heq⟩ := List.mem_map.mp hentry
      exact absurd heq (hfirst l')
    · obtain ⟨l', -, heq⟩ := List.mem_map.mp htop
      exact absurd heq (hfirst l')
    · obtain ⟨l', hl', heq⟩ := List.mem_map.mp hbody
      cases heq
      exact hl'
  · intro hl
    refine .inr (.inr ⟨f, ?_, List.mem_map_of_mem hl⟩)
    by_contra hnot
    rw [bodyOf_eq_nil hnot] at hl
    cases hl

theorem isGiven_of_mem_names (hsymbolic : ∀ c ∈ u.commands, c.Symbolic)
    (h : (functionNames u.commands).Nodup) {name : String × String} (hmem : name ∈ u.names) :
    IsGiven name := by
  rw [u.names_eq h, List.mem_append, List.mem_append, List.mem_flatMap] at hmem
  rcases hmem with hentry | htop | ⟨f, hf, hbody⟩
  · obtain ⟨f, hf, rfl⟩ := List.mem_map.mp hentry
    exact ⟨List.not_mem_nil, dollar_not_mem_functionName hsymbolic hf⟩
  · obtain ⟨l, hl, rfl⟩ := List.mem_map.mp htop
    exact ⟨List.not_mem_nil, dollar_not_mem_ownLabel hsymbolic (topLevel_subset _) hl⟩
  · obtain ⟨l, hl, rfl⟩ := List.mem_map.mp hbody
    exact ⟨dollar_not_mem_functionName hsymbolic hf,
      dollar_not_mem_ownLabel hsymbolic (bodyOf_subset f _) hl⟩

/-- The labels of a unit are distinct if and only if nothing clashes. -/
theorem nodup_labelNames_iff (hsymbolic : ∀ c ∈ u.commands, c.Symbolic)
    (h : NamesApart u.commands) :
    (labelNames u.lines).Nodup ↔ ClashFree u.name u.commands := by
  have hne := functionName_ne_empty hsymbolic
  have hgiven : ∀ {name : String × String}, name ∈ u.names → IsGiven name :=
    fun hmem => isGiven_of_mem_names hsymbolic h.functions hmem
  have hnames : (u.names.map symbolOf).Nodup := by
    refine List.Nodup.map_on ?_ (nodup_names hne h)
    intro name hname name' hname' heq
    exact symbolOf_inj (hgiven hname) (hgiven hname') heq
  have hmade : (u.made.map MadeLabel.symbol).Nodup ↔ u.made.Nodup :=
    List.nodup_map_iff fun l l' heq => MadeLabel.symbol_inj heq
  rw [(labelNames_lines_perm u).nodup_iff, List.nodup_append', and_iff_right hnames, hmade,
    nodup_made_iff_apart hne h.functions]
  constructor
  · rintro ⟨⟨hcalls, hcomparisons⟩, hdisjoint⟩
    refine ⟨?_, hcalls, hcomparisons⟩
    intro f k hone hk hl
    have hf : f ≠ "" := by
      rintro rfl
      rw [bodyOf_eq_nil hne] at hl
      cases hl
    have hname : (f, "ret." ++ toString k) ∈ u.names := (mem_names_iff h.functions hf).mpr hl
    have hlabel : ⟨f, .back, k⟩ ∈ u.made :=
      (back_mem_made_iff hne h.functions hf k).mpr ⟨hone, hk⟩
    refine hdisjoint (List.mem_map_of_mem hname) ?_
    rw [(symbolOf_eq_symbol_iff (hgiven hname)).mpr ⟨hf, k, rfl, rfl⟩]
    exact List.mem_map_of_mem hlabel
  · rintro ⟨hreturns, hcalls, hcomparisons⟩
    refine ⟨⟨hcalls, hcomparisons⟩, ?_⟩
    intro symbol hsymbol hsymbol'
    obtain ⟨name, hname, rfl⟩ := List.mem_map.mp hsymbol
    obtain ⟨l, hl, heq⟩ := List.mem_map.mp hsymbol'
    obtain ⟨hf, k, rfl, hsecond⟩ := (symbolOf_eq_symbol_iff (hgiven hname)).mp heq.symm
    obtain ⟨hone, hk⟩ := (back_mem_made_iff hne h.functions hf k).mp hl
    refine hreturns name.1 k hone hk ?_
    rw [← hsecond]
    exact (mem_names_iff h.functions hf).mp hname

end SourceUnit

/-! ## Texts -/

/-- For a text whose own names are apart, the labels in the translation are distinct if and
only if none of the two clashes happens. -/
theorem labels_distinct_iff {text : List Char} {file : String} {w : Writer} {tally : Tally}
    {p : Program} (htranslated : translateSource text file {} = (w, .ok tally))
    (hread : readProgram text = .ok p) (hapart : NamesApart p.commands) :
    (labelNames w.output.lines).Nodup ↔ ClashFree (unitLabel file) p.commands := by
  obtain ⟨p', hread', hlines, -⟩ := translateSource_eq_ok htranslated
  rw [hread] at hread'
  cases hread'
  rw [hlines]
  exact SourceUnit.nodup_labelNames_iff (symbolic_of_readProgram hread) hapart

/-- A function that calls itself behind a label. -/
def callingText : List Char := "function f 0\nlabel a\ncall f 0\n".toList

def callingCommands : List Command := [.function "f" 0, .label "a", .call "f" 0]

theorem labels_distinct_iff_calling :
    (labelNames (translateSource callingText "Test.vm" {}).1.output.lines).Nodup ∧
      ClashFree (unitLabel "Test.vm") callingCommands := by
  have htranslated : translateSource callingText "Test.vm" {} =
      ((translateSource callingText "Test.vm" {}).1, .ok ⟨3, []⟩) :=
    Prod.ext rfl (eq_ok_of_toOption (by decide +kernel))
  have hread : readProgram callingText = .ok ⟨callingCommands, []⟩ :=
    eq_ok_of_toOption (by decide +kernel)
  have hapart : NamesApart callingCommands := by decide
  have hdistinct : (labelNames (translateSource callingText "Test.vm" {}).1.output.lines).Nodup := by
    decide +kernel
  exact ⟨hdistinct, (labels_distinct_iff htranslated hread hapart).mp hdistinct⟩

/-- The same function, with the label written like the return label of the call. -/
def clashingText : List Char := "function f 0\nlabel ret.1\ncall f 0\n".toList

def clashingCommands : List Command := [.function "f" 0, .label "ret.1", .call "f" 0]

/-- It is translated without issues, and one label is defined twice. -/
theorem labels_clash :
    translateSource clashingText "Test.vm" {} =
        ((translateSource clashingText "Test.vm" {}).1, .ok ⟨3, []⟩) ∧
      readProgram clashingText = .ok ⟨clashingCommands, []⟩ ∧ NamesApart clashingCommands ∧
      ¬ (labelNames (translateSource clashingText "Test.vm" {}).1.output.lines).Nodup := by
  refine ⟨Prod.ext rfl (eq_ok_of_toOption (by decide +kernel)),
    eq_ok_of_toOption (by decide +kernel), by decide, ?_⟩
  decide +kernel

end VmToHack
