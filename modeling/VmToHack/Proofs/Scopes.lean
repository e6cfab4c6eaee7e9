import VmToHack.Proofs.ClosedOutput
import VmToHack.Proofs.LoadedNumbers
import VmToHack.Proofs.StaticCells
set_option autoImplicit false

/-!
# Scopes: jumps stay inside their function

The function around a command is the last one that begins in front of it, which a reader of the
text sees without knowing anything of names (`enclosing?`).  The names that lowering carries along
are at every command in the scope of that function (`function_foldl_after`).

A symbol can be taken apart again into the function and the label (`symbolOf_inj`).  So a jump
loads the symbol that a label defines exactly if both are written with the same word in the same
function, and a label inside a function has a symbol that only a return label could share.
-/

namespace VmToHack

open VmToHack.Hack VmToHack.Text

/-! ## The function around a command -/

/-- The function around the command with an index: the last one that begins in front of it. -/
def enclosing? (cs : List Command) (i : Nat) : Option String :=
  (functionNames (cs.take i)).getLast?

theorem function_foldl_after (n : Naming) (cs : List Command) :
    (cs.foldl Naming.after n).function = (functionNames cs).getLast?.getD n.function := by
  induction cs generalizing n with
  | nil => rfl
  | cons c cs ih =>
    rw [List.foldl_cons, ih]
    cases hf : c.function? with
    | none => rw [functionNames_cons_of_none hf, function_after_of_none hf]
    | some f =>
      rw [functionNames_cons_of_some hf, after_of_function? n hf, List.getLast?_cons]
      rfl

theorem getElem?_sites (n : Naming) (cs : List Command) (i : Nat) :
    (sites n cs)[i]? = cs[i]?.map fun c => ⟨(cs.take i).foldl Naming.after n, c⟩ := by
  induction cs generalizing n i with
  | nil => rfl
  | cons c cs ih =>
    rw [sites_cons]
    cases i with
    | zero => rfl
    | succ i => exact ih (n.after c) i

theorem mem_functionNames_of_enclosing? {cs : List Command} {i : Nat} {f : String}
    (h : enclosing? cs i = some f) : f ∈ functionNames cs :=
  ((List.take_sublist i cs).filterMap _).subset (List.mem_of_getLast? h)

section Symbolic

variable {cs : List Command} (hsymbolic : ∀ c ∈ cs, c.Symbolic)

include hsymbolic

/-- No function is called by the empty word, which stands for none. -/
theorem enclosing?_ne_empty (i : Nat) : enclosing? cs i ≠ some "" := fun h =>
  functionName_ne_empty hsymbolic (mem_functionNames_of_enclosing? h)

theorem enclosing?_getD_inj {i j : Nat}
    (h : (enclosing? cs i).getD "" = (enclosing? cs j).getD "") :
    enclosing? cs i = enclosing? cs j := by
  have hi := enclosing?_ne_empty hsymbolic i
  have hj := enclosing?_ne_empty hsymbolic j
  cases hfirst : enclosing? cs i <;> cases hsecond : enclosing? cs j <;> simp_all

theorem isGiven_enclosing? {c : Command} {l : String} (hc : c ∈ cs) (hl : c.labelName? = some l)
    (i : Nat) : IsGiven ((enclosing? cs i).getD "", l) := by
  refine ⟨?_, (hsymbolic c hc l hl).dollar_not_mem⟩
  cases hi : enclosing? cs i with
  | none => exact List.not_mem_nil
  | some f =>
    exact dollar_not_mem_functionName hsymbolic (mem_functionNames_of_enclosing? hi)

end Symbolic

/-! ## Jumps and labels -/

/-- The label to which a command jumps. -/
def Command.target? : Command → Option String
  | .goto name => some name
  | .ifGoto name => some name
  | _ => none

/-- The symbols to which some lines jump, each of which is loaded right in front of its jump. -/
def jumpTargets : List Line → List String
  | .symbol name :: .compute _ _ (some _) :: lines => name :: jumpTargets lines
  | _ :: lines => jumpTargets lines
  | [] => []

theorem jumpTargets_site {s : Site} {l : String} (h : s.command.target? = some l) :
    jumpTargets s.lines = [symbolOf (s.naming.function, l)] := by
  obtain ⟨n, c⟩ := s
  cases c with
  | goto name =>
    cases h
    rfl
  | ifGoto name =>
    cases h
    rfl
  | _ => cases h

theorem labelNames_site_of_label? {s : Site} {l : String} (h : s.command.label? = some l) :
    labelNames s.lines = [symbolOf (s.naming.function, l)] := by
  obtain ⟨n, c⟩ := s
  cases c with
  | label name =>
    cases h
    rfl
  | _ => cases h

theorem Command.labelName?_of_target? {c : Command} {l : String} (h : c.target? = some l) :
    c.labelName? = some l := by
  cases c <;> first | exact h | cases h

theorem Command.labelName?_of_function? {c : Command} {f : String} (h : c.function? = some f) :
    c.labelName? = some f := by
  cases c <;> first | exact h | cases h

theorem Command.labelName?_of_label? {c : Command} {l : String} (h : c.label? = some l) :
    c.labelName? = some l := by
  cases c <;> first | exact h | cases h

/-- If a site defines the symbol of a label inside a function, then it is given the same label in
the same function, or it is a call. -/
theorem eq_label_or_isCall_of_mem {s : Site} {name : String × String} (hname : IsGiven name)
    (hinside : name.1 ≠ "")
    (hgiven : ∀ l, s.command.labelName? = some l → IsGiven (s.naming.function, l))
    (h : symbolOf name ∈ labelNames s.lines) :
    s.command.label? = some name.2 ∧ s.naming.function = name.1 ∨ s.command.isCall = true := by
  rw [labelNames_site, List.map_append, List.mem_append, List.mem_append] at h
  obtain (hentry | hown) | hmade := h
  · obtain ⟨f, hf, hsymbol⟩ : ∃ f, s.command.function? = some f ∧
        symbolOf ("", f) = symbolOf name := by
      simpa [Site.entry] using hentry
    have hfunction : IsGiven ("", f) :=
      ⟨List.not_mem_nil, (hgiven f (Command.labelName?_of_function? hf)).2⟩
    exact absurd (congrArg Prod.fst (symbolOf_inj hfunction hname hsymbol)).symm hinside
  · obtain ⟨l, hl, hsymbol⟩ : ∃ l, s.command.label? = some l ∧
        symbolOf (s.naming.function, l) = symbolOf name := by
      simpa [Site.ownLabel] using hown
    left
    rw [← symbolOf_inj (hgiven l (Command.labelName?_of_label? hl)) hname hsymbol]
    exact ⟨hl, rfl⟩
  · obtain ⟨made, hmade, hsymbol⟩ := List.mem_map.mp hmade
    obtain ⟨-, k, rfl, -⟩ := (symbolOf_eq_symbol_iff hname).mp hsymbol.symm
    obtain ⟨mark, hmark, heq⟩ := List.mem_map.mp hmade
    obtain rfl : mark = .back := congrArg MadeLabel.mark heq
    exact .inr ((back_mem_marks s.command).mp hmark)

/-! ## Blocks in scope -/

/-- What the blocks of some commands jump to and define. -/
structure Scoped (cs : List Command) (blocks : List (List Line)) : Prop where
  /-- Each command has one block, with its text as the header. -/
  headers : blocks.map List.head? = cs.map fun c => some (.comment c.text)
  /-- A jump loads one symbol and a label defines one.  They are the same exactly if the words and
  the functions around are. -/
  resolves : ∀ {i j : Nat} {c c' : Command} {block block' : List Line} {l m : String},
    (cs.zip blocks)[i]? = some (c, block) → c.target? = some l →
    (cs.zip blocks)[j]? = some (c', block') → c'.label? = some m →
    ∃ x y, jumpTargets block = [x] ∧ labelNames block' = [y] ∧
      (x = y ↔ l = m ∧ enclosing? cs i = enclosing? cs j)
  /-- A label inside a function is never defined by a function's start, by a comparison or by a
  label outside. -/
  apart : ∀ {i j : Nat} {c c' : Command} {block block' : List Line},
    (cs.zip blocks)[i]? = some (c, block) → c.label?.isSome → (enclosing? cs i).isSome →
    (cs.zip blocks)[j]? = some (c', block') →
    c'.function?.isSome ∨ c'.comparison?.isSome ∨ c'.label?.isSome ∧ enclosing? cs j = none →
    (labelNames block).Disjoint (labelNames block')

/-- The site of the command with an index, in a unit that begins outside any function. -/
def siteAt (unit : String) (cs : List Command) (i : Nat) (c : Command) : Site :=
  ⟨(cs.take i).foldl Naming.after { unit := unit }, c⟩

theorem function_siteAt (unit : String) (cs : List Command) (i : Nat) (c : Command) :
    (siteAt unit cs i c).naming.function = (enclosing? cs i).getD "" :=
  function_foldl_after { unit := unit } (cs.take i)

theorem block_of_zip {unit : String} {cs : List Command} {i : Nat} {c : Command}
    {block : List Line}
    (h : (cs.zip ((sites { unit := unit } cs).map Site.lines))[i]? = some (c, block)) :
    c ∈ cs ∧ block = (siteAt unit cs i c).lines := by
  obtain ⟨hc, hblock⟩ := List.getElem?_zip_eq_some.mp h
  rw [List.getElem?_map, getElem?_sites, hc] at hblock
  exact ⟨List.mem_of_getElem? hc, (Option.some.inj hblock).symm⟩

/-- What is written for commands whose names are symbols is in scope, whatever the unit. -/
theorem scoped_sites (unit : String) {cs : List Command} (hsymbolic : ∀ c ∈ cs, c.Symbolic) :
    Scoped cs ((sites { unit := unit } cs).map Site.lines) := by
  have hgiven : ∀ {i c l}, c ∈ cs → c.labelName? = some l →
      IsGiven ((siteAt unit cs i c).naming.function, l) := by
    intro i c l hc hl
    rw [function_siteAt]
    exact isGiven_enclosing? hsymbolic hc hl i
  constructor
  case headers =>
    have hhead : ∀ s : Site, s.lines.head? = some (.comment s.command.text) := by
      intro s
      obtain ⟨rest, hlines, -⟩ := s.comments_iff
      rw [hlines, List.head?_cons]
    conv_rhs => rw [← map_command_sites { unit := unit } cs, List.map_map]
    rw [List.map_map]
    exact List.map_congr_left fun s _ => hhead s
  case resolves =>
    intro i j c c' block block' l m hi hl hj hm
    obtain ⟨hc, rfl⟩ := block_of_zip hi
    obtain ⟨hc', rfl⟩ := block_of_zip hj
    refine ⟨_, _, jumpTargets_site hl, labelNames_site_of_label? hm, ?_⟩
    constructor
    · intro h
      have hname := symbolOf_inj (hgiven hc (Command.labelName?_of_target? hl))
        (hgiven hc' (Command.labelName?_of_label? hm)) h
      simp only [Prod.mk.injEq, function_siteAt] at hname
      exact ⟨hname.2, enclosing?_getD_inj hsymbolic hname.1⟩
    · rintro ⟨rfl, hscope⟩
      rw [function_siteAt, function_siteAt, hscope]
  case apart =>
    intro i j c c' block block' hi hl hinside hj hother
    obtain ⟨hc, rfl⟩ := block_of_zip hi
    obtain ⟨hc', rfl⟩ := block_of_zip hj
    obtain ⟨l, hl⟩ := Option.isSome_iff_exists.mp hl
    obtain ⟨f, hf⟩ := Option.isSome_iff_exists.mp hinside
    have hne : (siteAt unit cs i c).naming.function ≠ "" := by
      rw [function_siteAt, hf]
      rintro rfl
      exact enclosing?_ne_empty hsymbolic i hf
    rw [labelNames_site_of_label? hl, List.singleton_disjoint]
    intro hmem
    rcases eq_label_or_isCall_of_mem (hgiven hc (Command.labelName?_of_label? hl)) hne
      (fun m hm => hgiven hc' hm) hmem with ⟨hlabel, hscope⟩ | hcall
    · cases c' with
      | label name =>
        rcases hother with h | h | ⟨-, houtside⟩
        · cases h
        · cases h
        · rw [function_siteAt, houtside] at hscope
          exact hne hscope.symm
      | _ => cases hlabel
    · cases c' with
      | call name args => rcases hother with h | h | ⟨h, -⟩ <;> cases h
      | _ => cases hcall

/-! ## Translated texts -/

theorem symbolic_of_mem_writtenCommands {text : List Char} {c : Command}
    (h : c ∈ writtenCommands text) : c.Symbolic := by
  obtain ⟨line, -, hline⟩ := List.mem_filterMap.mp h
  exact symbolic_of_readLine (command?_eq_some_iff.mp hline)

theorem blocks_translateSource (file : String) (text : List Char) :
    (translateSource text file {}).1.output.blocks.toList =
      (sites { unit := unitLabel file } (writtenCommands text)).map Site.lines := by
  rw [writer_translateSource]
  exact blocks_writeAll { unit := unitLabel file } #[] _

/-- An output with room for so many blocks takes the first ones. -/
theorem blocks_translateSource_limited (file : String) (text : List Char) (limit : Nat) :
    (translateSource text file { room := some limit }).1.output.blocks.toList =
      (translateSource text file {}).1.output.blocks.toList.take limit := by
  have hcut : PassCut limit (translateSource text file {})
      (translateSource text file { room := some limit }) :=
    passCut_translateLines (cutAt_start limit _) (Nat.zero_le _) file _
  by_cases hfits : (translateSource text file {}).1.output.blocks.size ≤ limit
  · rw [(hcut.fits hfits).2.1, List.take_of_length_le (by simpa using hfits)]
  · exact (hcut.stops (by omega)).1

theorem take_map_sites (n : Naming) (cs : List Command) (limit : Nat) :
    ((sites n cs).map Site.lines).take limit = (sites n (cs.take limit)).map Site.lines := by
  induction cs generalizing n limit with
  | nil => rw [List.take_nil, sites, List.map_nil, List.take_nil]
  | cons c cs ih =>
    cases limit with
    | zero => rfl
    | succ limit =>
      rw [List.take_succ_cons, sites_cons, sites_cons, List.map_cons, List.map_cons,
        List.take_succ_cons, ih]

/-- Whatever the text and the name of its file are, jumps and labels find each other inside a
function and never across its bounds; also if the output takes a limited number of blocks. -/
theorem jumps_resolve_in_function (text : List Char) (file : String) :
    Scoped (writtenCommands text) (translateSource text file {}).1.output.blocks.toList ∧
      ∀ limit, Scoped ((writtenCommands text).take limit)
        (translateSource text file { room := some limit }).1.output.blocks.toList := by
  have hsymbolic : ∀ c ∈ writtenCommands text, c.Symbolic :=
    fun c hc => symbolic_of_mem_writtenCommands hc
  rw [blocks_translateSource]
  refine ⟨scoped_sites _ hsymbolic, fun limit => ?_⟩
  rw [blocks_translateSource_limited, blocks_translateSource, take_map_sites]
  exact scoped_sites _ fun c hc => hsymbolic c (List.mem_of_mem_take hc)

example : (translateSource "label a\nfunction f 0\nlabel a\ngoto a\n".toList "Main.vm"
    {}).1.output.blocks.toList.map (fun block => (jumpTargets block, labelNames block)) =
      [([], ["a"]), ([], ["f"]), ([], ["f$a"]), (["f$a"], [])] := by decide +kernel

end VmToHack
