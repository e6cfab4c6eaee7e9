import VmToHack.Proofs.CodeLines
import VmToHack.Proofs.InertLines
import VmToHack.Proofs.Spelling
set_option autoImplicit false

/-!
# Assembly text: everything written is assembly

The assembly language as it is written, said of texts and without the printer: `IsAssembly`.
Symbols are put together from names of the source, the name of the file and numbers, so they are
symbols as long as the names that a unit goes on with are (`Naming.IsNamed`); a command keeps that,
and a unit therefore has it throughout.  `output_is_assembly` is what follows for a translation:
every line is assembly, and each command has one block, which begins with its header.
-/

namespace VmToHack

open VmToHack.Grammar VmToHack.Hack VmToHack.Text

/-! ## The language -/

namespace Hack

/-- The characters of symbols. -/
def isNameChar (c : Char) : Bool := c.isAlphanum || ['_', '.', ':', '$'].contains c

/-- A symbol: not empty, and its first character is no digit. -/
def IsAssemblyName (cs : List Char) : Prop :=
  cs.all isNameChar = true ∧ cs.head?.any (fun c => !isDigit c) = true

instance : DecidablePred IsAssemblyName := fun cs =>
  inferInstanceAs (Decidable (cs.all isNameChar = true ∧ cs.head?.any (fun c => !isDigit c) = true))

/-- The destinations of the instruction set. -/
def destinations : List String := ["M", "D", "MD", "A", "AM", "AD", "AMD"]

/-- The computations of the instruction set. -/
def computations : List String :=
  ["0", "1", "-1", "D", "A", "M", "!D", "!A", "!M", "-D", "-A", "-M", "D+1", "A+1", "M+1", "D-1",
    "A-1", "M-1", "D+A", "D+M", "D-A", "D-M", "A-D", "M-D", "D&A", "D&M", "D|A", "D|M"]

/-- The jumps of the instruction set. -/
def jumps : List String := ["JGT", "JEQ", "JGE", "JLT", "JNE", "JLE", "JMP"]

/-- A line of assembly, without the line feed that ends it. -/
inductive IsAssembly : String → Prop where
  | comment {words : String} (h : ∀ c ∈ words.toList, isLineBreak c = false) :
      IsAssembly ("// " ++ words)
  | label {name : String} (h : IsAssemblyName name.toList) : IsAssembly ("(" ++ name ++ ")")
  | symbol {name : String} (h : IsAssemblyName name.toList) : IsAssembly ("@" ++ name)
  | number {digits : String} (h : Numeral digits.toList) : IsAssembly ("@" ++ digits)
  | store {dest comp : String} (hdest : dest ∈ destinations) (hcomp : comp ∈ computations) :
      IsAssembly (dest ++ "=" ++ comp)
  | jump {comp jump : String} (hcomp : comp ∈ computations) (hjump : jump ∈ jumps) :
      IsAssembly (comp ++ ";" ++ jump)
  | storeJump {dest comp jump : String} (hdest : dest ∈ destinations)
      (hcomp : comp ∈ computations) (hjump : jump ∈ jumps) :
      IsAssembly (dest ++ "=" ++ comp ++ ";" ++ jump)

/-- A line that begins like a comment. -/
def IsComment (text : String) : Prop := ['/', '/'] <+: text.toList

end Hack

/-! ## Symbols -/

theorem isNameChar_of_isSymbolChar {c : Char} (h : isSymbolChar c = true) :
    isNameChar c = true := by
  simp only [isSymbolChar, isSymbolStart, isDigit, Bool.or_eq_true, Bool.and_eq_true,
    decide_eq_true_eq] at h
  rcases h with ((((hupper | hlower) | rfl) | rfl) | rfl) | hdigit
  · have hupper : c.isUpper = true := decide_eq_true hupper
    have halpha : c.isAlpha = true := Bool.or_eq_true_iff.mpr (.inl hupper)
    simp [isNameChar, Char.isAlphanum, halpha]
  · have hlower : c.isLower = true :=
      Bool.and_eq_true_iff.mpr ⟨decide_eq_true hlower.1, decide_eq_true hlower.2⟩
    have halpha : c.isAlpha = true := Bool.or_eq_true_iff.mpr (.inr hlower)
    simp [isNameChar, Char.isAlphanum, halpha]
  · decide
  · decide
  · decide
  · have hdigit : c.isDigit = true := by
      simpa [Char.isDigit, Char.le_def] using hdigit
    simp [isNameChar, Char.isAlphanum, hdigit]

theorem isAssemblyName_of_symbolWord {name : List Char} (h : SymbolWord name) :
    IsAssemblyName name := by
  cases h with
  | mk hc hcs =>
    refine ⟨List.all_eq_true.mpr (List.forall_mem_cons.mpr ⟨?_, ?_⟩), ?_⟩
    · exact isNameChar_of_isSymbolChar (by rw [isSymbolChar, hc, Bool.true_or])
    · exact fun x hx => isNameChar_of_isSymbolChar (hcs x hx)
    · simp [isDigit_eq_false_of_isSymbolStart hc]

/-- A symbol stays one if characters of symbols are put behind it. -/
theorem Hack.IsAssemblyName.append {name rest : List Char} (h : IsAssemblyName name)
    (hrest : rest.all isNameChar = true) : IsAssemblyName (name ++ rest) := by
  obtain ⟨hchars, hfirst⟩ := h
  refine ⟨by rw [List.all_append, hchars, hrest]; rfl, ?_⟩
  cases name with
  | nil => cases hfirst
  | cons c cs => exact hfirst

theorem all_isNameChar_numeral {digits : List Char} (h : Numeral digits) :
    digits.all isNameChar = true := by
  have hdigit : ∀ c, isDigit c = true → isNameChar c = true := fun c hc =>
    isNameChar_of_isSymbolChar (by rw [isSymbolChar, hc, Bool.or_true])
  cases h with
  | mk hc hcs =>
    exact List.all_eq_true.mpr
      (List.forall_mem_cons.mpr ⟨hdigit _ hc, fun x hx => hdigit x (hcs x hx)⟩)

/-- A number that is not negative is written as a numeral. -/
theorem numeral_toString {k : Int} (h : 0 ≤ k) : Numeral (toString k).toList := by
  obtain ⟨n, rfl⟩ := Int.eq_ofNat_of_zero_le h
  exact numeral_numeralOf n

/-! ## The names of a unit -/

/-- The names that a unit goes on with are symbols, and its numbers are not negative. -/
structure Naming.IsNamed (n : Naming) : Prop where
  unit : IsAssemblyName n.unit.toList
  function : n.function = "" ∨ IsAssemblyName n.function.toList
  comparisons : 0 ≤ n.comparisons
  calls : 0 ≤ n.calls

namespace Naming.IsNamed

variable {n : Naming}

theorem owner (h : n.IsNamed) : IsAssemblyName n.owner.toList := by
  unfold Naming.owner
  split
  · exact h.unit
  · next hne => exact h.function.resolve_left hne

theorem next (h : n.IsNamed) (mark : Mark) : 0 ≤ n.next mark := by
  cases mark with
  | back => exact h.calls
  | whenTrue o => exact h.comparisons
  | whenDone o => exact h.comparisons

/-- What a command does to the names. -/
theorem after {c : Command} (h : n.IsNamed) (hc : c.Spellable) : (n.after c).IsNamed := by
  have hcalls := h.calls
  have hcomparisons := h.comparisons
  cases c with
  | function name locals =>
    exact ⟨h.unit, .inr (isAssemblyName_of_symbolWord hc.1), Int.one_nonneg, Int.one_nonneg⟩
  | call name args =>
    exact ⟨h.unit, h.function, hcomparisons, by simp only [Naming.after, afterCall]; omega⟩
  | arithmetic op =>
    simp only [Naming.after]
    split
    · exact ⟨h.unit, h.function, by simp only [afterComparison]; omega, hcalls⟩
    · exact h
  | _ => exact h

end Naming.IsNamed

/-- Through a unit the names stay symbols. -/
theorem isNamed_of_mem_sites {n : Naming} {cs : List Command} (hn : n.IsNamed)
    (hcs : ∀ c ∈ cs, c.Spellable) {s : Site} (hs : s ∈ sites n cs) : s.naming.IsNamed := by
  induction cs generalizing n with
  | nil => cases hs
  | cons c cs ih =>
    obtain ⟨hc, hrest⟩ := List.forall_mem_cons.mp hcs
    rw [sites_cons] at hs
    rcases List.mem_cons.mp hs with rfl | hs
    · exact hn
    · exact ih (hn.after hc) hrest hs

/-! ## The names in code -/

theorem Command.Spellable.isIndex_static {c : Command} {index : Int} (hc : c.Spellable)
    (h : c.staticIndex? = some index) : IsIndex index := by
  cases c with
  | push segment i =>
    obtain ⟨-, rfl⟩ := Option.ite_some_none_eq_some.mp h
    exact hc.2
  | pop segment i =>
    obtain ⟨-, rfl⟩ := Option.ite_some_none_eq_some.mp h
    exact hc.2
  | _ => cases h

theorem Command.Spellable.symbolWord {c : Command} {name : String} (hc : c.Spellable)
    (h : c.labelName? = some name) : SymbolWord name.toList := by
  cases c with
  | label l =>
    cases h
    exact hc
  | goto l =>
    cases h
    exact hc
  | ifGoto l =>
    cases h
    exact hc
  | function f locals =>
    cases h
    exact hc.1
  | call f args =>
    cases h
    exact hc.1
  | _ => cases h

theorem isAssemblyName_cell (x : Cell) : IsAssemblyName x.symbol.toList := by cases x <;> decide

/-- A made label is the name of its owner with characters of symbols behind it. -/
theorem MadeLabel.exists_toList_symbol (l : MadeLabel) (h : 0 ≤ l.number) :
    ∃ rest, l.symbol.toList = l.owner.toList ++ '$' :: rest ∧ rest.all isNameChar = true := by
  have hnumber := all_isNameChar_numeral (numeral_toString h)
  have hupper : ∀ o ∈ Operator.all, o.mnemonic.toUpper.toList.all isNameChar = true := by
    decide +kernel
  have hword : ∀ mark : Mark, mark.word.all isNameChar = true := by
    intro mark
    cases mark <;> rfl
  have htail : l.tail.all isNameChar = true := by
    rw [tail, List.all_append, hword, hnumber]
    rfl
  obtain ⟨owner, mark, number⟩ := l
  rw [toList_symbol]
  cases mark with
  | back => exact ⟨_, rfl, htail⟩
  | whenTrue o =>
    refine ⟨o.mnemonic.toUpper.toList ++ '$' :: _, by simp only [stem, List.append_assoc]; rfl, ?_⟩
    rw [List.all_append, hupper o (Operator.mem_all o), List.all_cons, htail]
    rfl
  | whenDone o =>
    refine ⟨o.mnemonic.toUpper.toList ++ '$' :: _, by simp only [stem, List.append_assoc]; rfl, ?_⟩
    rw [List.all_append, hupper o (Operator.mem_all o), List.all_cons, htail]
    rfl

/-- The names in the code of a command are symbols. -/
theorem CodeName.isAssemblyName {n : Naming} {c : Command} {name : String} (h : CodeName n c name)
    (hn : n.IsNamed) (hc : c.Spellable) : IsAssemblyName name.toList := by
  have hdollar : ∀ rest : List Char, rest.all isNameChar = true →
      ('$' :: rest).all isNameChar = true := by
    intro rest hrest
    rw [List.all_cons, hrest]
    rfl
  cases h with
  | cell x => exact isAssemblyName_cell x
  | @static index hindex =>
    have hdigits := all_isNameChar_numeral (numeral_toString (hc.isIndex_static hindex).1)
    show IsAssemblyName (staticSymbol (n.unit, index)).toList
    rw [toList_staticSymbol]
    exact hn.unit.append (by rw [List.all_cons, hdigits]; rfl)
  | given hname => exact isAssemblyName_of_symbolWord (hc.symbolWord hname)
  | @inScope label hname =>
    have hlabel := isAssemblyName_of_symbolWord (hc.symbolWord hname)
    unfold Naming.labelSymbol
    split
    · exact hlabel
    · next hne =>
      have hfunction := hn.function.resolve_left hne
      simp only [String.toList_append, List.append_assoc]
      exact hfunction.append (hdollar _ hlabel.1)
  | @made mark hmark =>
    obtain ⟨rest, htext, hrest⟩ := (n.label mark).exists_toList_symbol (hn.next mark)
    rw [htext]
    exact hn.owner.append (hdollar _ hrest)

theorem CodeNumber.nonneg {c : Command} {k : Int} (h : CodeNumber c k) (hc : c.Spellable) :
    0 ≤ k := by
  cases h with
  | index h =>
    rcases h with rfl | rfl
    · exact hc.2.1
    · exact hc.2.1
  | offset h => exact Int.natCast_nonneg _
  | @frame name args h =>
    subst h
    exact Int.add_nonneg hc.2.1 (Int.natCast_nonneg _)

/-! ## Lines as text -/

theorem comp_text_mem (comp : Comp) : comp.text ∈ computations := by
  cases comp with
  | operand y => cases y <;> decide
  | not y => cases y <;> decide
  | neg y => cases y <;> decide
  | inc y => cases y <;> decide
  | dec y => cases y <;> decide
  | add y => cases y <;> decide
  | sub y => cases y <;> decide
  | subFrom y => cases y <;> decide
  | and y => cases y <;> decide
  | or y => cases y <;> decide
  | _ => decide

theorem jump_text_mem (jump : Jump) : jump.text ∈ jumps := by cases jump <;> decide

theorem dest_text_mem {dest : Dest} (hne : dest ≠ {}) (hdest : dest.d = false ∨ dest.m = false) :
    dest.text ∈ destinations := by
  obtain ⟨a, d, m⟩ := dest
  revert hne hdest
  cases a <;> cases d <;> cases m <;> decide

/-- A computation as it is written. -/
theorem text_compute (dest : Dest) (comp : Comp) (jump : Option Jump) :
    (Line.compute dest comp jump).text =
      (if dest = {} then "" else dest.text ++ "=") ++ comp.text ++
        (jump.map fun j => ";" ++ j.text).getD "" := rfl

theorem isAssembly_compute {dest : Dest} {comp : Comp} {jump : Option Jump}
    (hused : dest ≠ {} ∨ jump ≠ none) (hdest : dest.d = false ∨ dest.m = false) :
    IsAssembly (Line.compute dest comp jump).text := by
  have hcomp := comp_text_mem comp
  rw [text_compute]
  by_cases hnone : dest = {}
  · rw [if_pos hnone]
    cases jump with
    | none => exact absurd hused (by simp [hnone])
    | some j =>
      have hjump := IsAssembly.jump hcomp (jump_text_mem j)
      simpa [String.append_assoc] using hjump
  · rw [if_neg hnone]
    have hstore := dest_text_mem hnone hdest
    cases jump with
    | none => simpa using IsAssembly.store hstore hcomp
    | some j =>
      have hjump := IsAssembly.storeJump hstore hcomp (jump_text_mem j)
      simpa [String.append_assoc] using hjump

theorem CodeLine.isAssembly {n : Naming} {c : Command} {l : Line} (h : CodeLine n c l)
    (hn : n.IsNamed) (hc : c.Spellable) : IsAssembly l.text := by
  cases h with
  | symbol hname => exact .symbol (hname.isAssemblyName hn hc)
  | number hk => exact .number (numeral_toString (hk.nonneg hc))
  | label hname => exact .label (hname.isAssemblyName hn hc)
  | compute hused hdest => exact isAssembly_compute hused hdest

/-- The character marks neither a comment nor a load. -/
def isUnmarked (c : Char) : Bool := c != '/' && c != '@'

/-- Computations are written without the marks of comments and loads. -/
theorem all_isUnmarked_compute (dest : Dest) (comp : Comp) (jump : Option Jump) :
    (Line.compute dest comp jump).text.toList.all isUnmarked = true := by
  have hdest : ∀ a d m : Bool, (if Dest.mk a d m = {} then ""
      else (Dest.mk a d m).text ++ "=").toList.all isUnmarked = true := by decide
  have hcomp : ∀ text ∈ computations, text.toList.all isUnmarked = true := by decide
  have hjump : ∀ text ∈ jumps, (";" ++ text).toList.all isUnmarked = true := by decide
  rw [text_compute]
  simp only [String.toList_append, List.all_append, Bool.and_eq_true]
  refine ⟨⟨hdest dest.a dest.d dest.m, hcomp _ (comp_text_mem comp)⟩, ?_⟩
  cases jump with
  | none => rfl
  | some j => simpa using hjump _ (jump_text_mem j)

theorem not_mem_text_compute {c : Char} (hc : isUnmarked c = false) (dest : Dest)
    (comp : Comp) (jump : Option Jump) : c ∉ (Line.compute dest comp jump).text.toList := by
  intro hmem
  rw [List.all_eq_true.mp (all_isUnmarked_compute dest comp jump) c hmem] at hc
  cases hc

theorem isComment_comment (words : String) : IsComment (Line.comment words).text := by
  simp [IsComment, Line.text]

/-- No line of code begins like a comment. -/
theorem CodeLine.not_isComment {n : Naming} {c : Command} {l : Line} (h : CodeLine n c l) :
    ¬ IsComment l.text := by
  cases h with
  | symbol hname => simp [IsComment, Line.text]
  | number hk => simp [IsComment, Line.text]
  | label hname => simp [IsComment, Line.text]
  | @compute dest comp jump =>
    rintro ⟨rest, hrest⟩
    apply not_mem_text_compute (c := '/') rfl dest comp jump
    rw [← hrest]
    exact List.mem_cons_self

/-! ## Blocks as text -/

/-- The remark for a push or a pop. -/
theorem remark_of_move {n : Naming} {segment : String} {index : Int} {c : Command} {r : Refusal}
    (hc : c = .push segment index ∨ c = .pop segment index) (h : c.code n = .error r) :
    r.remark c = "Invalid command: " ++ c.text := by
  have hplace : place n segment index = .error r → r.remark c = "Invalid command: " ++ c.text := by
    intro hp
    cases unplaced_of_place hp <;> rfl
  rcases hc with rfl | rfl
  · exact hplace (code_push_eq_error h)
  · rcases code_pop_eq_error h with hp | ⟨k, -, rfl⟩
    · exact hplace hp
    · rfl

/-- The remark for a command that the language has. -/
theorem remark_of_spellable {n : Naming} {c : Command} {r : Refusal} (hc : c.Spellable)
    (h : (c.block n).refusal = some r) : r.remark c = "Invalid command: " ++ c.text := by
  cases hcode : c.code n with
  | ok p =>
    obtain ⟨code, n'⟩ := p
    rw [block_of_code hcode] at h
    cases h
  | error r' =>
    rw [block_of_error hcode] at h
    cases h
    cases c with
    | arithmetic op =>
      obtain ⟨o, rfl⟩ := hc
      rw [Command.code, Operator.ofMnemonic?_mnemonic] at hcode
      cases hcode
    | push segment index => exact remark_of_move (.inl rfl) hcode
    | pop segment index => exact remark_of_move (.inr rfl) hcode
    | other name => exact absurd hc id
    | _ => cases hcode

/-- The lines of a command's block are assembly. -/
theorem Site.isAssembly {s : Site} (hn : s.naming.IsNamed) (hc : s.command.Spellable) :
    ∀ l ∈ s.lines, IsAssembly l.text := by
  have hheader : IsAssembly (Line.comment s.command.text).text := .comment hc.line.2
  cases hr : s.block.refusal with
  | none =>
    obtain ⟨code, hcode, hlines⟩ := code_of_refusal_eq_none hr
    have hlines : s.lines = .comment s.command.text :: code := hlines
    rw [hlines]
    exact List.forall_mem_cons.mpr
      ⟨hheader, fun l hl => (codeLine_of_mem_code hcode l hl).isAssembly hn hc⟩
  | some r =>
    rw [s.lines_of_refusal hr, remark_of_spellable hc hr]
    simp only [List.forall_mem_cons, List.not_mem_nil, IsEmpty.forall_iff, implies_true, and_true]
    have hwords : "Invalid command: ".toList.all (fun c => !isLineBreak c) = true := by decide
    refine ⟨hheader, .comment ?_⟩
    rw [String.toList_append]
    exact List.forall_mem_append.mpr
      ⟨fun c hmem => by simpa using List.all_eq_true.mp hwords c hmem, hc.line.2⟩

/-- A block begins with its header, and holds no other comment unless the command is refused. -/
theorem Site.comments_iff (s : Site) :
    ∃ rest, s.lines = .comment s.command.text :: rest ∧
      ((∃ l ∈ rest, IsComment l.text) ↔ s.block.refusal.isSome) := by
  cases hr : s.block.refusal with
  | none =>
    obtain ⟨code, hcode, hlines⟩ := code_of_refusal_eq_none hr
    refine ⟨code, hlines, iff_of_false ?_ (by simp)⟩
    rintro ⟨l, hl, hcomment⟩
    exact (codeLine_of_mem_code hcode l hl).not_isComment hcomment
  | some r =>
    exact ⟨_, s.lines_of_refusal hr,
      iff_of_true ⟨_, List.mem_cons_self, isComment_comment _⟩ rfl⟩

/-! ## The translation of a text -/

/-- The lines of a text that say a command, each with the command. -/
def commandLines (text : List Char) : List (SourceLine × Command) :=
  (numberedLines text).filterMap fun line => line.command?.map fun c => (line, c)

/-- The lines of a command's block: the header, and no other comment unless there is an issue at
the command's line. -/
structure IsBlockOf (issues : List Issue) (x : SourceLine × Command) (lines : List String) :
    Prop where
  header : ∃ rest, lines = ("// " ++ x.2.text) :: rest
  comments : (∃ l ∈ lines.tail, IsComment l) ↔ ∃ i ∈ issues, i.line = x.1.number

/-- An output that is assembly: lines that are each ended by a line feed, one block for each line
with a command. -/
structure IsAssemblyOutput (text : List Char) (output : Output) (issues : List Issue)
    (blocks : List (List String)) : Prop where
  rendered : output.text = renderTexts blocks.flatten
  assembly : ∀ l ∈ blocks.flatten, IsAssembly l
  blocks : List.Forall₂ (IsBlockOf issues) (commandLines text) blocks

theorem map_command_commandSites (n : Naming) (lines : List SourceLine) :
    (commandSites n lines).map (fun x => (x.1, x.2.command)) =
      lines.filterMap fun line => line.command?.map fun c => (line, c) := by
  induction lines generalizing n with
  | nil => rfl
  | cons line lines ih =>
    cases h : line.command? with
    | none => rw [commandSites_cons_none h, ih, List.filterMap_cons_none (by rw [h]; rfl)]
    | some c =>
      rw [commandSites_cons_some h, List.map_cons, ih, List.filterMap_cons_some (by rw [h]; rfl)]

theorem renderTexts_append (lines lines' : List String) :
    renderTexts (lines ++ lines') = renderTexts lines ++ renderTexts lines' := by
  unfold renderTexts
  rw [List.map_append, String.join_append]

/-- What is rendered block by block is rendered as a whole. -/
theorem text_eq (output : Output) :
    output.text = renderTexts (output.blocks.toList.map fun b => b.map Line.text).flatten := by
  unfold Output.text
  induction output.blocks.toList with
  | nil => rfl
  | cons b bs ih =>
    rw [List.map_cons, List.map_cons, List.flatten_cons, renderTexts_append, ← ih,
      String.join_cons]
    rfl

section

variable {file : String} {text : List Char}

/-- The commands of a text are translated with names that are symbols. -/
theorem isNamed_of_mem_commandSitesOf (h : Evaluable text)
    (hfile : IsAssemblyName (unitLabel file).toList) {x : SourceLine × Site}
    (hx : x ∈ commandSitesOf file text) : x.2.naming.IsNamed ∧ x.2.command.Spellable := by
  have hspellable : ∀ c ∈ (numberedLines text).filterMap SourceLine.command?, c.Spellable :=
    spellable_of_readProgram h ((readProgram_eq text).trans (readLines_eq h.readable))
  have hsite : x.2 ∈ sites { unit := unitLabel file }
      ((numberedLines text).filterMap SourceLine.command?) := by
    rw [← map_snd_commandSites]
    exact List.mem_map_of_mem hx
  have hstart : Naming.IsNamed { unit := unitLabel file } :=
    ⟨hfile, .inl rfl, Int.one_nonneg, Int.one_nonneg⟩
  exact ⟨isNamed_of_mem_sites hstart hspellable hsite,
    hspellable _ (command_mem_of_mem_sites hsite)⟩

theorem isBlockOf_site {x : SourceLine × Site} (hx : x ∈ commandSitesOf file text) :
    IsBlockOf (tallyOf file text).issues (x.1, x.2.command) (x.2.lines.map Line.text) := by
  obtain ⟨rest, hlines, hcomments⟩ := x.2.comments_iff
  rw [hlines, List.map_cons]
  refine ⟨⟨_, rfl⟩, ?_⟩
  rw [← isSome_refusal_iff file text hx, ← hcomments]
  simp

/-- Everything written is assembly.  Each line with a command has its block, in order, with the
command as its header, and other comments stand only in the blocks of commands with an issue. -/
theorem output_is_assembly (h : Evaluable text) (hfile : IsAssemblyName (unitLabel file).toList) :
    ∃ w tally blocks, translateSource text file {} = (w, .ok tally) ∧
      IsAssemblyOutput text w.output tally.issues blocks := by
  refine ⟨_, _, (commandSitesOf file text).map fun x => x.2.lines.map Line.text,
    translateSource_eq_of_evaluable file h, ?rendered, ?assembly, ?blocks⟩
  case rendered =>
    rw [text_eq, blocks_writerOf, List.map_map, List.map_map]
    rfl
  case assembly =>
    intro l hl
    obtain ⟨texts, htexts, hl⟩ := List.mem_flatten.mp hl
    obtain ⟨x, hx, rfl⟩ := List.mem_map.mp htexts
    obtain ⟨line, hline, rfl⟩ := List.mem_map.mp hl
    obtain ⟨hnamed, hspellable⟩ := isNamed_of_mem_commandSitesOf h hfile hx
    exact x.2.isAssembly hnamed hspellable line hline
  case blocks =>
    rw [commandLines, ← map_command_commandSites { unit := unitLabel file }, ← commandSitesOf,
      List.forall₂_map_left_iff, List.forall₂_map_right_iff, List.forall₂_same]
    exact fun x hx => isBlockOf_site hx

end

theorem output_is_assembly_mixed :
    Evaluable mixedText ∧ IsAssemblyName (unitLabel "Main.vm").toList ∧
    ∃ w tally blocks, translateSource mixedText "Main.vm" {} = (w, .ok tally) ∧
      IsAssemblyOutput mixedText w.output tally.issues blocks := by
  have h : Evaluable mixedText := evaluable_of_length_le (by decide)
  have hfile : IsAssemblyName (unitLabel "Main.vm").toList := by decide +kernel
  exact ⟨h, hfile, output_is_assembly h hfile⟩

end VmToHack
