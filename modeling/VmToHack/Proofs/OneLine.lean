import VmToHack.Proofs.AssemblyText
set_option autoImplicit false

/-!
# One line: names without line breaks

Names and commands may hold any text.  As long as none of these texts has a character that ends a
line (`Naming.Unbroken`, `Command.Unbroken`), each line of a block is written as one line of text
(`oneLine_block`), and the names that a unit goes on with have none either.  The commands of a
source have such texts, so what is written for it is lines of text, one for each, if only the name
of its file does not break a line (`splitLines_text`, `oneLine_of_mem_sites`).
-/

namespace VmToHack

open VmToHack.Grammar VmToHack.Hack VmToHack.Text

/-! ## Texts on one line -/

/-- A text without a character that ends a line. -/
def OneLine (text : String) : Prop := ∀ c ∈ text.toList, isLineBreak c = false

-- By its characters: there is an instance that looks at every character there is.
instance : DecidablePred OneLine := fun text =>
  decidable_of_iff (text.toList.all (fun c => !isLineBreak c) = true) (by simp [OneLine])

theorem oneLine_append {text text' : String} :
    OneLine (text ++ text') ↔ OneLine text ∧ OneLine text' := by
  unfold OneLine
  rw [String.toList_append, List.forall_mem_append]

theorem oneLine_toString (k : Int) : OneLine (toString k) := by
  have hdigit : ∀ c : Char, c.isDigit = true → isLineBreak c = false := by
    intro c hc
    obtain ⟨hlow, hhigh⟩ : 48 ≤ c.toNat ∧ c.toNat ≤ 57 := Char.isDigit_iff_toNat.mp hc
    rw [Bool.eq_false_iff]
    intro hbreak
    simp only [isLineBreak, Bool.or_eq_true, Bool.and_eq_true, decide_eq_true_eq, beq_iff_eq]
      at hbreak
    omega
  intro c hc
  by_cases hsign : c = '-'
  · rw [hsign]
    rfl
  · refine hdigit c (Bool.of_not_eq_false fun hother => ?_)
    exact not_mem_toList_toString hother hsign k hc

theorem oneLine_intercalate {texts : List String} (h : ∀ text ∈ texts, OneLine text) :
    OneLine (" ".intercalate texts) := by
  induction texts with
  | nil => exact fun c hc => absurd hc List.not_mem_nil
  | cons text texts ih =>
    obtain ⟨htext, htexts⟩ := List.forall_mem_cons.mp h
    cases texts with
    | nil => simpa using htext
    | cons text' texts =>
      rw [String.intercalate_cons_cons, oneLine_append, oneLine_append]
      exact ⟨⟨htext, by decide⟩, ih htexts⟩

/-- The unit and the function are named without line breaks. -/
structure Naming.Unbroken (n : Naming) : Prop where
  unit : OneLine n.unit
  function : OneLine n.function

/-- The texts of a command have no line breaks. -/
structure Command.Unbroken (c : Command) : Prop where
  kind : OneLine c.kind.name
  subject : OneLine c.subject

instance : DecidablePred Command.Unbroken := fun c =>
  decidable_of_iff (OneLine c.kind.name ∧ OneLine c.subject)
    ⟨fun h => ⟨h.1, h.2⟩, fun h => ⟨h.kind, h.subject⟩⟩

/-- A command goes on with names of this sort. -/
theorem Naming.Unbroken.after {n : Naming} {c : Command} (hn : n.Unbroken) (hc : c.Unbroken) :
    (n.after c).Unbroken := by
  refine ⟨by rw [unit_after]; exact hn.unit, ?_⟩
  rw [function_after]
  cases c with
  | function name locals => exact hc.subject
  | _ => exact hn.function

theorem unbroken_foldl_after {n : Naming} (hn : n.Unbroken) {cs : List Command}
    (hcs : ∀ c ∈ cs, c.Unbroken) : (cs.foldl Naming.after n).Unbroken := by
  induction cs generalizing n with
  | nil => exact hn
  | cons c cs ih =>
    obtain ⟨hc, hrest⟩ := List.forall_mem_cons.mp hcs
    exact ih (hn.after hc) hrest

section Texts

variable {n : Naming} {c : Command}

theorem Command.Unbroken.text (hc : c.Unbroken) : OneLine c.text := by
  have hempty : OneLine "" := by decide
  have hnumber : OneLine ((c.number?.map toString).getD "") := by
    cases c.number? with
    | none => exact hempty
    | some k => exact oneLine_toString k
  have hparts : ∀ part ∈ [c.kind.name, c.subject, (c.number?.map toString).getD ""],
      OneLine part := by
    simp [hc.kind, hc.subject, hnumber]
  unfold Command.text
  split
  · exact hc.subject
  · exact oneLine_intercalate fun part hpart => hparts part (List.mem_of_mem_filter hpart)

theorem CodeName.oneLine {name : String} (h : CodeName n c name) (hn : n.Unbroken)
    (hc : c.Unbroken) : OneLine name := by
  have hlabel : ∀ name, c.labelName? = some name → OneLine name := by
    intro name hname
    have hsubject := hc.subject
    cases c <;> cases hname <;> exact hsubject
  have hupper : ∀ o ∈ Operator.all, OneLine o.mnemonic.toUpper := by decide +kernel
  cases h with
  | cell x => cases x <;> decide
  | static h =>
    simp only [Naming.static, oneLine_append]
    exact ⟨⟨hn.unit, by decide⟩, oneLine_toString _⟩
  | given h => exact hlabel _ h
  | inScope h =>
    unfold Naming.labelSymbol
    split
    · exact hlabel _ h
    · simp only [oneLine_append]
      exact ⟨⟨hn.function, by decide⟩, hlabel _ h⟩
  | @made mark h =>
    have howner : OneLine n.owner := by
      unfold Naming.owner
      split
      · exact hn.unit
      · exact hn.function
    cases mark with
    | back =>
      simp only [MadeLabel.symbol, Naming.label, oneLine_append]
      exact ⟨⟨howner, by decide⟩, oneLine_toString _⟩
    | whenTrue o | whenDone o =>
      simp only [MadeLabel.symbol, Naming.label, oneLine_append]
      exact ⟨⟨⟨⟨howner, by decide⟩, hupper o (Operator.mem_all o)⟩, by decide⟩,
        oneLine_toString _⟩

theorem oneLine_compute (dest : Dest) (comp : Comp) (jump : Option Jump) :
    OneLine (Line.compute dest comp jump).text := by
  have hdest : ∀ a d m : Bool,
      OneLine (if Dest.mk a d m = {} then "" else (Dest.mk a d m).text ++ "=") := by decide
  have hcomp : ∀ text ∈ computations, OneLine text := by decide
  have hjump : ∀ text ∈ jumps, OneLine (";" ++ text) := by decide
  rw [text_compute, oneLine_append, oneLine_append]
  refine ⟨⟨hdest dest.a dest.d dest.m, hcomp _ (comp_text_mem comp)⟩, ?_⟩
  cases jump with
  | none => exact fun c hc => absurd hc List.not_mem_nil
  | some j => exact hjump _ (jump_text_mem j)

theorem CodeLine.oneLine {l : Line} (h : CodeLine n c l) (hn : n.Unbroken) (hc : c.Unbroken) :
    OneLine l.text := by
  cases h with
  | symbol hname => exact oneLine_append.mpr ⟨by decide, hname.oneLine hn hc⟩
  | number hk => exact oneLine_append.mpr ⟨by decide, oneLine_toString _⟩
  | label hname =>
    exact oneLine_append.mpr ⟨oneLine_append.mpr ⟨by decide, hname.oneLine hn hc⟩, by decide⟩
  | compute hused hdest => exact oneLine_compute _ _ _

theorem oneLine_remark {r : Refusal} (h : c.code n = .error r) (hc : c.Unbroken) :
    OneLine (r.remark c) := by
  have hmove : r.remark c = "Invalid command: " ++ c.text → OneLine (r.remark c) := by
    intro hremark
    rw [hremark, oneLine_append]
    exact ⟨by decide, hc.text⟩
  cases c with
  | arithmetic op =>
    obtain ⟨-, rfl⟩ := code_arithmetic_eq_error h
    exact oneLine_append.mpr ⟨by decide, hc.subject⟩
  | push segment index => exact hmove (remark_of_move (.inl rfl) h)
  | pop segment index => exact hmove (remark_of_move (.inr rfl) h)
  | other name =>
    cases h
    exact oneLine_append.mpr ⟨by decide, hc.kind⟩
  | _ => cases h

/-- Each line of a block is written as one line. -/
theorem oneLine_block (hn : n.Unbroken) (hc : c.Unbroken) :
    ∀ l ∈ (c.block n).lines, OneLine l.text := by
  have hcomment : ∀ words, OneLine words → OneLine (Line.comment words).text :=
    fun words hwords => oneLine_append.mpr ⟨by decide, hwords⟩
  cases hcode : c.code n with
  | error r =>
    rw [block_of_error hcode]
    simp only [List.forall_mem_cons, List.not_mem_nil, IsEmpty.forall_iff, implies_true, and_true]
    exact ⟨hcomment _ hc.text, hcomment _ (oneLine_remark hcode hc)⟩
  | ok p =>
    rw [block_of_code hcode]
    exact List.forall_mem_cons.mpr
      ⟨hcomment _ hc.text, fun l hl => (codeLine_of_mem_code hcode l hl).oneLine hn hc⟩

end Texts

/-! ## Outputs of sources -/

/-- The texts of a command that can be spelled have no line breaks. -/
theorem Command.Spellable.unbroken {c : Command} (hc : c.Spellable) : c.Unbroken := by
  have hoperator : ∀ o : Operator, OneLine o.mnemonic := by
    intro o
    cases o <;> decide
  have hsegment : ∀ g : Segment, OneLine g.name := by
    intro g
    cases g <;> decide
  have hkind : OneLine c.kind.name := by
    cases c with
    | other name => exact absurd hc id
    | _ =>
      rw [Command.kind, Kind.name]
      decide
  refine ⟨hkind, ?_⟩
  cases c with
  | arithmetic op =>
    obtain ⟨o, rfl⟩ := hc
    exact hoperator o
  | push segment index =>
    obtain ⟨⟨g, rfl⟩, -⟩ := hc
    exact hsegment g
  | pop segment index =>
    obtain ⟨⟨g, rfl⟩, -⟩ := hc
    exact hsegment g
  | label name => exact SymbolWord.not_isLineBreak hc
  | goto name => exact SymbolWord.not_isLineBreak hc
  | ifGoto name => exact SymbolWord.not_isLineBreak hc
  | function name locals => exact SymbolWord.not_isLineBreak hc.1
  | call name args => exact SymbolWord.not_isLineBreak hc.1
  | ret => exact fun _ hmem => absurd hmem List.not_mem_nil
  | other name => exact absurd hc id

/-- From a unit with such names all lines are written as one line each. -/
theorem oneLine_of_mem_sites {n : Naming} {cs : List Command} (hn : n.Unbroken)
    (hcs : ∀ c ∈ cs, c.Unbroken) {s : Site} (hs : s ∈ sites n cs) :
    ∀ l ∈ s.lines, OneLine l.text := by
  induction cs generalizing n with
  | nil => cases hs
  | cons c cs ih =>
    obtain ⟨hc, hrest⟩ := List.forall_mem_cons.mp hcs
    rw [sites_cons] at hs
    rcases List.mem_cons.mp hs with rfl | hs
    · exact oneLine_block hn hc
    · exact ih (hn.after hc) hrest hs

theorem toList_renderTexts (lines : List String) :
    (renderTexts lines).toList = endLines (lines.map String.toList) := by
  induction lines with
  | nil => rfl
  | cons line lines ih =>
    rw [← List.singleton_append, renderTexts_append, String.toList_append, ih]
    simp [renderTexts, endLines]

/-- The lines of an output's text are the lines that were written. -/
theorem splitLines_text {o : Output} (h : ∀ l ∈ o.lines, OneLine l.text) :
    splitLines o.text.toList = o.lines.map fun l => l.text.toList := by
  rw [text_eq, toList_renderTexts, ← List.map_flatten, List.map_map]
  exact splitLines_endLines (List.forall_mem_map.mpr h)

end VmToHack
