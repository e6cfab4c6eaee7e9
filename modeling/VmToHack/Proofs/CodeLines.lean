import VmToHack.Proofs.StaticCells
set_option autoImplicit false

/-!
# Code lines: what the code of a command is made of

The code of a command is put together from cells, numbers and names.  `CodeLine` says which
lines can come out of that: the names are cells, static symbols, names of the command and labels
that it makes; the numbers are the command's own, distances in a frame, and the size of the frame
of a call.  It is said of every emitter once, and `codeLine_of_mem_code` joins these together; what
holds of the lines of all code then needs one case for each way to make a line.
-/

namespace VmToHack

open VmToHack.Hack

/-! ## Lines -/

/-- The names in the code of a command. -/
inductive CodeName (n : Naming) (c : Command) : String → Prop where
  | cell (x : Cell) : CodeName n c x.symbol
  | static {index : Int} (h : c.staticIndex? = some index) : CodeName n c (n.static index)
  | given {name : String} (h : c.labelName? = some name) : CodeName n c name
  /-- a label of the source, with the function that it belongs to -/
  | inScope {name : String} (h : c.labelName? = some name) : CodeName n c (n.labelSymbol name)
  | made {mark : Mark} (h : mark ∈ c.marks) : CodeName n c (n.label mark).symbol

/-- The numbers in the code of a command. -/
inductive CodeNumber (c : Command) : Int → Prop where
  /-- the index of a push or a pop -/
  | index {segment : String} {k : Int} (h : c = .push segment k ∨ c = .pop segment k) :
      CodeNumber c k
  /-- a distance from the end of a frame -/
  | offset {k : Nat} (h : k ≤ frameSize) : CodeNumber c k
  /-- a frame and the arguments below it -/
  | frame {name : String} {args : Int} (h : c = .call name args) : CodeNumber c (args + frameSize)

/-- The lines in the code of a command.  A computation has a destination or a jump, and its
destination is never the data register together with the memory. -/
inductive CodeLine (n : Naming) (c : Command) : Line → Prop where
  | symbol {name : String} (h : CodeName n c name) : CodeLine n c (.symbol name)
  | number {k : Int} (h : CodeNumber c k) : CodeLine n c (.number k)
  | label {name : String} (h : CodeName n c name) : CodeLine n c (.label name)
  | compute {dest : Dest} {comp : Comp} {jump : Option Jump} (hused : dest ≠ {} ∨ jump ≠ none)
      (hdest : dest.d = false ∨ dest.m = false) : CodeLine n c (.compute dest comp jump)

/-! ## Emitters -/

section Emitters

variable {n : Naming} {c : Command}

theorem codeLine_cell (x : Cell) : CodeLine n c (.symbol x.symbol) := .symbol (.cell x)

theorem codeLine_setD (comp : Comp) : CodeLine n c (.setD comp) := .compute (by decide) (by decide)

theorem codeLine_setA (comp : Comp) : CodeLine n c (.setA comp) := .compute (by decide) (by decide)

theorem codeLine_setM (comp : Comp) : CodeLine n c (.setM comp) := .compute (by decide) (by decide)

theorem codeLine_setAM (comp : Comp) : CodeLine n c (.setAM comp) :=
  .compute (by decide) (by decide)

theorem codeLine_jumpIf (comp : Comp) (jump : Jump) : CodeLine n c (.jumpIf comp jump) :=
  .compute (.inr nofun) (by decide)

theorem codeLine_setTop (comp : Comp) : ∀ l ∈ setTop comp, CodeLine n c l := by
  simp [setTop, codeLine_cell, codeLine_setA, codeLine_setM]

theorem codeLine_incSp : ∀ l ∈ incSp, CodeLine n c l := by
  simp [incSp, codeLine_cell, codeLine_setM]

theorem codeLine_decSp : ∀ l ∈ decSp, CodeLine n c l := by
  simp [decSp, codeLine_cell, codeLine_setAM]

theorem codeLine_pushD : ∀ l ∈ pushD, CodeLine n c l :=
  List.forall_mem_append.mpr ⟨codeLine_setTop .d, codeLine_incSp⟩

theorem codeLine_popD : ∀ l ∈ popD, CodeLine n c l :=
  List.forall_mem_append.mpr ⟨codeLine_decSp, by simp [codeLine_setD]⟩

theorem codeLine_loadNumber {k : Int} (h : CodeNumber c k) :
    ∀ l ∈ loadNumber k, CodeLine n c l := by
  simp [loadNumber, CodeLine.number h, codeLine_setD]

theorem codeLine_loadAddress {name : String} (h : CodeName n c name) :
    ∀ l ∈ loadAddress name, CodeLine n c l := by
  simp [loadAddress, CodeLine.symbol h, codeLine_setD]

theorem codeLine_loadCell {name : String} (h : CodeName n c name) :
    ∀ l ∈ loadCell name, CodeLine n c l := by
  simp [loadCell, CodeLine.symbol h, codeLine_setD]

theorem codeLine_storeD {name : String} (h : CodeName n c name) :
    ∀ l ∈ storeD name, CodeLine n c l := by
  simp [storeD, CodeLine.symbol h, codeLine_setM]

theorem codeLine_goto {name : String} (h : CodeName n c name) :
    ∀ l ∈ goto name, CodeLine n c l := by
  simp [goto, CodeLine.symbol h, codeLine_jumpIf]

/-! ### Operators -/

theorem codeLine_binaryCode (comp : Comp) : ∀ l ∈ binaryCode comp, CodeLine n c l := by
  simp only [binaryCode, List.forall_mem_append, List.forall_mem_singleton]
  exact ⟨⟨⟨codeLine_popD, codeLine_decSp⟩, codeLine_setD comp⟩, codeLine_pushD⟩

theorem codeLine_unaryCode (comp : Comp) : ∀ l ∈ unaryCode comp, CodeLine n c l := by
  simp only [unaryCode, List.forall_mem_append, List.forall_mem_singleton]
  exact ⟨⟨codeLine_decSp, codeLine_setD comp⟩, codeLine_pushD⟩

theorem codeLine_comparisonCode {jump : Jump} {whenTrue whenDone : String}
    (htrue : CodeName n c whenTrue) (hdone : CodeName n c whenDone) :
    ∀ l ∈ comparisonCode jump whenTrue whenDone, CodeLine n c l := by
  have hbranch : ∀ l ∈ [.setD (.subFrom .m), .symbol whenTrue, .jumpIf .d jump, .setD .zero],
      CodeLine n c l := by
    simp [codeLine_setD, codeLine_jumpIf, CodeLine.symbol htrue]
  have hjoin : ∀ l ∈ [.label whenTrue, .setD .minusOne, .label whenDone], CodeLine n c l := by
    simp [codeLine_setD, CodeLine.label htrue, CodeLine.label hdone]
  simp only [comparisonCode, List.forall_mem_append]
  exact ⟨⟨⟨⟨⟨⟨codeLine_popD, codeLine_decSp⟩, hbranch⟩, codeLine_goto hdone⟩, hjoin⟩,
    codeLine_setTop .d⟩, codeLine_incSp⟩

/-! ### Places -/

/-- What the code of a place needs is in the code of a command. -/
def Place.IsOf (p : Place) (n : Naming) (c : Command) : Prop :=
  match p with
  | .literal k => CodeNumber c k
  | .pointed _ offset => CodeNumber c offset
  | .above _ offset => CodeNumber c offset
  | .cell symbol => CodeName n c symbol

theorem codeLine_pushCode {p : Place} (h : p.IsOf n c) : ∀ l ∈ p.pushCode, CodeLine n c l := by
  cases p with
  | literal k => exact List.forall_mem_append.mpr ⟨codeLine_loadNumber h, codeLine_pushD⟩
  | pointed base offset =>
    simp only [Place.pushCode, List.forall_mem_append]
    exact ⟨⟨codeLine_loadNumber h, by simp [codeLine_cell, codeLine_setA, codeLine_setD]⟩,
      codeLine_pushD⟩
  | above base offset =>
    simp only [Place.pushCode, List.forall_mem_append]
    exact ⟨⟨codeLine_loadNumber h, by simp [codeLine_cell, codeLine_setA, codeLine_setD]⟩,
      codeLine_pushD⟩
  | cell symbol => exact List.forall_mem_append.mpr ⟨codeLine_loadCell h, codeLine_pushD⟩

theorem codeLine_popThrough {base : Cell} {offset : Int} {address : Comp}
    (h : CodeNumber c offset) : ∀ l ∈ popThrough base offset address, CodeLine n c l := by
  simp only [popThrough, List.forall_mem_append]
  exact ⟨⟨⟨⟨codeLine_loadNumber h, by simp [codeLine_cell, codeLine_setD]⟩,
    codeLine_storeD (.cell .popAddress)⟩, codeLine_popD⟩,
    by simp [codeLine_cell, codeLine_setA, codeLine_setM]⟩

theorem codeLine_popCode {p : Place} {code : List Line} (h : p.IsOf n c)
    (hcode : p.popCode = .ok code) : ∀ l ∈ code, CodeLine n c l := by
  cases p with
  | literal k => cases hcode
  | pointed base offset =>
    cases hcode
    exact codeLine_popThrough h
  | above base offset =>
    cases hcode
    exact codeLine_popThrough h
  | cell symbol =>
    cases hcode
    exact List.forall_mem_append.mpr ⟨codeLine_popD, codeLine_storeD h⟩

/-- A place is of the command that pushes it or pops to it. -/
theorem isOf_of_place {segment : String} {index : Int} {p : Place}
    (hc : c = .push segment index ∨ c = .pop segment index)
    (hp : place n segment index = .ok p) : p.IsOf n c := by
  obtain ⟨g, hg, hplace⟩ := place_eq_ok hp
  cases placedAt_of_place hplace with
  | this => exact .cell .this
  | that => exact .cell .that
  | static =>
    obtain rfl := Segment.ofName?_eq_some_iff.mp hg
    apply CodeName.static
    rcases hc with rfl | rfl <;> simp [Command.staticIndex?]
  | _ => exact CodeNumber.index hc

/-! ### Functions -/

theorem codeLine_functionCode {name : String} (h : CodeName n c name) (locals : Int) :
    ∀ l ∈ functionCode name locals, CodeLine n c l := by
  refine List.forall_mem_cons.mpr ⟨.label h, fun l hl => ?_⟩
  obtain ⟨piece, hpiece, hl⟩ := List.mem_flatten.mp hl
  obtain rfl := List.eq_of_mem_replicate hpiece
  exact List.forall_mem_append.mpr ⟨codeLine_setTop .zero, codeLine_incSp⟩ l hl

theorem codeLine_pushCell (x : Cell) : ∀ l ∈ pushCell x, CodeLine n c l :=
  List.forall_mem_append.mpr ⟨codeLine_loadCell (.cell x), codeLine_pushD⟩

theorem codeLine_frameCode {returnLabel : String} (hreturn : CodeName n c returnLabel) :
    ∀ l ∈ frameCode returnLabel, CodeLine n c l := by
  have hsaved : ∀ l ∈ savedCells.flatMap pushCell, CodeLine n c l := by
    intro l hl
    obtain ⟨x, -, hl⟩ := List.mem_flatMap.mp hl
    exact codeLine_pushCell x l hl
  simp only [frameCode, List.forall_mem_append]
  exact ⟨⟨codeLine_loadAddress hreturn, codeLine_pushD⟩, hsaved⟩

theorem codeLine_callCode {name : String} {args : Int} {returnLabel : String}
    (hc : c = .call name args) (hreturn : CodeName n c returnLabel) :
    ∀ l ∈ callCode name args returnLabel, CodeLine n c l := by
  have hname : CodeName n c name := .given (by rw [hc]; rfl)
  have harg : ∀ l ∈ [.symbol Cell.sp.symbol, .setD (.operand .m), .number (args + frameSize),
      .setD (.sub .a)], CodeLine n c l := by
    simp [codeLine_cell, codeLine_setD, CodeLine.number (.frame hc)]
  simp only [callCode, List.forall_mem_append, List.forall_mem_singleton]
  exact ⟨⟨⟨⟨⟨⟨codeLine_frameCode hreturn, harg⟩, codeLine_storeD (.cell .arg)⟩,
    codeLine_loadCell (.cell .sp)⟩, codeLine_storeD (.cell .lcl)⟩, codeLine_goto hname⟩,
    .label hreturn⟩

theorem codeLine_loadBelow {offset : Nat} (h : offset ≤ frameSize) :
    ∀ l ∈ loadBelow offset, CodeLine n c l := by
  simp [loadBelow, CodeLine.number (.offset h), codeLine_setA, codeLine_setD]

theorem codeLine_restoreCell (x : Cell) {offset : Nat} (h : offset ≤ frameSize) :
    ∀ l ∈ restoreCell x offset, CodeLine n c l := by
  simp only [restoreCell, List.forall_mem_append]
  exact ⟨⟨codeLine_loadCell (.cell .frame), codeLine_loadBelow h⟩, codeLine_storeD (.cell x)⟩

theorem codeLine_returnCode : ∀ l ∈ returnCode, CodeLine n c l := by
  have hoffsets : ∀ x ∈ savedCells.reverse.zipIdx 1, x.2 ≤ frameSize := by decide
  simp only [returnCode, List.forall_mem_append]
  refine ⟨⟨⟨⟨⟨⟨⟨⟨⟨codeLine_loadCell (.cell .lcl), codeLine_storeD (.cell .frame)⟩,
    codeLine_loadBelow (Nat.le_refl _)⟩, codeLine_storeD (.cell .returnAddress)⟩, codeLine_popD⟩,
    ?result⟩, ?pointer⟩, codeLine_storeD (.cell .sp)⟩, ?restored⟩, ?jump⟩
  case result => simp [codeLine_cell, codeLine_setA, codeLine_setM]
  case pointer => simp [codeLine_cell, codeLine_setD]
  case restored =>
    intro l hl
    obtain ⟨x, hx, hl⟩ := List.mem_flatMap.mp hl
    exact codeLine_restoreCell x.1 (hoffsets x hx) l hl
  case jump => simp [codeLine_cell, codeLine_setA, codeLine_jumpIf]

end Emitters

/-! ## Commands -/

theorem codeLine_operator {n : Naming} {op : String} {o : Operator}
    (ho : Operator.ofMnemonic? op = some o) :
    ∀ l ∈ (o.code n).1, CodeLine n (.arithmetic op) l := by
  cases hcompares : o.compares with
  | false =>
    cases o with
    | eq => cases hcompares
    | gt => cases hcompares
    | lt => cases hcompares
    | neg => exact codeLine_unaryCode _
    | not => exact codeLine_unaryCode _
    | _ => exact codeLine_binaryCode _
  | true =>
    have hmarks := marks_arithmetic ho
    rw [if_pos hcompares] at hmarks
    have htrue : CodeName n (.arithmetic op) (n.label (.whenTrue o)).symbol :=
      .made (by rw [hmarks]; exact List.mem_cons_self)
    have hdone : CodeName n (.arithmetic op) (n.label (.whenDone o)).symbol :=
      .made (by rw [hmarks]; exact List.mem_cons_of_mem _ List.mem_cons_self)
    obtain ⟨jump, hcode⟩ := code_of_compares hcompares n
    rw [hcode]
    exact codeLine_comparisonCode htrue hdone

/-- The lines of the code of a command. -/
theorem codeLine_of_mem_code {n n' : Naming} {c : Command} {code : List Line}
    (h : c.code n = .ok (code, n')) : ∀ l ∈ code, CodeLine n c l := by
  cases c with
  | arithmetic op =>
    obtain ⟨o, ho, hcode⟩ := code_arithmetic_eq_ok h
    have hlines := codeLine_operator (n := n) ho
    rwa [hcode] at hlines
  | push segment index =>
    obtain ⟨p, hp, rfl, -⟩ := code_push_eq_ok h
    exact codeLine_pushCode (isOf_of_place (.inl rfl) hp)
  | pop segment index =>
    obtain ⟨p, hp, hcode, -⟩ := code_pop_eq_ok h
    exact codeLine_popCode (isOf_of_place (.inr rfl) hp) hcode
  | label name =>
    cases h
    exact List.forall_mem_singleton.mpr (.label (.inScope rfl))
  | goto name =>
    cases h
    exact codeLine_goto (.inScope rfl)
  | ifGoto name =>
    cases h
    refine List.forall_mem_append.mpr ⟨codeLine_popD, ?_⟩
    simp [CodeLine.symbol (.inScope (c := .ifGoto name) rfl), codeLine_jumpIf]
  | function name locals =>
    cases h
    exact codeLine_functionCode (.given rfl) locals
  | call name args =>
    cases h
    exact codeLine_callCode rfl (@CodeName.made n _ .back List.mem_cons_self)
  | ret =>
    cases h
    exact codeLine_returnCode
  | other name => cases h

end VmToHack
