import VmToHack.Proofs.Blocks
import VmToHack.Proofs.Linking
import VmToHack.Proofs.Reference
set_option autoImplicit false

/-!
# Correspondence

The reference machine and the translation look at the same program in two ways.  Here
the two are brought together: the slots are the items, the scope of a slot is the
function of its names, a position that a name is looked up for is where the label with
that symbol is, and the places and operators of the code are those of the reference.
-/

namespace VmToHack

open VmToHack.Hack

/-! ## The code of a command -/

section Code

variable {n n' : Naming} {code : List Line}

theorem code_arithmetic_eq_ok {op : String} (h : (Command.arithmetic op).code n = .ok (code, n')) :
    ∃ o, Operator.ofMnemonic? op = some o ∧ o.code n = (code, n') := by
  rw [Command.code] at h
  cases ho : Operator.ofMnemonic? op with
  | none =>
    rw [ho] at h
    cases h
  | some o =>
    rw [ho] at h
    exact ⟨o, rfl, Except.ok.inj h⟩

theorem code_arithmetic_eq_error {op : String} {r : Refusal}
    (h : (Command.arithmetic op).code n = .error r) :
    Operator.ofMnemonic? op = none ∧ r = .operator op := by
  rw [Command.code] at h
  cases ho : Operator.ofMnemonic? op with
  | none =>
    rw [ho] at h
    cases h
    exact ⟨rfl, rfl⟩
  | some o =>
    rw [ho] at h
    cases h

theorem code_push_eq_ok {segment : String} {index : Int}
    (h : (Command.push segment index).code n = .ok (code, n')) :
    ∃ p, place n segment index = .ok p ∧ p.pushCode = code ∧ n = n' := by
  rw [Command.code] at h
  cases hp : place n segment index with
  | error r =>
    rw [hp] at h
    cases h
  | ok p =>
    rw [hp] at h
    cases h
    exact ⟨p, rfl, rfl, rfl⟩

theorem code_pop_eq_ok {segment : String} {index : Int}
    (h : (Command.pop segment index).code n = .ok (code, n')) :
    ∃ p, place n segment index = .ok p ∧ p.popCode = .ok code ∧ n = n' := by
  rw [Command.code] at h
  cases hp : place n segment index with
  | error r =>
    rw [hp] at h
    cases h
  | ok p =>
    have hrest : (p.popCode >>= fun code => pure (code, n)) = .ok (code, n') := by
      rw [hp] at h
      exact h
    cases hpop : p.popCode with
    | error r =>
      rw [hpop] at hrest
      cases hrest
    | ok code' =>
      rw [hpop] at hrest
      cases hrest
      exact ⟨p, rfl, hpop, rfl⟩

theorem code_push_eq_error {segment : String} {index : Int} {r : Refusal}
    (h : (Command.push segment index).code n = .error r) : place n segment index = .error r := by
  rw [Command.code] at h
  cases hp : place n segment index with
  | error r' =>
    rw [hp] at h
    cases h
    rfl
  | ok p =>
    rw [hp] at h
    cases h

/-- A pop is refused if its place is, or if the place is a number. -/
theorem code_pop_eq_error {segment : String} {index : Int} {r : Refusal}
    (h : (Command.pop segment index).code n = .error r) :
    place n segment index = .error r ∨
      ∃ k, place n segment index = .ok (.literal k) ∧ r = .constantPop := by
  rw [Command.code] at h
  cases hp : place n segment index with
  | error r' =>
    rw [hp] at h
    cases h
    exact .inl rfl
  | ok p =>
    rw [hp] at h
    cases p with
    | literal k =>
      cases h
      exact .inr ⟨k, rfl, rfl⟩
    | _ => cases h

end Code

theorem block_of_code {n n' : Naming} {c : Command} {code : List Line}
    (h : c.code n = .ok (code, n')) : c.block n = ⟨.comment c.text :: code, n', none⟩ := by
  unfold Command.block
  rw [h]

theorem block_of_error {n : Naming} {c : Command} {r : Refusal} (h : c.code n = .error r) :
    c.block n = ⟨[.comment c.text, .comment (r.remark c)], n, some r⟩ := by
  unfold Command.block
  rw [h]

/-- A command that is not refused has a code. -/
theorem code_of_refusal_eq_none {n : Naming} {c : Command} (h : (c.block n).refusal = none) :
    ∃ code, c.code n = .ok (code, (c.block n).naming) ∧
      (c.block n).lines = .comment c.text :: code := by
  cases hc : c.code n with
  | error r =>
    rw [block_of_error hc] at h
    cases h
  | ok p =>
    obtain ⟨code, n'⟩ := p
    rw [block_of_code hc]
    exact ⟨code, rfl, rfl⟩

/-! ## The names after a command -/

/-- The operators whose code needs labels. -/
def Operator.compares (o : Operator) : Bool :=
  match o.effect with
  | .comparison _ => true
  | _ => false

/-- The operator of a command that compares. -/
def Command.comparison? : Command → Option Operator
  | .arithmetic op => (Operator.ofMnemonic? op).filter Operator.compares
  | _ => none

/-- The names after a command, whatever becomes of it. -/
def Naming.after (n : Naming) (c : Command) : Naming :=
  match c with
  | .function name _ => n.enter name
  | .call _ _ => n.afterCall
  | c => if c.comparison?.isSome then n.afterComparison else n

theorem naming_code_operator (o : Operator) (n : Naming) :
    (o.code n).2 = if o.compares then n.afterComparison else n := by
  cases o <;> rfl

theorem naming_block (n : Naming) (c : Command) : (c.block n).naming = n.after c := by
  cases hc : c.code n with
  | error r =>
    rw [block_of_error hc]
    cases c with
    | arithmetic op =>
      cases ho : Operator.ofMnemonic? op with
      | none => simp [Naming.after, Command.comparison?, ho]
      | some o =>
        rw [Command.code, ho] at hc
        cases hc
    | function name locals => cases hc
    | call name args => cases hc
    | _ => rfl
  | ok p =>
    obtain ⟨code, n'⟩ := p
    rw [block_of_code hc]
    cases c with
    | arithmetic op =>
      obtain ⟨o, ho, hcode⟩ := code_arithmetic_eq_ok hc
      have hnaming := naming_code_operator o n
      rw [hcode] at hnaming
      cases hcompares : o.compares <;>
        simpa [Naming.after, Command.comparison?, ho, hcompares] using hnaming
    | push segment index =>
      obtain ⟨p, -, -, rfl⟩ := code_push_eq_ok hc
      rfl
    | pop segment index =>
      obtain ⟨p, -, -, rfl⟩ := code_pop_eq_ok hc
      rfl
    | other name => cases hc
    | _ =>
      cases hc
      rfl

theorem unit_after (n : Naming) (c : Command) : (n.after c).unit = n.unit := by
  cases c with
  | arithmetic op =>
    simp only [Naming.after]
    split <;> rfl
  | _ => rfl

/-- A command changes the function only if it begins one. -/
theorem function_after (n : Naming) (c : Command) :
    (n.after c).function = c.scopeAfter n.function := by
  cases c with
  | arithmetic op =>
    simp only [Naming.after]
    split <;> rfl
  | _ => rfl

/-! ## Slots and items -/

/-- What stands where an item is. -/
def Item.slot : Item → Slot
  | .bootstrap => .bootstrap
  | .site s => .command s.naming.unit s.naming.function s.command

theorem slotsFrom_eq (n : Naming) (cs : List Command) :
    slotsFrom n.unit n.function cs = (sites n cs).map fun s => (Item.site s).slot := by
  induction cs generalizing n with
  | nil => rfl
  | cons c cs ih =>
    have hrest := ih (n.after c)
    rw [unit_after, function_after] at hrest
    rw [slotsFrom, sites, naming_block, List.map_cons, hrest]
    rfl

theorem slots_eq (bootstrap : Bool) (units : List SourceUnit) :
    slots bootstrap units = (items bootstrap units).map Item.slot := by
  have hunits : units.flatMap (fun u => slotsFrom u.name "" u.commands) =
      (units.flatMap fun u => u.sites.map Item.site).map Item.slot := by
    induction units with
    | nil => rfl
    | cons u units ih =>
      have hu : slotsFrom u.name "" u.commands = (u.sites.map Item.site).map Item.slot := by
        rw [List.map_map]
        exact slotsFrom_eq { unit := u.name } u.commands
      rw [List.flatMap_cons, List.flatMap_cons, List.map_append, ih, hu]
  unfold slots items
  rw [List.map_append, hunits]
  cases bootstrap <;> rfl

/-! ## Names and labels -/

/-- The symbol of a name of the reference machine. -/
def symbolOf (name : String × String) : String :=
  if name.1 = "" then name.2 else name.1 ++ "$" ++ name.2

/-- Where a name is given, the label with its symbol stands in front of all instructions. -/
theorem lines_of_names? {item : Item} {name : String × String} (h : item.slot.names? = some name) :
    ∃ text code, item.lines = .comment text :: .label (symbolOf name) :: code := by
  cases item with
  | bootstrap => cases h
  | site s =>
    obtain ⟨n, c⟩ := s
    cases c with
    | label l =>
      cases h
      exact ⟨_, [], rfl⟩
    | function f locals =>
      cases h
      exact ⟨_, _, rfl⟩
    | _ => cases h

/-- A position that a name is looked up for is one that has it. -/
theorem names?_of_positionOf {program : List Slot} {name : String × String} {position : Nat}
    (h : positionOf program name = some position) :
    ∃ slot, program[position]? = some slot ∧ slot.names? = some name := by
  unfold positionOf at h
  rw [List.findIdx?_eq_some_iff_getElem] at h
  obtain ⟨hlt, hname, -⟩ := h
  exact ⟨program[position], List.getElem?_eq_getElem hlt, by simpa using hname⟩

/-- The symbol of a name stands for the code address of its position. -/
theorem addressOf_symbolOf {program : List Item} {instructions : List Instruction}
    (h : assemble? (program.flatMap Item.lines) = some instructions) {name : String × String}
    {position : Nat} (hposition : positionOf (program.map Item.slot) name = some position) :
    addressOf (program.flatMap Item.lines) (symbolOf name) = codeAddress program position := by
  obtain ⟨slot, hslot, hname⟩ := names?_of_positionOf hposition
  rw [List.getElem?_map, Option.map_eq_some_iff] at hslot
  obtain ⟨item, hitem, rfl⟩ := hslot
  obtain ⟨text, code, hlines⟩ := lines_of_names? hname
  have hsplit := flatMap_eq_of_getElem? hitem
  rw [hlines, List.append_assoc, List.cons_append, List.cons_append, ← List.singleton_append,
    ← List.append_assoc] at hsplit
  have hmem := mem_labels_of_eq hsplit
  rw [codeSize_append] at hmem
  exact addressOf_of_mem_labels h hmem

/-- A name is looked up by the symbol that the code of a jump loads. -/
theorem labelSymbol_eq (n : Naming) (label : String) :
    n.labelSymbol label = symbolOf (n.function, label) := rfl

theorem symbolOf_function (f : String) : symbolOf ("", f) = f := if_pos rfl

/-! ## Operators -/

/-- The code of an effect computes what an operator means. -/
inductive Effect.Computes : Effect → Meaning → Prop where
  | unary {comp : Comp} {f : Word → Word}
      (h : ∀ d a x, comp.value d (operandOf a x) = f x) : Computes (.unary comp) (.unary f)
  | binary {comp : Comp} {f : Word → Word → Word}
      (h : ∀ a x y, comp.value y (operandOf a x) = f x y) : Computes (.binary comp) (.binary f)
  | comparison {jump : Jump} {f : Word → Word → Word}
      (h : ∀ x y, (if jump.isTaken (x - y) then -1 else 0) = f x y) :
      Computes (.comparison jump) (.binary f)

theorem Operator.effect_computes (o : Operator) : o.effect.Computes o.meaning := by
  cases o with
  | add => exact .binary fun a x y => BitVec.add_comm y x
  | sub => exact .binary fun a x y => rfl
  | neg => exact .unary fun d a x => rfl
  | eq => exact .comparison fun x y => rfl
  | gt => exact .comparison fun x y => rfl
  | lt => exact .comparison fun x y => rfl
  | and => exact .binary fun a x y => BitVec.and_comm y x
  | or => exact .binary fun a x y => BitVec.or_comm y x
  | not => exact .unary fun d a x => rfl

/-! ## Places -/

/-- The places of the indices of a segment. -/
inductive Segment.PlacedAt (n : Naming) : Segment → Int → Place → Prop where
  | constant (index : Int) : PlacedAt n .constant index (.literal index)
  | pointed {g : Segment} {base : Cell} (h : g.base? = some base) (index : Int) :
      PlacedAt n g index (.pointed base index)
  | temp {index : Int} (h : index < tempSize) : PlacedAt n .temp index (.above .temp index)
  | this : PlacedAt n .pointer 0 (.cell Cell.this.symbol)
  | that : PlacedAt n .pointer 1 (.cell Cell.that.symbol)
  | static (index : Int) : PlacedAt n .static index (.cell (n.static index))

/-- The indices that have no place, and why. -/
inductive Unplaced : String → Int → Refusal → Prop where
  | segment {segment : String} (h : Segment.ofName? segment = none) (index : Int) :
      Unplaced segment index (.segment segment)
  | temp {index : Int} (h : tempSize ≤ index) : Unplaced "temp" index (.tempIndex index)
  | pointer {index : Int} (h0 : index ≠ 0) (h1 : index ≠ 1) :
      Unplaced "pointer" index (.pointerIndex index)

section Places

variable {address : String → Nat} {layout : Layout} {n : Naming} {index : Int} {ram : Memory}
  {p : Place}

theorem placedAt_of_place {g : Segment} (hp : g.place n index = .ok p) : g.PlacedAt n index p := by
  cases g with
  | constant =>
    cases hp
    exact .constant index
  | temp =>
    rw [Segment.place_temp] at hp
    split at hp
    · next h =>
      cases hp
      exact .temp h
    · cases hp
  | pointer =>
    rw [Segment.place_pointer] at hp
    cases hcell : pointerCell? index with
    | none => rw [hcell] at hp; cases hp
    | some c =>
      rw [hcell] at hp
      cases hp
      obtain ⟨rfl, rfl⟩ | ⟨rfl, rfl⟩ := pointerCell?_eq_some_iff.mp hcell
      · exact .this
      · exact .that
  | static =>
    cases hp
    exact .static index
  | _ =>
    cases hp
    exact .pointed rfl index

/-- No other index is without a place. -/
theorem unplaced_of_place {segment : String} {r : Refusal}
    (hp : place n segment index = .error r) : Unplaced segment index r := by
  unfold place at hp
  split at hp
  · next g hg =>
    obtain rfl := Segment.ofName?_eq_some_iff.mp hg
    cases g with
    | temp =>
      rw [Segment.place_temp] at hp
      split at hp
      · cases hp
      · next h =>
        cases hp
        exact .temp (Int.not_lt.mp h)
    | pointer =>
      rw [Segment.place_pointer] at hp
      cases hcell : pointerCell? index with
      | some c => rw [hcell] at hp; cases hp
      | none =>
        rw [hcell] at hp
        cases hp
        obtain ⟨h0, h1⟩ := pointerCell?_eq_none_iff.mp hcell
        exact .pointer h0 h1
    | _ => cases hp
  · next hnone =>
    cases hp
    exact .segment hnone index

/-- A place that is no number has the cell that the reference machine finds. -/
theorem target_of_cell? {g : Segment} {cell : Nat} (hc : KnowsCells address)
    (hstatic : address (n.static index) = layout.staticCell n.unit index)
    (hp : g.place n index = .ok p) (hcell : g.cell? layout n.unit ram index = some cell) :
    p.target address ram = cell := by
  have hbase : ∀ base : Cell, (BitVec.ofInt 16 index + ram base.address).toNat =
      (ram base.address + BitVec.ofInt 16 index).toNat := by
    intro base
    rw [BitVec.add_comm]
  cases placedAt_of_place hp with
  | constant => cases hcell
  | pointed h =>
    cases g <;> cases h <;> cases hcell <;> exact hbase _
  | temp h =>
    simp only [Segment.cell?, Option.ite_none_right_eq_some, Option.some.injEq] at hcell
    obtain ⟨⟨h0, h8⟩, rfl⟩ := hcell
    have hword : (BitVec.ofInt 16 index).toNat = index.toNat :=
      toNat_ofInt_of_lt h0 (by show index < 32768; omega)
    show (BitVec.ofInt 16 index + BitVec.ofNat 16 5).toNat = 5 + index.toNat
    rw [BitVec.toNat_add, hword]
    show (index.toNat + 5) % 65536 = 5 + index.toNat
    omega
  | this =>
    cases hcell
    exact hc .this
  | that =>
    cases hcell
    exact hc .that
  | static =>
    cases hcell
    exact hstatic

theorem value_of_target {cell : Nat} (hp : ∀ k, p ≠ .literal k)
    (htarget : p.target address ram = cell) : p.value address ram = ram cell := by
  cases p with
  | literal k => exact absurd rfl (hp k)
  | _ => exact congrArg ram htarget

theorem place_ne_literal {g : Segment} (hp : g.place n index = .ok p) (hg : g ≠ .constant)
    (k : Int) : p ≠ .literal k := by
  rintro rfl
  cases placedAt_of_place hp with
  | constant => exact hg rfl

/-- The segment of a place. -/
theorem place_eq_ok {segment : String} (hp : place n segment index = .ok p) :
    ∃ g, Segment.ofName? segment = some g ∧ g.place n index = .ok p := by
  unfold place at hp
  cases hg : Segment.ofName? segment with
  | none =>
    rw [hg] at hp
    cases hp
  | some g =>
    rw [hg] at hp
    exact ⟨g, rfl, hp⟩

theorem place_name (g : Segment) (n : Naming) (index : Int) :
    place n g.name index = g.place n index := by
  rw [place, Segment.ofName?_name]

variable (hc : KnowsCells address)
  (hstatic : address (n.static index) = layout.staticCell n.unit index)
include hc hstatic

/-- The cell of the reference machine is the one that the code reaches. -/
theorem target_of_segmentCell? {segment : String} {cell : Nat}
    (hp : place n segment index = .ok p)
    (hcell : segmentCell? layout n.unit ram segment index = some cell) :
    p.target address ram = cell ∧ ∀ k, p ≠ .literal k := by
  obtain ⟨g, hg, hplace⟩ := place_eq_ok hp
  unfold segmentCell? at hcell
  rw [hg, Option.bind_some] at hcell
  refine ⟨target_of_cell? hc hstatic hplace hcell, ?_⟩
  apply place_ne_literal hplace
  rintro rfl
  cases hcell

/-- The value of the reference machine is the one that the code pushes. -/
theorem value_of_segmentValue? {segment : String} {value : Word}
    (hp : place n segment index = .ok p)
    (hvalue : segmentValue? layout n.unit ram segment index = some value) :
    p.value address ram = value := by
  unfold segmentValue? at hvalue
  split at hvalue
  · next hconstant =>
    obtain ⟨g, hg, hplace⟩ := place_eq_ok hp
    rw [hconstant, Segment.ofName?_name] at hg
    cases hg
    cases hplace
    exact Option.some.inj hvalue
  · obtain ⟨cell, hcell, rfl⟩ := Option.map_eq_some_iff.mp hvalue
    obtain ⟨htarget, hne⟩ := target_of_segmentCell? hc hstatic hp hcell
    exact value_of_target hne htarget

theorem target_lt_of_segmentValue? {segment : String} {value : Word}
    (hp : place n segment index = .ok p)
    (hvalue : segmentValue? layout n.unit ram segment index = some value)
    (hlt : ∀ cell, segmentCell? layout n.unit ram segment index = some cell → cell < memorySize) :
    p.target address ram < memorySize := by
  unfold segmentValue? at hvalue
  split at hvalue
  · next hconstant =>
    obtain ⟨g, hg, hplace⟩ := place_eq_ok hp
    rw [hconstant, Segment.ofName?_name] at hg
    cases hg
    cases hplace
    exact Nat.succ_pos _
  · obtain ⟨cell, hcell, rfl⟩ := Option.map_eq_some_iff.mp hvalue
    obtain ⟨htarget, -⟩ := target_of_segmentCell? hc hstatic hp hcell
    rw [htarget]
    exact hlt cell hcell

end Places

/-- The numbers in the code of a push can be loaded where it stands. -/
theorem loadable_of_pushCode {lines : List Line} {program : List Instruction} {start : Nat}
    {p : Place} (h : Standing lines program start p.pushCode) : p.Loadable := by
  cases p with
  | literal k => exact h.number_fits k (by simp [Place.pushCode, loadNumber])
  | pointed base offset => exact h.number_fits offset (by simp [Place.pushCode, loadNumber])
  | above base offset => exact h.number_fits offset (by simp [Place.pushCode, loadNumber])
  | cell symbol => trivial

/-- The numbers in the code of a pop can be loaded where it stands. -/
theorem loadable_of_popCode {lines : List Line} {program : List Instruction} {start : Nat}
    {p : Place} {code : List Line} (hcode : p.popCode = .ok code)
    (h : Standing lines program start code) : p.Loadable := by
  cases p with
  | literal k => cases hcode
  | pointed base offset =>
    cases hcode
    exact h.number_fits offset (by simp [popThrough, loadNumber])
  | above base offset =>
    cases hcode
    exact h.number_fits offset (by simp [popThrough, loadNumber])
  | cell symbol => trivial

section Agreement

variable {layout : Layout} {unit : String} {cells : List Nat} {ram ram' : Memory}

/-- The cell of an index depends on the cells with a base only. -/
theorem segmentCell?_congr (h : ram.AgreesOff cells ram')
    (hbases : ∀ c ∈ Memory.framed, c.address ∉ cells) (segment : String) (index : Int) :
    segmentCell? layout unit ram segment index = segmentCell? layout unit ram' segment index := by
  have hbase : ∀ c ∈ Memory.framed, ram c.address = ram' c.address := fun c hc => h _ (hbases c hc)
  have hlcl := hbase .lcl (by decide)
  have harg := hbase .arg (by decide)
  have hthis := hbase .this (by decide)
  have hthat := hbase .that (by decide)
  unfold segmentCell?
  congr 1
  funext g
  cases g <;> simp only [Segment.cell?, hlcl, harg, hthis, hthat]

/-- A push takes the same value if the cell that it reads counts. -/
theorem segmentValue?_congr (h : ram.AgreesOff cells ram')
    (hbases : ∀ c ∈ Memory.framed, c.address ∉ cells) {segment : String} {index : Int}
    (hread : ∀ cell, segmentCell? layout unit ram' segment index = some cell → cell ∉ cells) :
    segmentValue? layout unit ram segment index =
      segmentValue? layout unit ram' segment index := by
  unfold segmentValue?
  split
  · rfl
  · rw [segmentCell?_congr h hbases]
    cases hcell : segmentCell? layout unit ram' segment index with
    | none => rfl
    | some cell => exact congrArg some (h cell (hread cell hcell))

end Agreement

end VmToHack
