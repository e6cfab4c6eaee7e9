import VmToHack.Proofs.Contracts
set_option autoImplicit false

/-!
# Stack moves: one value between the stack and a segment

A push copies the value of one cell, or a number, onto the stack; a pop takes the value on top to
one cell.  Which cell that is depends on the memory at the start of the block, before the stack
pointer is touched (`Segment.target?`), and it may be any: one of the stack, the stack pointer or
the base of a segment.  A pop to a computed address uses a scratch cell in between.

`stack_move_exact` is the contract of both blocks.
-/

namespace VmToHack

open VmToHack.Hack

/-- The command that moves a value in a direction. -/
def Direction.command (d : Direction) (segment : String) (index : Int) : Command :=
  match d with
  | .push => .push segment index
  | .pop => .pop segment index

/-! ## The cells of a segment -/

namespace Segment

/-- The cell of an index of a segment.  Four segments begin where a base cell points, and the sum
wraps around; two lie at a fixed cell; a static cell has a symbol, and a constant has no cell. -/
def target? (symbols : String → Nat) (n : Naming) (ram : Memory) (index : Nat) :
    Segment → Option Nat
  | .constant => none
  | .local => some (((ram Cell.lcl.address).toNat + index) % wordCount)
  | .argument => some (((ram Cell.arg.address).toNat + index) % wordCount)
  | .this => some (((ram Cell.this.address).toNat + index) % wordCount)
  | .that => some (((ram Cell.that.address).toNat + index) % wordCount)
  | .temp => some (Cell.temp.address + index)
  | .pointer => some (Cell.this.address + index)
  | .static => some (symbols (n.static index))

/-- The value of an index of a segment. -/
def value (symbols : String → Nat) (n : Naming) (ram : Memory) (index : Nat) (g : Segment) :
    Word :=
  match g.target? symbols n ram index with
  | some t => ram t
  | none => BitVec.ofNat 16 index

/-- The cells that a pop to a segment uses for itself. -/
def scratch : Segment → List Nat
  | .local | .argument | .this | .that | .temp => [Cell.popAddress.address]
  | .constant | .pointer | .static => []

end Segment

/-! ## Moves -/

/-- A value has been pushed, and nothing else has changed. -/
structure Pushed (value : Word) (ram ram' : Memory) : Prop where
  sp : ram'.sp = ram.sp + 1
  top : ram' ram.sp = value
  frame : ∀ i, i ≠ Cell.sp.address → i ≠ ram.sp → ram' i = ram i

/-- The value on top has been popped to a cell, and nothing else has changed but scratch cells.  If
the cell is the stack pointer, it holds the value. -/
structure Popped (target : Nat) (scratch : List Nat) (ram ram' : Memory) : Prop where
  stored : ram' target = ram (ram.sp - 1)
  sp : target ≠ Cell.sp.address → ram'.sp = ram.sp - 1
  frame : ∀ i, i ≠ Cell.sp.address → i ≠ target → i ∉ scratch → ram' i = ram i

theorem pushed_push {ram : Memory} (value : Word) (h : 0 < ram.sp) (hlt : ram.sp < memorySize) :
    Pushed value ram (ram.push value) := by
  have hsize : memorySize = 32768 := rfl
  exact ⟨ram.sp_push value (by omega), ram.push_top value h,
    fun i hi hne => ram.push_of_ne value hi hne⟩

/-- The scratch cells may have been set before, but they do not count. -/
theorem popped_set {ram kept : Memory} {target : Nat} {scratch : List Nat}
    (hkept : kept.AgreesOff scratch ram) (hscratch : Cell.sp.address ∉ scratch) (h : 0 < ram.sp) :
    Popped target scratch ram (kept.drop.set target ram.top) where
  stored := Memory.set_self _ _ _
  sp hne := by
    have hsp : kept.sp = ram.sp := hkept.sp_eq hscratch
    rw [Memory.sp_set_of_ne _ hne, Memory.sp_drop (by omega), hsp]
  frame i hi hne hmem := by
    rw [Memory.set_of_ne _ _ hne, Memory.drop_of_ne _ hi, hkept i hmem]

/-! ## Places -/

section Places

variable {symbols : String → Nat} {n : Naming} {ram : Memory} {index : Nat} {g : Segment}
  {p : Place}

theorem target?_eq_none_iff : g.target? symbols n ram index = none ↔ g = .constant := by
  cases g <;> simp [Segment.target?]

theorem scratch_of_place (hp : g.place n index = .ok p) : p.scratch = g.scratch := by
  cases placedAt_of_place hp with
  | pointed h => cases g <;> cases h <;> rfl
  | _ => rfl

/-- The place of an index reaches the cell of the index. -/
theorem target_of_place (hc : KnowsCells symbols) (hindex : index < loadLimit)
    (hp : g.place n index = .ok p) {t : Nat} (ht : g.target? symbols n ram index = some t) :
    p.target symbols ram = t := by
  have hsum : ∀ word : Word,
      (BitVec.ofInt 16 index + word).toNat = (word.toNat + index) % wordCount := by
    intro word
    have hword : (BitVec.ofInt 16 index).toNat = index :=
      toNat_ofInt_of_lt (Int.natCast_nonneg index) (Int.ofNat_lt.mpr hindex)
    rw [BitVec.toNat_add, hword, Nat.add_comm]
    rfl
  generalize hi : (index : Int) = i at hp
  cases placedAt_of_place hp with
  | constant => cases ht
  | pointed h =>
    subst hi
    cases g <;> cases h <;> cases ht <;> exact hsum _
  | temp h =>
    have hsize : (tempSize : Int) = 8 := rfl
    subst hi
    cases ht
    show (BitVec.ofInt 16 index + 5#16).toNat = 5 + index
    rw [hsum, Nat.mod_eq_of_lt (by show 5 + index < 65536; omega)]
    rfl
  | this =>
    obtain rfl : index = 0 := by omega
    cases ht
    exact hc .this
  | that =>
    obtain rfl : index = 1 := by omega
    cases ht
    exact hc .that
  | static =>
    subst hi
    cases ht
    rfl

theorem value_of_place (hc : KnowsCells symbols) (hindex : index < loadLimit)
    (hp : g.place n index = .ok p) : p.value symbols ram = g.value symbols n ram index := by
  rw [Segment.value]
  cases ht : g.target? symbols n ram index with
  | none =>
    obtain rfl := target?_eq_none_iff.mp ht
    cases hp
    rfl
  | some t =>
    have hconstant : g ≠ .constant := by
      rintro rfl
      cases ht
    exact value_of_target (place_ne_literal hp hconstant) (target_of_place hc hindex hp ht)

end Places

/-! ## Blocks -/

/-- The stack can grow and shrink by one, and the cell of an index is one of the memory. -/
structure Segment.InReach (g : Segment) (n : Naming) (index : Nat) (symbols : String → Nat)
    (ram : Memory) : Prop where
  low : variableBase < ram.sp
  high : ram.sp < memorySize
  target : ∀ t, g.target? symbols n ram index = some t → t < memorySize

theorem Segment.InReach.sp_pos {g : Segment} {n : Naming} {index : Nat} {symbols : String → Nat}
    {ram : Memory} (h : g.InReach n index symbols ram) : 0 < ram.sp :=
  Nat.lt_of_le_of_lt (Nat.zero_le _) h.low

/-- One value has moved. -/
def Direction.Moved (d : Direction) (g : Segment) (n : Naming) (index : Nat)
    (symbols : String → Nat) (ram ram' : Memory) : Prop :=
  match d with
  | .push => Pushed (g.value symbols n ram index) ram ram'
  | .pop => ∃ t, g.target? symbols n ram index = some t ∧ Popped t g.scratch ram ram'

section Blocks

variable {d : Direction} {g : Segment} {n : Naming} {index : Nat}

theorem length_popCode_le {p : Place} {code : List Line} (h : p.popCode = .ok code) :
    code.length ≤ 16 := by
  cases p with
  | literal k => cases h
  | _ =>
    cases h
    exact Nat.le_of_ble_eq_true rfl

theorem length_pushCode_le (p : Place) : p.pushCode.length ≤ 16 := by
  cases p <;> exact Nat.le_of_ble_eq_true rfl

/-- The place of an index that is in reach has a cell of the memory. -/
theorem target_lt_of_inReach {symbols : String → Nat} {ram : Memory} {p : Place}
    (hc : KnowsCells symbols) (hindex : index < loadLimit) (hp : g.place n index = .ok p)
    (h : g.InReach n index symbols ram) : p.target symbols ram < memorySize := by
  cases ht : g.target? symbols n ram index with
  | none =>
    obtain rfl := target?_eq_none_iff.mp ht
    cases hp
    exact Nat.succ_pos _
  | some t =>
    rw [target_of_place hc hindex hp ht]
    exact h.target t ht

theorem push_contract (hindex : index < loadLimit)
    (haccepted : ((Command.push g.name index).block n).refusal = none) :
    Contract ((Command.push g.name index).block n).lines (g.InReach n index)
      (Direction.push.Moved g n index) := by
  obtain ⟨code, hcode, hlines⟩ := code_of_refusal_eq_none haccepted
  obtain ⟨p, hp, rfl, -⟩ := code_push_eq_ok hcode
  rw [place_name] at hp
  rw [hlines]
  apply Contract.comment
  apply Contract.of_follow (straight_pushCode p)
  intro lines program m hstanding hreach
  have hc := knowsCells_addressOf lines
  have htarget := target_lt_of_inReach hc hindex hp hreach
  obtain ⟨m', hfollow, hram⟩ :=
    follow_pushCode hc (loadable_of_pushCode hstanding) htarget hreach.sp_pos hreach.high
  refine ⟨m', hfollow, ?_⟩
  rw [hram, value_of_place hc hindex hp]
  exact pushed_push _ hreach.sp_pos hreach.high

theorem pop_contract (hindex : index < loadLimit)
    (haccepted : ((Command.pop g.name index).block n).refusal = none) :
    Contract ((Command.pop g.name index).block n).lines (g.InReach n index)
      (Direction.pop.Moved g n index) := by
  obtain ⟨code, hcode, hlines⟩ := code_of_refusal_eq_none haccepted
  obtain ⟨p, hp, hpop, -⟩ := code_pop_eq_ok hcode
  rw [place_name] at hp
  rw [hlines]
  apply Contract.comment
  apply Contract.of_follow (straight_popCode hpop)
  intro lines program m hstanding hreach
  have hc := knowsCells_addressOf lines
  have htarget := target_lt_of_inReach hc hindex hp hreach
  obtain ⟨m', kept, hfollow, hkept, hram⟩ := follow_popCode_keeping hc hpop
    (loadable_of_popCode hpop hstanding) htarget hreach.low (Nat.le_of_lt hreach.high)
  refine ⟨m', hfollow, ?_⟩
  cases ht : g.target? (addressOf lines) n m.ram index with
  | none =>
    -- Nothing is popped to a constant.
    obtain rfl := target?_eq_none_iff.mp ht
    cases hp
    cases hpop
  | some t =>
    refine ⟨t, ht, ?_⟩
    rw [scratch_of_place hp] at hkept
    rw [hram, target_of_place hc hindex hp ht]
    exact popped_set hkept (by cases g <;> decide) hreach.sp_pos

theorem move_assembles (hindex : index < loadLimit)
    (haccepted : ((d.command g.name index).block n).refusal = none) :
    ∃ program, assemble? ((d.command g.name index).block n).lines = some program := by
  have hbase : variableBase = 16 := rfl
  have hlimit : loadLimit = 32768 := rfl
  obtain ⟨code, hcode, hlines⟩ := code_of_refusal_eq_none haccepted
  have hlength : code.length ≤ 16 := by
    cases d with
    | push =>
      obtain ⟨p, -, rfl, -⟩ := code_push_eq_ok hcode
      exact length_pushCode_le p
    | pop =>
      obtain ⟨p, -, hpop, -⟩ := code_pop_eq_ok hcode
      exact length_popCode_le hpop
  have hshort : variableBase + ((d.command g.name index).block n).lines.length ≤ loadLimit := by
    rw [hlines, List.length_cons]
    omega
  have hnames : (Item.site ⟨n, d.command g.name index⟩).slot.names? = none := by cases d <;> rfl
  refine block_assembles hnames (fun k hk => hk.loadable ?_ ?_) hshort
  · rintro segment i h
    obtain ⟨-, rfl⟩ : g.name = segment ∧ (index : Int) = i := by
      cases d <;> simpa [Direction.command] using h
    omega
  · rintro name args h
    cases d <;> cases h

end Blocks

/-- The block of a push or a pop that is not refused, under any names and wherever it stands in an
assembled program, moves one value. -/
theorem stack_move_exact (d : Direction) (g : Segment) (n : Naming) {index : Nat}
    (hindex : index < loadLimit)
    (haccepted : ((d.command g.name index).block n).refusal = none) :
    (∃ program, assemble? ((d.command g.name index).block n).lines = some program) ∧
      Contract ((d.command g.name index).block n).lines (g.InReach n index)
        (d.Moved g n index) := by
  refine ⟨move_assembles hindex haccepted, ?_⟩
  cases d with
  | push => exact push_contract hindex haccepted
  | pop => exact pop_contract hindex haccepted

/-- The base of the locals three cells below the scratch cell, and a value on the stack. -/
def belowScratch : Machine where
  ram := fun i => if i = Cell.sp.address then 18 else if i = Cell.lcl.address then 10
    else if i = 17 then 7 else 0

/-- A value may be popped to the scratch cell itself. -/
theorem stack_move_exact_scratch :
    ∃ program m',
      assemble? ((Command.pop "local" 3).block { unit := "Main" }).lines = some program ∧
      Reaches program belowScratch m' ∧ step program m' = none ∧ m'.ram.sp = 17 ∧
      m'.ram Cell.popAddress.address = 7 := by
  obtain ⟨⟨program, hassembled⟩, hcontract⟩ :=
    @stack_move_exact .pop .local { unit := "Main" } 3 (by decide) rfl
  have hreach : Segment.InReach .local { unit := "Main" } 3
      (addressOf ((Command.pop "local" 3).block { unit := "Main" }).lines) belowScratch.ram :=
    ⟨by decide, by decide, fun t ht => by cases ht; decide⟩
  obtain ⟨m', hreaches, hend, t, ht, hpopped⟩ := hcontract.run_alone hassembled rfl hreach
  cases ht
  exact ⟨program, m', hassembled, hreaches, hend, hpopped.sp (by decide), hpopped.stored⟩

end VmToHack
