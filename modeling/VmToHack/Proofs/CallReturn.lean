import VmToHack.Proofs.Frames
import VmToHack.Proofs.Linking
set_option autoImplicit false

/-!
# Call and return

What a frame looks like cell by cell, and that a return behind a call gives the caller
back what it had.  The first half is about memories alone: `enter` and `leave` are read
as lists of cells.  The second half puts a call and a return into one assembled program.

Nothing is asked of what the callee does in between, except that it left its frame and
the two bases as they were and has a value on top of its stack.  Without arguments the
result goes where the address to return to was, and the theorem includes that case.
-/

namespace VmToHack

open VmToHack.Hack

namespace Hack.Memory

/-! ## Values in a row -/

/-- Pushes some values, the first one first. -/
def pushAll (ram : Memory) (values : List Word) : Memory := values.foldl push ram

theorem pushAll_cons (ram : Memory) (value : Word) (values : List Word) :
    ram.pushAll (value :: values) = (ram.push value).pushAll values := rfl

variable {ram : Memory} {values : List Word}

theorem sp_pushAll (h : ram.sp + values.length < 65536) :
    (ram.pushAll values).sp = ram.sp + values.length := by
  induction values generalizing ram with
  | nil => rfl
  | cons value values ih =>
    rw [List.length_cons] at h ⊢
    have hnext : (ram.push value).sp = ram.sp + 1 := sp_push value (by omega)
    rw [pushAll_cons, ih (by omega), hnext]
    omega

/-- The cells in front of the pushed values and behind them stay. -/
theorem pushAll_of_not_mem {i : Nat} (h : ram.sp + values.length < 65536)
    (h0 : i ≠ Cell.sp.address) (hi : i < ram.sp ∨ ram.sp + values.length ≤ i) :
    ram.pushAll values i = ram i := by
  induction values generalizing ram with
  | nil => rfl
  | cons value values ih =>
    rw [List.length_cons] at h hi
    have hnext : (ram.push value).sp = ram.sp + 1 := sp_push value (by omega)
    have hne : i ≠ ram.sp := by omega
    rw [pushAll_cons, ih (by omega) (by omega), push_of_ne ram value h0 hne]

/-- The pushed values lie in a row. -/
theorem pushAll_sp_add (h0 : 0 < ram.sp) (h : ram.sp + values.length < 65536) {k : Nat}
    (hk : k < values.length) : ram.pushAll values (ram.sp + k) = values[k] := by
  induction values generalizing ram k with
  | nil => simp at hk
  | cons value values ih =>
    rw [List.length_cons] at h hk
    have hnext : (ram.push value).sp = ram.sp + 1 := sp_push value (by omega)
    have hne : ram.sp ≠ Cell.sp.address := Nat.ne_of_gt h0
    cases k with
    | zero =>
      rw [pushAll_cons, Nat.add_zero, pushAll_of_not_mem (by omega) hne (by omega),
        push_top ram value h0]
      rfl
    | succ k =>
      have hcell : ram.sp + (k + 1) = (ram.push value).sp + k := by omega
      rw [pushAll_cons, hcell, ih (by omega) (by omega) (by omega)]
      rfl

/-! ## Frames -/

/-- The words of a frame, the address to return to first. -/
def frameOf (ram : Memory) (returnAddress : Word) : List Word :=
  returnAddress :: framed.map fun c => ram c.address

theorem length_frameOf (ram : Memory) (returnAddress : Word) :
    (ram.frameOf returnAddress).length = frameWords := rfl

/-- Cells below the stack are pushed as the words that they have in front of all pushes. -/
theorem foldl_pushCell (cells : List Cell)
    (hcells : ∀ c ∈ cells, c.address ≠ Cell.sp.address ∧ c.address < ram.sp)
    (hlt : ram.sp + cells.length < 65536) :
    cells.foldl (fun r c => r.push (r c.address)) ram =
      ram.pushAll (cells.map fun c => ram c.address) := by
  induction cells generalizing ram with
  | nil => rfl
  | cons c cells ih =>
    rw [List.length_cons] at hlt
    have hnext : (ram.push (ram c.address)).sp = ram.sp + 1 := sp_push _ (by omega)
    have hrest : ∀ c' ∈ cells, c'.address ≠ Cell.sp.address ∧ c'.address < ram.sp :=
      fun c' hc' => hcells c' (List.mem_cons_of_mem c hc')
    have hread : cells.map (fun c' => (ram.push (ram c.address)) c'.address) =
        cells.map fun c' => ram c'.address := by
      apply List.map_congr_left
      intro c' hc'
      exact push_of_ne ram _ (hrest c' hc').1 (Nat.ne_of_lt (hrest c' hc').2)
    rw [List.foldl_cons, ih _ (by omega), hread, List.map_cons, pushAll_cons]
    intro c' hc'
    exact ⟨(hrest c' hc').1, by have := (hrest c' hc').2; omega⟩

theorem framed_address_le :
    ∀ c ∈ framed, c.address ≠ Cell.sp.address ∧ c.address ≤ Cell.that.address := by
  decide

/-- Above the cells that it saves, a frame is pushed as the words that these cells have. -/
theorem pushFrame_eq (returnAddress : Word) (h : Cell.that.address < ram.sp)
    (hlt : ram.sp + frameWords < 65536) :
    ram.pushFrame returnAddress = ram.pushAll (ram.frameOf returnAddress) := by
  have hfive : frameWords = framed.length + 1 := rfl
  have hnext : (ram.push returnAddress).sp = ram.sp + 1 := sp_push _ (by omega)
  have hread : framed.map (fun c => (ram.push returnAddress) c.address) =
      framed.map fun c => ram c.address := by
    apply List.map_congr_left
    intro c hc
    obtain ⟨hne, hle⟩ := framed_address_le c hc
    exact push_of_ne ram _ hne (by omega)
  unfold pushFrame
  rw [foldl_pushCell, hread, frameOf, pushAll_cons]
  · intro c hc
    obtain ⟨hne, hle⟩ := framed_address_le c hc
    exact ⟨hne, by omega⟩
  · omega

theorem sp_pushFrame (returnAddress : Word) (h : Cell.that.address < ram.sp)
    (hlt : ram.sp + frameWords < 65536) :
    (ram.pushFrame returnAddress).sp = ram.sp + frameWords := by
  have hlen := length_frameOf ram returnAddress
  rw [pushFrame_eq returnAddress h hlt, sp_pushAll (by omega), hlen]

/-! ## Entering -/

section Enter

variable (returnAddress : Word) {args : Nat}

theorem enter_apply (args : Word) {i : Nat} (h1 : i ≠ Cell.lcl.address)
    (h2 : i ≠ Cell.arg.address) :
    ram.enter returnAddress args i = ram.pushFrame returnAddress i := by
  rw [enter, set_of_ne _ _ h1, set_of_ne _ _ h2]

theorem sp_enter (args : Word) (h : Cell.that.address < ram.sp)
    (hlt : ram.sp + frameWords < 65536) :
    (ram.enter returnAddress args).sp = ram.sp + frameWords := by
  rw [← sp_pushFrame returnAddress h hlt, sp, enter_apply returnAddress args (by decide) (by decide)]
  rfl

theorem enter_lcl (args : Word) (h : Cell.that.address < ram.sp)
    (hlt : ram.sp + frameWords < 65536) :
    (ram.enter returnAddress args Cell.lcl.address).toNat = ram.sp + frameWords := by
  rw [enter, set_self]
  exact sp_pushFrame returnAddress h hlt

/-- The base of the arguments lies as far below the frame as there are arguments. -/
theorem enter_arg (h : Cell.that.address < ram.sp) (hlt : ram.sp + frameWords < 65536)
    (hargs : args ≤ ram.sp) :
    (ram.enter returnAddress (BitVec.ofNat 16 args) Cell.arg.address).toNat = ram.sp - args := by
  have hframe := sp_pushFrame returnAddress h hlt
  have hsp := ram.sp_lt
  rw [enter, set_of_ne _ _ (by decide), set_self]
  rw [sp] at hframe
  have hfive : frameWords = 5 := rfl
  rw [hfive] at hframe hlt ⊢
  bv_omega

/-- The words of the frame lie where the stack ended. -/
theorem enter_sp_add (args : Word) (h : Cell.that.address < ram.sp)
    (hlt : ram.sp + frameWords < 65536) {k : Nat}
    (hk : k < (ram.frameOf returnAddress).length) :
    ram.enter returnAddress args (ram.sp + k) = (ram.frameOf returnAddress)[k] := by
  have hlen := length_frameOf ram returnAddress
  have hfour : Cell.that.address = 4 := rfl
  have h1 : ram.sp + k ≠ Cell.lcl.address := by show ram.sp + k ≠ 1; omega
  have h2 : ram.sp + k ≠ Cell.arg.address := by show ram.sp + k ≠ 2; omega
  rw [enter_apply returnAddress args h1 h2, pushFrame_eq returnAddress h hlt,
    pushAll_sp_add (by omega) (by omega) hk]

/-- Besides the frame, a call changes the stack pointer and the two bases only. -/
theorem enter_of_not_mem (args : Word) (h : Cell.that.address < ram.sp)
    (hlt : ram.sp + frameWords < 65536) {i : Nat}
    (hcell : i ∉ [Cell.sp.address, Cell.lcl.address, Cell.arg.address])
    (hi : i < ram.sp ∨ ram.sp + frameWords ≤ i) :
    ram.enter returnAddress args i = ram i := by
  have hlen := length_frameOf ram returnAddress
  simp only [List.mem_cons, List.not_mem_nil, or_false, not_or] at hcell
  rw [enter_apply returnAddress args hcell.2.1 hcell.2.2, pushFrame_eq returnAddress h hlt,
    pushAll_of_not_mem (by omega) hcell.1 (by omega)]

end Enter

/-! ## Leaving -/

section Leave

/-- Where the frame and the first argument of a callee are: the frame ends at the base of
the locals, and the argument lies behind the registers and below the frame. -/
structure InFrame (ram : Memory) (finish first : Nat) : Prop where
  lcl_eq : (ram Cell.lcl.address).toNat = finish
  arg_eq : (ram Cell.arg.address).toNat = first
  first_gt : variableBase ≤ first
  first_le : first + frameWords ≤ finish

variable {finish first : Nat}

/-- The words of a frame, counted from its end. -/
theorem InFrame.toNat_sub (h : InFrame ram finish first) {offset : Nat}
    (ho : offset ≤ frameWords) :
    (ram Cell.lcl.address - BitVec.ofNat 16 offset).toNat = finish - offset := by
  have hfive : frameWords = 5 := rfl
  have hle := h.first_le
  have hend := h.lcl_eq
  have hlt := (ram Cell.lcl.address).isLt
  bv_omega

/-- The result is the value on top, and all other cells of the stack stay. -/
theorem answer_apply (h : InFrame ram finish first) {i : Nat} (h0 : i ≠ Cell.sp.address) :
    ram.answer i = if i = first then ram.top else ram i := by
  rw [answer, set_of_ne _ _ h0, h.arg_eq, Memory.set, drop_of_ne _ h0]

theorem answer_sp (h : InFrame ram finish first) :
    (ram.answer Cell.sp.address).toNat = first + 1 := by
  have hlow := h.first_gt
  have hbase : variableBase = 16 := rfl
  have hne : Cell.arg.address ≠ first := by show 2 ≠ first; omega
  have hlt := (ram Cell.lcl.address).isLt
  have hle := h.first_le
  have hend := h.lcl_eq
  have harg := h.arg_eq
  have hfive : frameWords = 5 := rfl
  rw [answer, set_self, h.arg_eq, set_of_ne _ _ hne, drop_of_ne _ (by decide)]
  bv_omega

/-- Restoring cells changes these only. -/
theorem restoreAll_of_not_mem (frame : Word) (saved : List (Cell × Nat)) {i : Nat}
    (hi : i ∉ saved.map fun p => p.1.address) :
    saved.foldl (fun r (c, offset) => restore frame r c offset) ram i = ram i := by
  induction saved generalizing ram with
  | nil => rfl
  | cons p saved ih =>
    rw [List.map_cons, List.mem_cons, not_or] at hi
    rw [List.foldl_cons, ih hi.2]
    exact set_of_ne _ _ hi.1

/-- A restored cell has its word of the frame, if no word of the frame is restored. -/
theorem restoreAll_of_mem (frame : Word) (saved : List (Cell × Nat))
    (hnodup : (saved.map fun p => p.1.address).Nodup)
    (hwords : ∀ p ∈ saved, ∀ q ∈ saved,
      (frame - BitVec.ofNat 16 p.2).toNat ≠ q.1.address) {c : Cell} {offset : Nat}
    (hmem : (c, offset) ∈ saved) :
    saved.foldl (fun r (c, offset) => restore frame r c offset) ram c.address =
      ram (frame - BitVec.ofNat 16 offset).toNat := by
  induction saved generalizing ram with
  | nil => cases hmem
  | cons p saved ih =>
    rw [List.map_cons, List.nodup_cons] at hnodup
    have hrest : ∀ q ∈ saved, ∀ q' ∈ saved,
        (frame - BitVec.ofNat 16 q.2).toNat ≠ q'.1.address := fun q hq q' hq' =>
      hwords q (List.mem_cons_of_mem p hq) q' (List.mem_cons_of_mem p hq')
    rw [List.foldl_cons]
    cases hmem with
    | head =>
      rw [restoreAll_of_not_mem frame saved hnodup.1]
      exact set_self _ _ _
    | tail _ htail =>
      rw [ih hnodup.2 hrest htail]
      exact set_of_ne _ _ (hwords _ (List.mem_cons_of_mem p htail) p List.mem_cons_self)

/-- A word of the frame is still there when the result is in place. -/
theorem answer_frame (h : InFrame ram finish first) {offset : Nat} (hlt : offset < frameWords) :
    ram.answer (ram Cell.lcl.address - BitVec.ofNat 16 offset).toNat = ram (finish - offset) := by
  have hlow := h.first_gt
  have hle := h.first_le
  have hbase : variableBase = 16 := rfl
  have h0 : finish - offset ≠ Cell.sp.address := by show finish - offset ≠ 0; omega
  rw [h.toNat_sub (by omega), answer_apply h h0, if_neg (by omega)]

/-- Every saved cell gets its word of the frame. -/
theorem leave_saved (h : InFrame ram finish first) {c : Cell} {offset : Nat}
    (hmem : (c, offset) ∈ framed.reverse.zipIdx 1) :
    ram.leave c.address = ram (finish - offset) := by
  have hoffset : ∀ p ∈ framed.reverse.zipIdx 1, p.2 < frameWords := by decide
  have hcell : ∀ p ∈ framed.reverse.zipIdx 1, p.1.address < variableBase := by decide
  have hlow := h.first_gt
  have hle := h.first_le
  rw [leave, restoreAll_of_mem _ _ (by decide) _ hmem, answer_frame h (hoffset _ hmem)]
  intro p hp q hq
  have hp' := hoffset p hp
  have hq' := hcell q hq
  rw [h.toNat_sub (by omega)]
  omega

/-- All else that a return changes is the cell of the first argument and the stack pointer. -/
theorem leave_of_not_mem {i : Nat} (hi : i ∉ framed.map Cell.address) :
    ram.leave i = ram.answer i := by
  have hsaved : ∀ j ∈ (framed.reverse.zipIdx 1).map (fun p => p.1.address),
      j ∈ framed.map Cell.address := by decide
  apply restoreAll_of_not_mem _ _
  intro hmem
  exact hi (hsaved i hmem)

end Leave

end Hack.Memory

/-! ## Calls and returns in a program -/

section Program

variable {lines : List Line} {program : List Instruction} {m : Machine}

/-- The return label of a call stands for the address behind it. -/
theorem mem_labels_returnLabel {f returnLabel : String} {args : Int} {start : Nat} :
    (returnLabel, start + codeSize (callCode f args returnLabel)) ∈
      labels start (callCode f args returnLabel) := by
  have hsplit : callCode f args returnLabel =
      (frameCode returnLabel ++
        [.symbol Cell.sp.symbol, .setD (.operand .m), .number (args + frameSize),
          .setD (.sub .a)] ++ storeD Cell.arg.symbol ++
        loadCell Cell.sp.symbol ++ storeD Cell.lcl.symbol ++ goto f) ++
        [.label returnLabel] := rfl
  rw [hsplit, labels_append, codeSize_append]
  exact List.mem_append_right _ List.mem_cons_self

/-- The address behind a call can be loaded. -/
theorem behind_call_lt {f returnLabel : String} {args : Int} {start : Nat}
    (h : Standing lines program start (callCode f args returnLabel)) :
    start + codeSize (callCode f args returnLabel) < memorySize := by
  have hlt := h.addressOf_lt returnLabel (by simp [callCode, frameCode, loadAddress])
  rwa [h.addressOf_label mem_labels_returnLabel] at hlt

/-- A call goes to the function, with a frame on the stack that says to go on behind it. -/
theorem reaches_call {f returnLabel : String} {args : Int}
    (h : Standing lines program m.pc (callCode f args returnLabel)) (h0 : 0 < m.ram.sp)
    (hsp : m.ram.sp + frameSize ≤ memorySize) :
    ∃ m', Reaches program m m' ∧ m'.pc = addressOf lines f ∧
      m'.ram = m.ram.enter
        (BitVec.ofNat 16 (m.pc + codeSize (callCode f args returnLabel)))
        (BitVec.ofInt 16 args) := by
  have hnumber := h.number_fits (args + frameSize) (by simp [callCode])
  have hname := h.addressOf_lt f (by simp [callCode, goto])
  have hback := h.addressOf_lt returnLabel (by simp [callCode, frameCode, loadAddress])
  rw [← h.addressOf_label mem_labels_returnLabel]
  exact reaches_callCode (knowsCells_addressOf lines) h.placed hnumber.1 hnumber.2 hname hback h0
    hsp

/-- A return goes where the frame says. -/
theorem reaches_return {finish first : Nat} (h : Standing lines program m.pc returnCode)
    (hframe : Memory.InFrame m.ram finish first) (hlow : finish < m.ram.sp)
    (hsp : m.ram.sp ≤ memorySize) (hgoal : m.ram.returnAddress.toNat < memorySize) :
    ∃ m', Reaches program m m' ∧ m'.pc = m.ram.returnAddress.toNat ∧
      m'.ram.AgreesOff returnScratch m.ram.leave := by
  have hbase : variableBase = 16 := rfl
  have hwords : Memory.frameWords = frameSize := rfl
  have hfirst := hframe.first_gt
  have hfinish := hframe.first_le
  -- All that the return reads and writes lies between the registers and the top.
  have hclear : ∀ i, variableBase ≤ i → i < memorySize → Clear i := by
    intro i hi hlt
    refine ⟨hlt, ?_⟩
    simp only [returnScratch, Cell.address, List.mem_cons, List.not_mem_nil, or_false]
    omega
  refine reaches_returnCode (knowsCells_addressOf lines) h.placed (by omega) hsp ?_ ?_ hgoal
  · rw [hframe.arg_eq]
    exact hclear first hfirst (by omega)
  · intro offset hpos hle
    rw [hframe.toNat_sub (by omega)]
    exact hclear _ (by omega) (by omega)

end Program

/-! ## A call and its return -/

/-- A call with the stack ending at `s`: from one memory to the other. -/
structure Called (s args : Nat) (goal : Word) (ram ram' : Memory) : Prop where
  frame : (List.range' s frameSize).map ram' = goal :: savedCells.map fun c => ram c.address
  arg : (ram' Cell.arg.address).toNat = s - args
  lcl : (ram' Cell.lcl.address).toNat = s + frameSize
  sp : ram'.sp = s + frameSize
  others : ram'.AgreesOff
    ([Cell.sp.address, Cell.lcl.address, Cell.arg.address] ++ List.range' s frameSize) ram

/-- A callee that may return: of what the call left, the frame and the two bases are still
there, and the stack holds a value behind them. -/
structure MayReturn (s args : Nat) (ram ram' : Memory) : Prop where
  frame : ∀ i ∈ List.range' s frameSize, ram' i = ram i
  arg : (ram' Cell.arg.address).toNat = s - args
  lcl : (ram' Cell.lcl.address).toNat = s + frameSize
  sp_gt : s + frameSize < ram'.sp
  sp_lt : ram'.sp < memorySize

/-- A return to the caller: the result is where the arguments began, the caller's bases are
back, and besides these only the two cells of the return have changed. -/
structure Returned (s args : Nat) (caller ram ram' : Memory) : Prop where
  result : ram' (s - args) = ram.top
  sp : ram'.sp = s - args + 1
  saved : ∀ c ∈ savedCells, ram' c.address = caller c.address
  others : ram'.AgreesOff
    ((s - args) :: Cell.sp.address :: savedCells.map Cell.address ++ returnScratch) ram

theorem called_enter {ram : Memory} {args : Nat} (goal : Word) (hlow : variableBase + args ≤ ram.sp)
    (hsp : ram.sp + frameSize < memorySize) :
    Called ram.sp args goal ram (ram.enter goal (BitVec.ofNat 16 args)) := by
  have hbase : variableBase = 16 := rfl
  have hsize : memorySize = 32768 := rfl
  have hfour : Cell.that.address = 4 := rfl
  have hwords : Memory.frameWords = frameSize := rfl
  have hlen := Memory.length_frameOf ram goal
  refine ⟨?_, ?_, ?_, ?_, ?_⟩
  · show _ = ram.frameOf goal
    refine List.ext_getElem (by simp [hlen, hwords]) ?_
    intro k hk hk'
    rw [List.getElem_map, List.getElem_range', Nat.one_mul]
    exact Memory.enter_sp_add goal _ (by omega) (by omega) hk'
  · exact Memory.enter_arg goal (by omega) (by omega) (by omega)
  · exact Memory.enter_lcl goal _ (by omega) (by omega)
  · exact Memory.sp_enter goal _ (by omega) (by omega)
  · intro i hi
    rw [List.mem_append, not_or, List.mem_range'_1] at hi
    exact Memory.enter_of_not_mem goal _ (by omega) (by omega) hi.1 (by omega)

theorem MayReturn.inFrame {s args : Nat} {ram ram' : Memory} (h : MayReturn s args ram ram')
    (hlow : variableBase + args ≤ s) : Memory.InFrame ram' (s + frameSize) (s - args) := by
  have hwords : Memory.frameWords = frameSize := rfl
  refine ⟨h.lcl, h.arg, ?_, ?_⟩
  · omega
  · omega

/-- The words of the frame that a callee left alone. -/
theorem MayReturn.frame_eq {s args : Nat} {goal : Word} {caller ram ram' : Memory}
    (hcalled : Called s args goal caller ram) (h : MayReturn s args ram ram') {k : Nat}
    (hk : k < (caller.frameOf goal).length) : ram' (s + k) = (caller.frameOf goal)[k] := by
  have hk' : k < frameSize := hk
  have hmem : s + k ∈ List.range' s frameSize := by
    rw [List.mem_range'_1]
    omega
  have hframe : (List.range' s frameSize).map ram = caller.frameOf goal := hcalled.frame
  rw [h.frame _ hmem]
  have hword := congrArg (fun words => words[k]?) hframe
  simp only [List.getElem?_map, List.getElem?_range' hk', Nat.one_mul, Option.map_some] at hword
  rw [List.getElem?_eq_getElem hk] at hword
  exact Option.some.inj hword

/-- The address to return to is the lowest word of the frame. -/
theorem MayReturn.returnAddress_eq {s args : Nat} {goal : Word} {caller ram ram' : Memory}
    (hcalled : Called s args goal caller ram) (h : MayReturn s args ram ram')
    (hlow : variableBase + args ≤ s) : ram'.returnAddress = goal := by
  have hword := (h.inFrame hlow).toNat_sub (Nat.le_refl Memory.frameWords)
  have hend : s + frameSize - Memory.frameWords = s + 0 := by
    have hwords : Memory.frameWords = frameSize := rfl
    omega
  unfold Memory.returnAddress
  rw [hword, hend]
  exact h.frame_eq hcalled (Nat.succ_pos _)

theorem returned_leave {s args : Nat} {goal : Word} {caller ram ram' : Memory}
    (hcalled : Called s args goal caller ram) (h : MayReturn s args ram ram')
    (hlow : variableBase + args ≤ s) : Returned s args caller ram' ram'.leave := by
  have hbase : variableBase = 16 := rfl
  have hwords : frameSize = 5 := rfl
  have hframe := h.inFrame hlow
  have hfirst : s - args ∉ savedCells.map Cell.address := by
    have hcells : ∀ i ∈ savedCells.map Cell.address, i < variableBase := by decide
    intro hmem
    have := hcells _ hmem
    omega
  refine ⟨?_, ?_, ?_, ?_⟩
  · have h0 : s - args ≠ Cell.sp.address := by show s - args ≠ 0; omega
    rw [Memory.leave_of_not_mem hfirst, Memory.answer_apply hframe h0, if_pos rfl]
  · have h0 : Cell.sp.address ∉ Memory.framed.map Cell.address := by decide
    unfold Memory.sp
    rw [Memory.leave_of_not_mem h0, Memory.answer_sp hframe]
  · -- The saved cells lie in the frame from its second word on.
    have hsaved : ∀ (c : Cell) (k : Nat) (hk : k < (caller.frameOf goal).length),
        (c, frameSize - k) ∈ Memory.framed.reverse.zipIdx 1 →
          ram'.leave c.address = (caller.frameOf goal)[k] := by
      intro c k hk hmem
      have hk' : k < frameSize := hk
      have hcell : s + frameSize - (frameSize - k) = s + k := by omega
      rw [Memory.leave_saved hframe hmem, hcell, h.frame_eq hcalled hk]
    have hlen : (caller.frameOf goal).length = 5 := rfl
    intro c hc
    simp only [savedCells, List.mem_cons, List.not_mem_nil, or_false] at hc
    rcases hc with rfl | rfl | rfl | rfl
    · exact hsaved .lcl 1 (by omega) (by decide)
    · exact hsaved .arg 2 (by omega) (by decide)
    · exact hsaved .this 3 (by omega) (by decide)
    · exact hsaved .that 4 (by omega) (by decide)
  · intro i hi
    simp only [List.cons_append, List.mem_cons, List.mem_append, not_or] at hi
    rw [Memory.leave_of_not_mem hi.2.2.1, Memory.answer_apply hframe hi.2.1, if_neg hi.1]

/-- What a return has done does not depend on what it keeps in its two cells. -/
theorem Returned.of_agreesOff {s args : Nat} {caller ram ram' ram'' : Memory}
    (h : Returned s args caller ram ram') (hagree : ram''.AgreesOff returnScratch ram')
    (hlow : variableBase + args ≤ s) : Returned s args caller ram ram'' := by
  have hbase : variableBase = 16 := rfl
  have hfirst : s - args ∉ returnScratch := by
    simp only [returnScratch, Cell.address, List.mem_cons, List.not_mem_nil, or_false]
    omega
  have hcells : ∀ c ∈ savedCells, c.address ∉ returnScratch := by decide
  refine ⟨?_, ?_, ?_, ?_⟩
  · rw [hagree _ hfirst, h.result]
  · rw [hagree.sp_eq (by decide), h.sp]
  · intro c hc
    rw [hagree _ (hcells c hc), h.saved c hc]
  · intro i hi
    have hscratch : i ∉ returnScratch := fun hmem => hi (List.mem_append_right _ hmem)
    rw [hagree i hscratch, h.others i hi]

/-- A call in an assembled program leads to the function, with a frame on the stack; and
wherever a return of the same program is reached with that frame, it leads back behind the
call, with the caller's cells as they were and the result on the caller's stack. -/
theorem call_then_return_restores_caller {lines before after before' after' : List Line}
    {program : List Instruction} {n n' : Naming} {f : String} {args entry goal : Nat} {m : Machine}
    (h : assemble? lines = some program)
    (hcall : lines = before ++ ((Command.call f args).block n).lines ++ after)
    (hreturn : lines = before' ++ (Command.ret.block n').lines ++ after')
    (hentry : (f, entry) ∈ labels 0 lines)
    (hgoal : goal = codeSize (before ++ ((Command.call f args).block n).lines))
    (hpc : m.pc = codeSize before) (hlow : variableBase + args ≤ m.ram.sp)
    (hsp : m.ram.sp + frameSize < memorySize) :
    ∃ m₁, Reaches program m m₁ ∧ m₁.pc = entry ∧
      Called m.ram.sp args (BitVec.ofNat 16 goal) m.ram m₁.ram ∧
      ∀ m₂ : Machine, m₂.pc = codeSize before' → MayReturn m.ram.sp args m₁.ram m₂.ram →
        ∃ m₃, Reaches program m₂ m₃ ∧ m₃.pc = goal ∧
          Returned m.ram.sp args m.ram m₂.ram m₃.ram := by
  have hbase : variableBase = 16 := rfl
  have hsize : memorySize = 32768 := rfl
  have hcallBlock : Standing lines program m.pc (.comment (Command.call f args).text ::
      callCode f args n.returnLabel) := ⟨h, before, after, hcall, hpc.symm⟩
  have hcallCode := hcallBlock.comment
  have hgoalCode : goal = m.pc + codeSize (callCode f args n.returnLabel) := by
    have hblock : ((Command.call f args).block n).lines =
        .comment (Command.call f args).text :: callCode f args n.returnLabel := rfl
    rw [hgoal, codeSize_append, hpc, hblock, codeSize_comment]
  obtain ⟨m₁, hreach₁, hpc₁, hram₁⟩ := reaches_call hcallCode (by omega) (by omega)
  have hword : BitVec.ofInt 16 (args : Int) = BitVec.ofNat 16 args := BitVec.ofInt_natCast 16 args
  have hcalled : Called m.ram.sp args (BitVec.ofNat 16 goal) m.ram m₁.ram := by
    rw [hram₁, ← hgoalCode, hword]
    exact called_enter _ hlow hsp
  have hgoalLt : goal < memorySize := by
    rw [hgoalCode]
    exact behind_call_lt hcallCode
  have hgoalNat : (BitVec.ofNat 16 goal).toNat = goal := toNat_ofNat_of_lt hgoalLt
  refine ⟨m₁, hreach₁, by rw [hpc₁, addressOf_of_mem_labels h hentry], hcalled, ?_⟩
  intro m₂ hpc₂ hready
  have hgoal₂ := hready.returnAddress_eq hcalled hlow
  have hgt := hready.sp_gt
  have hlt := hready.sp_lt
  have hreturnBlock : Standing lines program m₂.pc (.comment Command.ret.text :: returnCode) :=
    ⟨h, before', after', hreturn, hpc₂.symm⟩
  obtain ⟨m₃, hreach₃, hpc₃, hagree⟩ :=
    reaches_return hreturnBlock.comment (hready.inFrame hlow) hgt (by omega)
      (by rw [hgoal₂, hgoalNat]; exact hgoalLt)
  refine ⟨m₃, hreach₃, by rw [hpc₃, hgoal₂, hgoalNat], ?_⟩
  exact (returned_leave hcalled hready hlow).of_agreesOff hagree hlow

/-- The names inside the function of the smallest program with a call that returns. -/
def tinyNaming : Naming := ⟨"Main", "f", 1, 1⟩

/-- A function that returns at once. -/
def tinyCallee : List Line := ((Command.function "f" 0).block tinyNaming).lines

/-- That function, and a call of it. -/
def tinyProgram : List Line :=
  tinyCallee ++ (Command.ret.block tinyNaming).lines ++
    ((Command.call "f" 0).block tinyNaming).lines

/-- A machine in front of the call. -/
def tinyCaller : Machine where
  pc := codeSize (tinyCallee ++ (Command.ret.block tinyNaming).lines)
  ram := fun i => if i = Cell.sp.address then 256 else 7

theorem assemble?_tinyProgram :
    assemble? tinyProgram = some (instructions (addressOf tinyProgram) tinyProgram) := by
  rw [assemble?_eq_some_iff]
  refine ⟨by decide, by decide, rfl⟩

theorem call_then_return_restores_caller_tiny :
    ∃ m₁, Reaches (instructions (addressOf tinyProgram) tinyProgram) tinyCaller m₁ ∧
      m₁.pc = 0 ∧ Called 256 0 (BitVec.ofNat 16 (codeSize tinyProgram)) tinyCaller.ram m₁.ram ∧
      ∀ m₂ : Machine, m₂.pc = 0 → MayReturn 256 0 m₁.ram m₂.ram →
        ∃ m₃, Reaches (instructions (addressOf tinyProgram) tinyProgram) m₂ m₃ ∧
          m₃.pc = codeSize tinyProgram ∧ Returned 256 0 tinyCaller.ram m₂.ram m₃.ram :=
  call_then_return_restores_caller assemble?_tinyProgram (List.append_nil _).symm rfl
    (by decide) rfl rfl (by decide) (by decide)

end VmToHack
