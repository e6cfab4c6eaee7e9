import VmToHack.Lowering.Submit
import VmToHack.Proofs.Sections
import VmToHack.Proofs.Spelling
set_option autoImplicit false

/-!
# Submissions: which numbers are printed

A command is printed (`Command.Printed`) if its own number is, the numbers of the labels that it
makes are, and for a call the size of the frame with its arguments.  Then to submit it is to write
it.  Otherwise either nothing happens, as the command has no text, or the beginning of its block is
written and the names move on as usual (`naming_submit`, `output_submit`).

What a source says is always printed: its numbers are small, and a counter does not come to more
than there are commands.  So nothing is lost where a source is translated by `Writer.write`
(`submitAll_eq_writeAll`).
-/

namespace VmToHack

open VmToHack.Hack VmToHack.Text VmToHack.Grammar

/-! ## Printed commands -/

/-- All numbers in the block of a command are printed. -/
structure Command.Printed (n : Naming) (c : Command) : Prop where
  hasText : c.HasText
  /-- The numbers of the labels that the command makes. -/
  made : ∀ mark ∈ c.marks, FitsNumeral (n.next mark)
  /-- The size of a call's frame with its arguments. -/
  frame : ∀ f args, c = .call f args → FitsNumeral (args + frameSize)

section Commands

variable {n : Naming} {c : Command}

theorem cut?_arithmetic (n : Naming) (op : String) :
    (Command.arithmetic op).cut? n =
      if (Command.arithmetic op).comparison?.isSome ∧ ¬ FitsNumeral n.comparisons then some []
      else none := by
  cases ho : Operator.ofMnemonic? op with
  | none => simp [Command.cut?, Command.comparison?, ho]
  | some o =>
    cases o <;> simp [Command.cut?, Command.comparison?, ho, Operator.effect, Operator.compares,
      Option.filter]

/-- A comparison makes two labels with one number. -/
theorem made_arithmetic (n : Naming) (op : String) :
    (∀ mark ∈ (Command.arithmetic op).marks, FitsNumeral (n.next mark)) ↔
      ((Command.arithmetic op).comparison?.isSome → FitsNumeral n.comparisons) := by
  cases hc : (Command.arithmetic op).comparison? with
  | none => simp [Command.marks, hc]
  | some o => simp [Command.marks, hc, Naming.next]

theorem made_call (n : Naming) (f : String) (args : Int) :
    (∀ mark ∈ (Command.call f args).marks, FitsNumeral (n.next mark)) ↔ FitsNumeral n.calls :=
  List.forall_mem_singleton

/-- A block is cut where there is a number in it that is not printed. -/
theorem cut?_eq_none_iff : c.cut? n = none ↔
    (∀ mark ∈ c.marks, FitsNumeral (n.next mark)) ∧
      ∀ f args, c = .call f args → FitsNumeral (args + frameSize) := by
  cases c with
  | arithmetic op =>
    rw [cut?_arithmetic, made_arithmetic]
    simp
  | call f args =>
    rw [made_call]
    by_cases hcalls : FitsNumeral n.calls
    · by_cases hframe : FitsNumeral (args + frameSize)
      · simp [Command.cut?, hcalls, hframe]
      · simp [Command.cut?, hcalls, hframe]
    · simp [Command.cut?, hcalls]
  | _ => simp [Command.cut?, Command.marks, Command.comparison?]

theorem printed_iff : c.Printed n ↔ c.HasText ∧ c.cut? n = none := by
  rw [cut?_eq_none_iff]
  constructor
  · exact fun h => ⟨h.hasText, h.made, h.frame⟩
  · exact fun ⟨htext, hmade, hframe⟩ => ⟨htext, hmade, hframe⟩

instance : Decidable (c.Printed n) := decidable_of_iff _ printed_iff.symm

/-- What is cut is the block of a command that has code, behind its header and some of the code. -/
theorem block_of_cut? {code : List Line} (h : c.cut? n = some code) :
    ∃ rest, (c.block n).lines = .comment c.text :: (code ++ rest) ∧ (c.block n).refusal = none := by
  cases c with
  | arithmetic op =>
    rw [cut?_arithmetic, Option.ite_none_right_eq_some] at h
    obtain ⟨⟨hcompares, -⟩, h⟩ := h
    cases h
    obtain ⟨o, ho⟩ := Option.isSome_iff_exists.mp hcompares
    obtain ⟨hop, -⟩ := Option.filter_eq_some_iff.mp ho
    have hcode : (Command.arithmetic op).code n = .ok (o.code n) := by rw [Command.code, hop]
    rw [block_of_code hcode]
    exact ⟨_, rfl, rfl⟩
  | call f args =>
    refine ⟨(callCode f args n.returnLabel).drop code.length, ?_, rfl⟩
    have hprefix : code <+: callCode f args n.returnLabel := by
      rw [Command.cut?] at h
      split at h
      · cases h
        exact List.nil_prefix
      · split at h
        · cases h
          simp only [callCode, List.append_assoc]
          exact List.prefix_append _ _
        · cases h
    rw [List.prefix_iff_eq_append.mp hprefix]
    rfl
  | _ => cases h

theorem refusal_of_cut? (h : c.cut? n ≠ none) : (c.block n).refusal = none := by
  obtain ⟨code, hcode⟩ := Option.ne_none_iff_exists'.mp h
  obtain ⟨-, -, hrefusal⟩ := block_of_cut? hcode
  exact hrefusal

theorem offered_of_printed (h : c.Printed n) : c.offered n = (c.block n).lines := by
  rw [Command.offered, (printed_iff.mp h).2]

/-- What is offered is a block or the beginning of one, behind its header. -/
theorem isPrefix_offered (n : Naming) (c : Command) : c.offered n <+: (c.block n).lines := by
  cases h : c.cut? n with
  | none => exact ⟨[], by rw [List.append_nil, Command.offered, h]⟩
  | some code =>
    obtain ⟨rest, hlines, -⟩ := block_of_cut? h
    rw [Command.offered, h, hlines]
    exact ⟨rest, rfl⟩

end Commands

/-! ## Submitting -/

namespace Writer

section Submit

variable {w : Writer} {c : Command}

theorem submit_of_not_hasText (h : ¬ c.HasText) (w : Writer) :
    w.submit c = (w, some .overlong) := if_neg h

theorem submit_of_hasText (h : c.HasText) (w : Writer) : w.submit c =
    let p := w.put (c.offered w.naming) (c.block w.naming).naming (c.block w.naming).refusal
    (p.1, (p.2.map .write).or ((c.cut? w.naming).map fun _ => .overlong)) := if_pos h

theorem submit_of_unlimited (hroom : w.output.room = none) (h : c.HasText) : w.submit c =
    (⟨(c.block w.naming).naming, ⟨none, w.output.blocks.push (c.offered w.naming)⟩⟩,
      ((c.block w.naming).refusal.map fun r => .write (.refused r)).or
        ((c.cut? w.naming).map fun _ => .overlong)) := by
  rw [submit_of_hasText h]
  obtain ⟨n, room, blocks⟩ := w
  cases hroom
  simp [put, Output.write, Function.comp_def]

theorem unlimited_submit (hroom : w.output.room = none) (c : Command) :
    (w.submit c).1.output.room = none := by
  by_cases h : c.HasText
  · rw [submit_of_unlimited hroom h]
  · rwa [submit_of_not_hasText h]

/-- A command that is printed is written. -/
theorem submit_of_printed (h : c.Printed w.naming) :
    w.submit c = ((w.write c).1, (w.write c).2.map .write) := by
  rw [submit_of_hasText h.hasText, offered_of_printed h, (printed_iff.mp h).2]
  simp [write]

/-- The names move on with every command that has a text. -/
theorem naming_submit (w : Writer) (c : Command) :
    (w.submit c).1.naming = if c.HasText then w.naming.after c else w.naming := by
  by_cases h : c.HasText
  · rw [submit_of_hasText h, if_pos h, ← naming_block, put]
    split <;> rfl
  · rw [submit_of_not_hasText h, if_neg h]

theorem output_put (w : Writer) (lines : List Line) (after : Naming) (r : Option Refusal) :
    (w.put lines after r).1.output = (w.output.write lines).1 := by
  simp only [put]
  split
  · next h => rw [h]
  · next h => rw [h]

/-- An output is offered one block by every command that has a text. -/
theorem output_submit (w : Writer) (c : Command) :
    (w.submit c).1.output =
      if c.HasText then (w.output.write (c.offered w.naming)).1 else w.output := by
  by_cases h : c.HasText
  · rw [submit_of_hasText h, if_pos h]
    exact output_put w _ _ _
  · rw [submit_of_not_hasText h, if_neg h]

end Submit

/-- Submits commands in order.  A fault does not end that. -/
def submitAll (w : Writer) (cs : List Command) : Writer :=
  cs.foldl (fun w c => (w.submit c).1) w

theorem submitAll_cons (w : Writer) (c : Command) (cs : List Command) :
    w.submitAll (c :: cs) = (w.submit c).1.submitAll cs := rfl

theorem unlimited_submitAll {w : Writer} (hroom : w.output.room = none) (cs : List Command) :
    (w.submitAll cs).output.room = none := by
  induction cs generalizing w with
  | nil => exact hroom
  | cons c cs ih => exact ih (unlimited_submit hroom c)

theorem submitAll_append (w : Writer) (cs cs' : List Command) :
    w.submitAll (cs ++ cs') = (w.submitAll cs).submitAll cs' := List.foldl_append

end Writer

/-- The commands that have a text. -/
def withText (cs : List Command) : List Command := cs.filter fun c => c.HasText

theorem withText_cons_of_hasText {c : Command} (h : c.HasText) (cs : List Command) :
    withText (c :: cs) = c :: withText cs := List.filter_cons_of_pos (by simpa using h)

theorem withText_cons_of_not_hasText {c : Command} (h : ¬ c.HasText) (cs : List Command) :
    withText (c :: cs) = withText cs := List.filter_cons_of_neg (by simpa using h)

theorem naming_submitAll (w : Writer) (cs : List Command) :
    (w.submitAll cs).naming = (withText cs).foldl Naming.after w.naming := by
  induction cs generalizing w with
  | nil => rfl
  | cons c cs ih =>
    rw [Writer.submitAll_cons, ih, Writer.naming_submit]
    by_cases h : c.HasText
    · rw [if_pos h, withText_cons_of_hasText h, List.foldl_cons]
    · rw [if_neg h, withText_cons_of_not_hasText h]

/-! ## Sources -/

section Sources

/-- No counter moves by more than one, and none falls below one. -/
theorem next_after_bounds {n : Naming} {mark : Mark} (h : 1 ≤ n.next mark) (c : Command) :
    1 ≤ (n.after c).next mark ∧ (n.after c).next mark ≤ n.next mark + 1 := by
  cases hf : c.function? with
  | some f =>
    have hone : (n.enter f).next mark = 1 := by cases mark <;> rfl
    rw [after_of_function? n hf, hone]
    omega
  | none =>
    refine ⟨Int.le_trans h (next_le_after hf mark), ?_⟩
    have hcalls := calls_after (n := n) hf
    have hcomparisons := comparisons_after (n := n) hf
    cases mark <;> simp only [Naming.next] <;> split at * <;> omega

theorem next_bounds_of_mem_sites {n : Naming} {mark : Mark} {limit : Int}
    (hn : 1 ≤ n.next mark) {cs : List Command} (hlimit : n.next mark + cs.length ≤ limit + 1)
    {s : Site} (hs : s ∈ sites n cs) : 1 ≤ s.naming.next mark ∧ s.naming.next mark ≤ limit := by
  induction cs generalizing n with
  | nil => cases hs
  | cons c cs ih =>
    rw [List.length_cons] at hlimit
    rw [sites_cons] at hs
    rcases List.mem_cons.mp hs with rfl | hs
    · refine ⟨hn, ?_⟩
      show n.next mark ≤ limit
      omega
    · obtain ⟨hlow, hhigh⟩ := next_after_bounds hn c
      exact ih hlow (by omega) hs

theorem maxNumber_add_frameSize_lt : maxNumber + frameSize < printLimit := by decide +kernel

/-- The numbers of a spellable command, and what is added to them, are small. -/
theorem fitsNumeral_of_isIndex {k : Int} (h : IsIndex k) {j : Nat} (hj : j ≤ frameSize) :
    FitsNumeral (k + j) := by
  have hlimit := maxNumber_add_frameSize_lt
  obtain ⟨m, rfl, hm⟩ := h.exists_nat
  show m + j < printLimit
  omega

theorem Command.Spellable.hasText {c : Command} (h : c.Spellable) : c.HasText := by
  intro k hk
  have hindex : IsIndex k := by
    cases c with
    | push segment index => cases hk; exact h.2
    | pop segment index => cases hk; exact h.2
    | function name locals => cases hk; exact h.2
    | call name args => cases hk; exact h.2
    | _ => cases hk
  simpa using fitsNumeral_of_isIndex hindex (Nat.zero_le frameSize)

/-- The commands of a source are printed, as long as there are fewer of them than a counter can
say. -/
theorem printed_of_mem_sites {n : Naming} (hn : ∀ mark, n.next mark = 1) {cs : List Command}
    (hcs : ∀ c ∈ cs, c.Spellable) (hlength : cs.length < printLimit) {s : Site}
    (hs : s ∈ sites n cs) : s.command.Printed s.naming := by
  have hc : s.command.Spellable := hcs _ (command_mem_of_mem_sites hs)
  refine ⟨hc.hasText, fun mark _ => ?_, ?_⟩
  · have hone := hn mark
    have hbounds : 1 ≤ s.naming.next mark ∧ s.naming.next mark ≤ cs.length :=
      next_bounds_of_mem_sites (Int.le_of_eq hone.symm) (by omega) hs
    show (s.naming.next mark).natAbs < printLimit
    omega
  · intro f args hcall
    rw [hcall] at hc
    exact fitsNumeral_of_isIndex hc.2 (Nat.le_refl _)

/-- Commands that are printed are submitted as they are written. -/
theorem submitAll_of_printed {w : Writer} {cs : List Command}
    (h : ∀ s ∈ sites w.naming cs, s.command.Printed s.naming) :
    w.submitAll cs = (w.writeAll cs).1 := by
  induction cs generalizing w with
  | nil => rfl
  | cons c cs ih =>
    rw [sites_cons] at h
    obtain ⟨hc, hrest⟩ := List.forall_mem_cons.mp h
    rw [Writer.submitAll_cons, Writer.submit_of_printed hc, Writer.writeAll_cons_fst]
    refine ih ?_
    rwa [Writer.naming_write, naming_block]

/-- To write the commands of a text is to submit them, on whatever output. -/
theorem submitAll_eq_writeAll (file : String) (output : Output) {text : List Char}
    (hlines : (splitLines text).length < printLimit) :
    let w : Writer := ⟨{ unit := unitLabel file }, output⟩
    let cs := (numberedLines text).filterMap SourceLine.command?
    w.submitAll cs = (w.writeAll cs).1 := by
  intro w cs
  have hspellable : ∀ c ∈ cs, c.Spellable := by
    intro c hc
    obtain ⟨line, -, hline⟩ := List.mem_filterMap.mp hc
    exact spellable_of_command? hline
  have hlength : cs.length ≤ (splitLines text).length := by
    rw [← map_text_numbered 1 (splitLines text), List.length_map]
    exact List.length_filterMap_le _ _
  have hstart : ∀ mark, w.naming.next mark = 1 := fun mark => by cases mark <;> rfl
  exact submitAll_of_printed fun s hs =>
    printed_of_mem_sites hstart hspellable (Nat.lt_of_le_of_lt hlength hlines) hs

end Sources

end VmToHack
