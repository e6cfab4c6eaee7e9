import VmToHack.Proofs.InertLines
import VmToHack.Proofs.Submissions
set_option autoImplicit false

/-!
# Closed outputs: no part of a command

An output that takes a limited number of blocks and fails from then on is compared with one that
takes every block.  `Writer.CutAt` says what the one has of the other: the first blocks, each of
them whole, and the same names.  A write keeps that, whatever is written (`cutAt_put`), so a run
of submissions does (`cutAt_submitAll`), and a pass over a source ends at the first block for which
there is no room (`passCut_translateLines`).

`closed_output_exact` joins the two: a pass, and commands submitted one by one.  A command without
a text is no write, so it is no attempt at one either, and the count of blocks is that of the
commands with a text.
-/

namespace VmToHack

open VmToHack.Hack VmToHack.Text

/-! ## Writes -/

/-- A writer on an output that takes so many blocks in all, and a writer on one without a limit. -/
structure Writer.CutAt (limit : Nat) (w full : Writer) : Prop where
  naming : w.naming = full.naming
  blocks : w.output.blocks.toList = full.output.blocks.toList.take limit
  room : w.output.room = some (limit - full.output.blocks.size)
  unlimited : full.output.room = none

section Writes

variable {limit : Nat} {w full : Writer}

theorem cutAt_start (limit : Nat) (n : Naming) :
    Writer.CutAt limit ⟨n, { room := some limit }⟩ ⟨n, {}⟩ where
  naming := rfl
  blocks := List.take_nil.symm
  room := rfl
  unlimited := rfl

/-- As long as there is room, the blocks are the same. -/
theorem Writer.CutAt.blocks_eq (h : w.CutAt limit full)
    (hroom : full.output.blocks.size ≤ limit) : w.output.blocks = full.output.blocks := by
  rw [← Array.toList_inj, h.blocks]
  exact List.take_of_length_le hroom

/-- A block is written whole or not at all, and the names move on in either case. -/
theorem cutAt_put (h : w.CutAt limit full) (lines : List Line) (after : Naming)
    (r : Option Refusal) :
    (w.put lines after r).1.CutAt limit (full.put lines after r).1 ∧
      (w.put lines after r).2 =
        if full.output.blocks.size < limit then (full.put lines after r).2 else some .closed := by
  have hfull := Writer.put_of_unlimited h.unlimited lines after r
  by_cases hlt : full.output.blocks.size < limit
  · obtain ⟨k, hk⟩ : ∃ k, limit - full.output.blocks.size = k + 1 :=
      ⟨limit - full.output.blocks.size - 1, by omega⟩
    have hput := Writer.put_of_room (h.room.trans (congrArg some hk)) lines after r
    rw [h.blocks_eq (Nat.le_of_lt hlt)] at hput
    rw [hput, hfull, if_pos hlt]
    refine ⟨⟨rfl, ?_, ?_, rfl⟩, rfl⟩
    · refine (List.take_of_length_le ?_).symm
      rw [Array.length_toList, Array.size_push]
      omega
    · rw [Array.size_push]
      exact congrArg some (by omega)
  · have hzero : limit - full.output.blocks.size = 0 := by omega
    have hput := Writer.put_of_no_room (h.room.trans (congrArg some hzero)) lines after r
    rw [hput, hfull, if_neg hlt]
    refine ⟨⟨rfl, ?_, ?_, rfl⟩, rfl⟩
    · rw [Array.toList_push, List.take_append_of_le_length (by simpa using hlt)]
      exact h.blocks
    · rw [h.room, Array.size_push]
      exact congrArg some (by omega)

theorem cutAt_write (h : w.CutAt limit full) (c : Command) :
    (w.write c).1.CutAt limit (full.write c).1 ∧
      (w.write c).2 =
        if full.output.blocks.size < limit then (full.write c).2 else some .closed := by
  rw [Writer.write, Writer.write, h.naming]
  exact cutAt_put h _ _ _

/-- A command without a text is no write.  Any other one is written, and a failure of the output
hides every other. -/
theorem cutAt_submit (h : w.CutAt limit full) (c : Command) :
    (w.submit c).1.CutAt limit (full.submit c).1 ∧
      (w.submit c).2 =
        if c.HasText ∧ limit ≤ full.output.blocks.size then some (.write .closed)
        else (full.submit c).2 := by
  by_cases htext : c.HasText
  · obtain ⟨hnext, hfault⟩ := cutAt_put h (c.offered full.naming) (c.block full.naming).naming
      (c.block full.naming).refusal
    rw [Writer.submit_of_hasText htext, Writer.submit_of_hasText htext, h.naming]
    refine ⟨hnext, ?_⟩
    dsimp only
    rw [hfault]
    by_cases hlt : full.output.blocks.size < limit
    · rw [if_pos hlt, if_neg fun hclosed => absurd hlt (Nat.not_lt_of_le hclosed.2)]
    · rw [if_neg hlt, if_pos ⟨htext, Nat.le_of_not_lt hlt⟩]
      rfl
  · rw [Writer.submit_of_not_hasText htext, Writer.submit_of_not_hasText htext]
    exact ⟨h, (if_neg fun hclosed => htext hclosed.1).symm⟩

theorem cutAt_submitAll (h : w.CutAt limit full) (cs : List Command) :
    (w.submitAll cs).CutAt limit (full.submitAll cs) := by
  induction cs generalizing w full with
  | nil => exact h
  | cons c cs ih => exact ih (cutAt_submit h c).1

/-- Without a limit there is a block for each command with a text. -/
theorem size_submitAll (h : full.output.room = none) (cs : List Command) :
    (full.submitAll cs).output.blocks.size = full.output.blocks.size + (withText cs).length := by
  induction cs generalizing full with
  | nil => rfl
  | cons c cs ih =>
    rw [Writer.submitAll_cons, ih (Writer.unlimited_submit h c)]
    by_cases htext : c.HasText
    · rw [Writer.submit_of_unlimited h htext, withText_cons_of_hasText htext, Array.size_push,
        List.length_cons]
      omega
    · rw [Writer.submit_of_not_hasText htext, withText_cons_of_not_hasText htext]

end Writes

/-! ## Passes -/

/-- What is left and reported by a pass onto an output that takes so many blocks, compared with a
pass onto one without a limit. -/
structure PassCut (limit : Nat) (full cut : Writer × Except Abort Tally) : Prop where
  /-- If there is room for all blocks, the passes are the same. -/
  fits : full.1.output.blocks.size ≤ limit →
    cut.1.naming = full.1.naming ∧ cut.1.output.blocks = full.1.output.blocks ∧ cut.2 = full.2
  /-- If not, the pass ends behind the last block for which there is room. -/
  stops : limit < full.1.output.blocks.size →
    cut.1.output.blocks.toList = full.1.output.blocks.toList.take limit ∧ cut.2 = .error .closed

section Passes

variable {limit : Nat} {w full : Writer}

/-- Passes that have room for all blocks end alike. -/
theorem passCut_end (h : w.CutAt limit full) (hroom : full.output.blocks.size ≤ limit)
    (result : Except Abort Tally) : PassCut limit (full, result) (w, result) where
  fits _ := ⟨h.naming, h.blocks_eq hroom, rfl⟩
  stops hlt := absurd hroom (Nat.not_le_of_lt hlt)

/-- What is added up in front of the rest of a pass does not matter. -/
theorem PassCut.map {p q : Writer × Except Abort Tally} (h : PassCut limit p q)
    (f : Tally → Tally) : PassCut limit (p.1, p.2.map f) (q.1, q.2.map f) where
  fits hle := by
    obtain ⟨hnaming, hblocks, hresult⟩ := h.fits hle
    exact ⟨hnaming, hblocks, congrArg (Except.map f) hresult⟩
  stops hlt := by
    obtain ⟨hblocks, hresult⟩ := h.stops hlt
    exact ⟨hblocks, congrArg (Except.map f) hresult⟩

/-- A pass ends at a block for which there is no room, wherever the other one goes on to. -/
theorem passCut_stop (h : w.CutAt limit full) (hsize : limit < full.output.blocks.size)
    {p : Writer × Except Abort Tally}
    (hwritten : full.output.blocks.toList <+: p.1.output.blocks.toList) :
    PassCut limit p (w, .error .closed) where
  fits hle := absurd hwritten.length_le (by simp only [Array.length_toList]; omega)
  stops _ := by
    obtain ⟨later, hlater⟩ := hwritten
    refine ⟨?_, rfl⟩
    rw [← hlater, List.take_append_of_le_length (by simpa using Nat.le_of_lt hsize)]
    exact h.blocks

section Command

variable {file : String} {line : SourceLine} {c : Command} {lines : List SourceLine}

/-- A pass over a line with a command, by what the write of the command reports. -/
theorem translateLines_command (h : readLine line.text = .ok (.command c)) (w : Writer) :
    translateLines file w (line :: lines) =
      match (w.write c).2 with
      | some .closed => ((w.write c).1, .error .closed)
      | some (.refused r) =>
        ((translateLines file (w.write c).1 lines).1,
          (translateLines file (w.write c).1 lines).2.map
            (Tally.consIssue (Issue.ofRefusal file line c r)))
      | none =>
        ((translateLines file (w.write c).1 lines).1,
          (translateLines file (w.write c).1 lines).2.map Tally.count) := by
  rw [translateLines, h]
  dsimp only
  rcases w.write c with ⟨w', _ | _ | r⟩ <;> rfl

/-- The writer at the end of a pass over a line with a command. -/
theorem writer_translateLines_command (h : readLine line.text = .ok (.command c)) (w : Writer) :
    (translateLines file w (line :: lines)).1 = (w.write c).1 ∨
      (translateLines file w (line :: lines)).1 =
        (translateLines file (w.write c).1 lines).1 := by
  rw [translateLines_command h]
  split
  · exact .inl rfl
  · exact .inr rfl
  · exact .inr rfl

end Command

theorem blocks_prefix_write (w : Writer) (c : Command) :
    w.output.blocks.toList <+: (w.write c).1.output.blocks.toList := by
  rw [Writer.write]
  cases hroom : w.output.room with
  | none =>
    rw [Writer.put_of_unlimited hroom, Array.toList_push]
    exact List.prefix_append _ _
  | some k =>
    cases k with
    | zero => exact ⟨[], by rw [Writer.put_of_no_room hroom, List.append_nil]⟩
    | succ k =>
      rw [Writer.put_of_room hroom, Array.toList_push]
      exact List.prefix_append _ _

/-- What has been written stays. -/
theorem blocks_prefix_translateLines (file : String) (w : Writer) (lines : List SourceLine) :
    w.output.blocks.toList <+: (translateLines file w lines).1.output.blocks.toList := by
  induction lines generalizing w with
  | nil => exact List.prefix_refl _
  | cons line lines ih =>
    cases hread : readLine line.text with
    | error o =>
      simp only [translateLines, hread]
      exact List.prefix_refl _
    | ok reading =>
      cases reading with
      | blank =>
        simp only [translateLines, hread]
        exact ih w
      | error e =>
        simp only [translateLines, hread]
        exact ih w
      | command c =>
        have hwrite := blocks_prefix_write w c
        rcases writer_translateLines_command hread w with h | h
        · rw [h]
          exact hwrite
        · rw [h]
          exact hwrite.trans (ih _)

/-- A pass onto an output that takes so many blocks, from where there is room or just none left. -/
theorem passCut_translateLines (h : w.CutAt limit full)
    (hroom : full.output.blocks.size ≤ limit) (file : String) (lines : List SourceLine) :
    PassCut limit (translateLines file full lines) (translateLines file w lines) := by
  induction lines generalizing w full with
  | nil => exact passCut_end h hroom _
  | cons line lines ih =>
    cases hread : readLine line.text with
    | error o =>
      simp only [translateLines, hread]
      exact passCut_end h hroom _
    | ok reading =>
      cases reading with
      | blank =>
        simp only [translateLines, hread]
        exact ih h hroom
      | error e =>
        simp only [translateLines, hread]
        exact (ih h hroom).map _
      | command c =>
        obtain ⟨hnext, hfault⟩ := cutAt_write h c
        have hsize : (full.write c).1.output.blocks.size = full.output.blocks.size + 1 := by
          rw [Writer.write_of_unlimited h.unlimited, Array.size_push]
        by_cases hlt : full.output.blocks.size < limit
        · have hrest := ih hnext (by omega)
          rw [if_pos hlt] at hfault
          rw [translateLines_command hread, translateLines_command hread, hfault]
          split
          · exact passCut_end hnext (by omega) _
          · exact hrest.map _
          · exact hrest.map _
        · have hcut : translateLines file w (line :: lines) = ((w.write c).1, .error .closed) := by
            rw [translateLines_command hread, hfault, if_neg hlt]
          rw [hcut]
          refine passCut_stop hnext (by omega) ?_
          rcases writer_translateLines_command hread full with h | h
          · exact ⟨[], by rw [h, List.append_nil]⟩
          · rw [h]
            exact blocks_prefix_translateLines file _ lines

end Passes

/-- An output that takes so many blocks never holds part of a command.  A pass that has room for
all blocks is the one without a limit, and otherwise the pass ends with the blocks for which there
is room; there is one for each line with a command.  If commands are submitted one by one, every
one that has a text and for which there is no room reports that, also if the command is refused or
cut, and the names move on as without a limit. -/
theorem closed_output_exact (text : List Char) (file : String) (limit : Nat) :
    PassCut limit (translateSource text file {})
        (translateSource text file { room := some limit }) ∧
      (Evaluable text → ∃ tally, (translateSource text file {}).2 = .ok tally ∧
        (translateSource text file {}).1.output.blocks.toList =
          (commandSitesOf file text).map fun x => x.2.lines) ∧
      ∀ (n : Naming) (before : List Command) (c : Command),
        let w := Writer.submitAll ⟨n, { room := some limit }⟩ before
        let full := Writer.submitAll ⟨n, {}⟩ before
        full.output.blocks.size = (withText before).length ∧
          (w.submit c).1.CutAt limit (full.submit c).1 ∧
          (w.submit c).2 =
            if c.HasText ∧ limit ≤ (withText before).length then some (.write .closed)
            else (full.submit c).2 := by
  refine ⟨?pass, ?blocks, ?submissions⟩
  case pass =>
    exact passCut_translateLines (cutAt_start limit _) (Nat.zero_le _) file _
  case blocks =>
    intro h
    rw [translateSource_eq_of_evaluable file h, blocks_writerOf, List.map_map]
    exact ⟨_, rfl, rfl⟩
  case submissions =>
    intro n before c w full
    have hsize : full.output.blocks.size = (withText before).length := by
      rw [size_submitAll rfl]
      exact Nat.zero_add _
    have hcut := cutAt_submit (cutAt_submitAll (cutAt_start limit n) before) c
    rw [hsize] at hcut
    exact ⟨hsize, hcut⟩

theorem closed_output_exact_mixed :
    ∃ w, translateSource mixedText "Main.vm" { room := some 1 } = (w, .error .closed) ∧
      w.output.blocks.size = 1 := by
  obtain ⟨hpass, hblocks, -⟩ := closed_output_exact mixedText "Main.vm" 1
  obtain ⟨tally, -, hblocks⟩ := hblocks (evaluable_of_length_le (by decide))
  have hcommands : 1 < (commandSitesOf "Main.vm" mixedText).length := by decide +kernel
  have hsize := congrArg List.length hblocks
  rw [Array.length_toList, List.length_map] at hsize
  obtain ⟨htake, hclosed⟩ := hpass.stops (by omega)
  refine ⟨_, Prod.ext rfl hclosed, ?_⟩
  rw [← Array.length_toList, htake, List.length_take, Array.length_toList]
  omega

end VmToHack
