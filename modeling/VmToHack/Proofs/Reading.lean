import VmToHack.Lowering.Source
import VmToHack.Proofs.Program
set_option autoImplicit false

/-!
# Reading: what comes out of a text

The names of commands that are read from a text are symbols of the grammar: not empty,
and without a dollar sign, which is left to made labels.  `symbolic_of_readProgram` says so.

A text that is translated is first read: what the translation writes for it is what is
written for the unit of its commands (`translateSource_eq_ok`).
-/

namespace VmToHack

open VmToHack.Grammar VmToHack.Hack

/-! ## Symbols -/

/-- A name that the grammar accepts. -/
structure IsSymbol (name : List Char) : Prop where
  ne_nil : name ≠ []
  chars : ∀ c ∈ name, isSymbolChar c = true

theorem IsSymbol.not_mem {name : List Char} (h : IsSymbol name) {c : Char}
    (hc : isSymbolChar c = false) : c ∉ name := by
  intro hmem
  rw [h.chars c hmem] at hc
  cases hc

theorem IsSymbol.dollar_not_mem {name : List Char} (h : IsSymbol name) : '$' ∉ name := by
  apply h.not_mem
  decide

theorem isSymbol_of_takeSymbol? {cs word rest : List Char}
    (h : takeSymbol? cs = some (word, rest)) : IsSymbol word := by
  cases cs with
  | nil => cases h
  | cons c cs =>
    rw [takeSymbol?, takeRun?] at h
    split at h
    · next hstart =>
      cases h
      refine ⟨List.cons_ne_nil _ _, ?_⟩
      intro c' hc'
      rcases List.mem_cons.mp hc' with rfl | hmem
      · unfold isSymbolChar
        rw [hstart, Bool.true_or]
      · have hall : (cs.takeWhile isSymbolChar).all isSymbolChar = true := List.all_takeWhile
        exact List.all_eq_true.mp hall c' hmem
    · cases h

namespace Grammar

/-- The names in a phrase are symbols. -/
def Phrase.Symbolic : Phrase → Prop
  | .mark _ name => IsSymbol name
  | .routine _ name _ => IsSymbol name
  | _ => True

/-- The names in what is read so far are symbols. -/
def State.Symbolic : State → Prop
  | .counting _ name => IsSymbol name
  | .complete p => p.Symbolic
  | _ => True

theorem State.symbolic_after? {s s' : State} {t : Terminal} {cs word rest : List Char}
    (hs : s.Symbolic) (ht : t.take? cs = some (word, rest)) (h : s.after? t word = some s') :
    s'.Symbolic := by
  cases s with
  | start => cases t <;> cases h <;> trivial
  | moving d =>
    cases t <;> cases h
    trivial
  | indexing d g =>
    cases t <;> cases h
    trivial
  | marking v =>
    cases t with
    | symbol =>
      cases h
      exact isSymbol_of_takeSymbol? ht
    | _ => cases h
  | naming v =>
    cases t with
    | symbol =>
      cases h
      exact isSymbol_of_takeSymbol? ht
    | _ => cases h
  | counting v name =>
    cases t with
    | index =>
      cases h
      exact hs
    | _ => cases h
  | complete p => cases t <;> cases h

theorem State.symbolic_next? {s s' : State} {cs rest : List Char} (hs : s.Symbolic)
    (h : s.next? cs = some (s', rest)) : s'.Symbolic := by
  obtain ⟨t, -, ht⟩ := List.exists_of_findSome?_eq_some h
  obtain ⟨⟨word, r⟩, hword, hw⟩ := Option.bind_eq_some_iff.mp ht
  obtain ⟨q, hq, he⟩ := Option.map_eq_some_iff.mp hw
  cases he
  exact State.symbolic_after? hs hword hq

/-- Reading goes from symbolic states to symbolic states. -/
theorem State.symbolic_run {s s' : State} {cs : List Char} (hs : s.Symbolic)
    (h : s.run cs = .ended s') : s'.Symbolic := by
  induction s, cs using State.run.induct with
  | case1 s cs hblank =>
    unfold State.run at h
    rw [hblank] at h
    cases h
    exact hs
  | case2 s cs c cs' hblank s'' rest hnext ih =>
    unfold State.run at h
    rw [hblank] at h
    simp only at h
    split at h
    · next s₁ rest₁ hnext₁ =>
      rw [hnext] at hnext₁
      cases hnext₁
      exact ih (State.symbolic_next? hs hnext) h
    · cases h
  | case3 s cs c cs' hblank hnext =>
    unfold State.run at h
    rw [hblank] at h
    simp only at h
    split at h
    · next s₁ rest₁ hnext₁ =>
      rw [hnext] at hnext₁
      cases hnext₁
    · cases h

end Grammar

/-! ## Commands -/

/-- The labels and functions that a command names. -/
def Command.labelName? : Command → Option String
  | .label name => some name
  | .goto name => some name
  | .ifGoto name => some name
  | .function name _ => some name
  | .call name _ => some name
  | _ => none

/-- The labels and functions that a command names are symbols. -/
def Command.Symbolic (c : Command) : Prop := ∀ name ∈ c.labelName?, IsSymbol name.toList

theorem symbolic_toCommand {p : Phrase} {c : Command} (hp : p.Symbolic)
    (h : p.toCommand = .ok c) : c.Symbolic := by
  have hname : ∀ name : List Char, IsSymbol name → IsSymbol (String.ofList name).toList := by
    intro name hname
    rwa [String.toList_ofList]
  intro name hmem
  cases p with
  | operator o =>
    cases h
    cases hmem
  | move d g digits =>
    cases d <;>
    · simp only [Phrase.toCommand, Except.map] at h
      split at h <;> cases h
      cases hmem
  | mark v word =>
    cases v <;>
    · cases h
      cases hmem
      exact hname word hp
  | routine v word digits =>
    cases v <;>
    · simp only [Phrase.toCommand, Except.map] at h
      split at h <;> cases h
      cases hmem
      exact hname word hp
  | ret =>
    cases h
    cases hmem

theorem symbolic_of_readLine {line : List Char} {c : Command}
    (h : readLine line = .ok (.command c)) : c.Symbolic := by
  unfold readLine at h
  split at h
  · cases h
  · next p hread =>
    have hstart : State.start.Symbolic := trivial
    have hp : p.Symbolic := State.symbolic_run hstart hread
    cases hc : p.toCommand with
    | error o =>
      rw [hc] at h
      cases h
    | ok c' =>
      rw [hc] at h
      have hcommand : Reading.ofCommand line c' = .command c := Except.ok.inj h
      unfold Reading.ofCommand at hcommand
      split at hcommand
      · cases hcommand
        exact symbolic_toCommand hp hc
      · split at hcommand <;> cases hcommand
        exact symbolic_toCommand hp hc
  · cases h
  · cases h

theorem readLines_cons_eq_ok {line : SourceLine} {lines : List SourceLine} {p : Program}
    (h : readLines (line :: lines) = .ok p) :
    ∃ reading p', readLine line.text = .ok reading ∧ readLines lines = .ok p' ∧
      p'.cons line reading = p := by
  rw [readLines] at h
  cases hreading : readLine line.text with
  | error o =>
    rw [hreading] at h
    cases h
  | ok reading =>
    cases hrest : readLines lines with
    | error o =>
      rw [hreading, hrest] at h
      cases h
    | ok p' =>
      rw [hreading, hrest] at h
      exact ⟨reading, p', rfl, rfl, Except.ok.inj h⟩

theorem symbolic_of_readLines {lines : List SourceLine} {p : Program}
    (h : readLines lines = .ok p) : ∀ c ∈ p.commands, c.Symbolic := by
  induction lines generalizing p with
  | nil =>
    cases h
    exact fun c hc => absurd hc List.not_mem_nil
  | cons line lines ih =>
    obtain ⟨reading, p', hreading, hrest, rfl⟩ := readLines_cons_eq_ok h
    cases reading with
    | command c =>
      intro c' hc'
      rcases List.mem_cons.mp hc' with rfl | hmem
      · exact symbolic_of_readLine hreading
      · exact ih hrest c' hmem
    | blank => exact ih hrest
    | error e =>
      have hcommands := ih hrest
      exact hcommands

/-- The labels and functions that a text names are symbols. -/
theorem symbolic_of_readProgram {text : List Char} {p : Program}
    (h : readProgram text = .ok p) : ∀ c ∈ p.commands, c.Symbolic :=
  symbolic_of_readLines h

/-! ## Translating a text -/

theorem exists_of_map_eq {file : String} {w w' : Writer} {lines : List SourceLine}
    {tally : Tally} {f : Tally → Tally}
    (h : (let (w'', result) := translateLines file w lines; (w'', result.map f)) =
      (w', .ok tally)) :
    ∃ tally', translateLines file w lines = (w', .ok tally') ∧ f tally' = tally := by
  cases hrest : translateLines file w lines with
  | mk w'' result =>
    rw [hrest] at h
    cases result with
    | error a => cases h
    | ok tally' =>
      cases h
      exact ⟨tally', rfl, rfl⟩

theorem readLines_cons {line : SourceLine} {lines : List SourceLine} {reading : Reading}
    {p : Program} (hreading : readLine line.text = .ok reading) (h : readLines lines = .ok p) :
    readLines (line :: lines) = .ok (p.cons line reading) := by
  rw [readLines, hreading, h]
  rfl

/-- A pass that comes to its end has read every line, and written its commands. -/
theorem translateLines_eq_ok {file : String} {n : Naming} {blocks : Array (List Line)}
    {w' : Writer} {lines : List SourceLine} {tally : Tally}
    (h : translateLines file ⟨n, ⟨none, blocks⟩⟩ lines = (w', .ok tally)) :
    ∃ p, readLines lines = .ok p ∧ w' = (Writer.writeAll ⟨n, ⟨none, blocks⟩⟩ p.commands).1 ∧
      (tally.issues = [] → (Writer.writeAll ⟨n, ⟨none, blocks⟩⟩ p.commands).2 = []) := by
  induction lines generalizing n blocks tally with
  | nil =>
    cases h
    exact ⟨⟨[], []⟩, rfl, rfl, fun _ => rfl⟩
  | cons line lines ih =>
    rw [translateLines] at h
    split at h
    · cases h
    · next hreading =>
      obtain ⟨p, hp, hw, hissues⟩ := ih h
      exact ⟨p, readLines_cons hreading hp, hw, hissues⟩
    · next e hreading =>
      obtain ⟨tally', hrest, rfl⟩ := exists_of_map_eq h
      obtain ⟨p, hp, hw, -⟩ := ih hrest
      refine ⟨_, readLines_cons hreading hp, hw, ?_⟩
      intro hnone
      cases hnone
    · next c hreading =>
      rw [write_unbounded] at h
      cases hr : (c.block n).refusal with
      | none =>
        rw [hr] at h
        obtain ⟨tally', hrest, rfl⟩ := exists_of_map_eq h
        obtain ⟨p, hp, hw, hissues⟩ := ih hrest
        refine ⟨_, readLines_cons hreading hp, ?_, ?_⟩
        · show w' = (Writer.writeAll _ (c :: p.commands)).1
          rw [writeAll_cons, hw]
        · intro hnone
          show (Writer.writeAll _ (c :: p.commands)).2 = []
          rw [writeAll_cons, hr, hissues hnone]
          rfl
      | some r =>
        rw [hr] at h
        obtain ⟨tally', hrest, rfl⟩ := exists_of_map_eq h
        obtain ⟨p, hp, hw, -⟩ := ih hrest
        refine ⟨_, readLines_cons hreading hp, ?_, ?_⟩
        · show w' = (Writer.writeAll _ (c :: p.commands)).1
          rw [writeAll_cons, hw]
        · intro hnone
          cases hnone

/-- What the translation of a text writes is what is written for the unit of its commands.
Without issues, none of these is refused. -/
theorem translateSource_eq_ok {text : List Char} {file : String} {w : Writer} {tally : Tally}
    (h : translateSource text file {} = (w, .ok tally)) :
    ∃ p, readProgram text = .ok p ∧
      w.output.lines = (SourceUnit.mk (unitLabel file) p.commands).lines ∧
      (tally.issues = [] → (SourceUnit.mk (unitLabel file) p.commands).faults = []) := by
  obtain ⟨p, hp, hw, hissues⟩ := translateLines_eq_ok h
  refine ⟨p, hp, ?_, hissues⟩
  rw [hw]
  rfl

/-- The commands of a unit are those of a text. -/
def SourceUnit.IsRead (u : SourceUnit) : Prop :=
  ∃ text p, readProgram text = .ok p ∧ u.commands = p.commands

theorem SourceUnit.IsRead.symbolic {u : SourceUnit} (h : u.IsRead) :
    ∀ c ∈ u.commands, c.Symbolic := by
  obtain ⟨text, p, hp, hcommands⟩ := h
  rw [hcommands]
  exact symbolic_of_readProgram hp

/-- A result is checked by looking at the value alone. -/
theorem eq_ok_of_toOption {ε α : Type} {result : Except ε α} {a : α}
    (h : result.toOption = some a) : result = .ok a := by
  cases result with
  | error e => cases h
  | ok a' =>
    cases h
    rfl

end VmToHack
