import VmToHack.Proofs.Columns
set_option autoImplicit false

/-!
# Words: what a line is made of

A phrase is a row of words, each with the terminal as which it is read (`Phrase.words`), and a state
of the machine stands for the row of words that have been read (`State.words`).  `Laid` says that
words stand at the front of a text, behind blanks and at given columns, and end where they have to.

The two views of a line agree.  Where the machine comes to, the words of its state are laid
(`State.ReadsTo.exists_laid`); and it comes behind words that are laid if a phrase begins with them
(`Laid.readsTo`).  So a phrase is on a line exactly if its words are laid there and nothing but a
trailer is left (`Phrase.onLine_iff_laidOn`).
-/

namespace VmToHack.Grammar

open VmToHack.Text

/-- A word of a command: its text, and the terminal as which it is read. -/
structure Word where
  terminal : Terminal
  text : List Char
  deriving DecidableEq, Repr, Inhabited

/-- A word of a line, with the column at which it begins. -/
structure PlacedWord where
  word : Word
  column : Nat
  deriving DecidableEq, Repr, Inhabited

/-- The text of the word is one of its terminal. -/
def Word.Spelled (w : Word) : Prop := w.terminal.Spelled w.text

/-! ## Words of phrases and states -/

/-- The words of a phrase. -/
def Phrase.words : Phrase → List Word
  | .operator o => [⟨.operator o, o.mnemonic.toList⟩]
  | .move d g digits => [⟨.move d, d.name.toList⟩, ⟨.segment g, g.name.toList⟩, ⟨.index, digits⟩]
  | .mark v name => [⟨.mark v, v.name.toList⟩, ⟨.symbol, name⟩]
  | .routine v name digits => [⟨.routine v, v.name.toList⟩, ⟨.symbol, name⟩, ⟨.index, digits⟩]
  | .ret => [⟨.ret, "return".toList⟩]

namespace State

/-- The words that have been read in a state. -/
def words : State → List Word
  | .start => []
  | .moving d => [⟨.move d, d.name.toList⟩]
  | .indexing d g => [⟨.move d, d.name.toList⟩, ⟨.segment g, g.name.toList⟩]
  | .marking v => [⟨.mark v, v.name.toList⟩]
  | .naming v => [⟨.routine v, v.name.toList⟩]
  | .counting v name => [⟨.routine v, v.name.toList⟩, ⟨.symbol, name⟩]
  | .complete p => p.words

/-- Reading a word adds it to those that have been read. -/
theorem words_after? {s next : State} {t : Terminal} {text : List Char}
    (h : s.after? t text = some next) (hword : t.Spelled text) :
    next.words = s.words ++ [⟨t, text⟩] := by
  cases s with
  | start => cases t <;> cases h <;> (cases hword; rfl)
  | moving d =>
    cases t <;> cases h
    cases hword
    rfl
  | complete p => cases t <;> cases h
  | _ =>
    cases t <;> cases h
    rfl

/-- The word with which a phrase goes on may come next. -/
theorem exists_after?_of_words {s : State} {p : Phrase} {w : Word} {more : List Word}
    (h : p.words = s.words ++ w :: more) : ∃ next, s.after? w.terminal w.text = some next := by
  cases s with
  | complete q => cases p <;> cases q <;> cases h
  | _ => cases p <;> cases h <;> exact ⟨_, rfl⟩

/-- A phrase whose words have all been read is complete. -/
theorem eq_complete_of_words {s : State} {p : Phrase} (h : s.words = p.words) :
    s = .complete p := by
  cases s with
  | complete q => cases p <;> cases q <;> cases h <;> rfl
  | _ => cases p <;> cases h

end State

/-! ## Words that are laid in a text -/

/-- Words stand one behind the other at the front of a text that begins at a column, each of them
and the rest perhaps behind blanks.  No word could be longer where it stands. -/
inductive Laid : Nat → List PlacedWord → List Char → List Char → Prop where
  | gap {column : Nat} {gap rest : List Char} (hgap : Blanks gap) :
      Laid column [] (gap ++ rest) rest
  | word {column : Nat} {gap cs rest : List Char} {w : Word} {ws : List PlacedWord}
      (hgap : Blanks gap) (hword : w.Spelled) (hends : w.terminal.EndsBefore cs)
      (h : Laid (column + gap.length + w.text.length) ws cs rest) :
      Laid column (⟨w, column + gap.length⟩ :: ws) (gap ++ w.text ++ cs) rest

section Laid

variable {column : Nat} {ws ws' : List PlacedWord} {cs rest rest' : List Char} {s s' : State}
  {p : Phrase}

theorem Laid.spelled (h : Laid column ws cs rest) {w : PlacedWord} (hw : w ∈ ws) :
    w.word.Spelled := by
  induction h with
  | gap => cases hw
  | word hgap hword hends h ih =>
    rcases List.mem_cons.mp hw with rfl | hw
    · exact hword
    · exact ih hw

/-- Blanks may stand in front of words that are laid. -/
theorem Laid.behind_gap {gap : List Char} (hgap : Blanks gap)
    (h : Laid (column + gap.length) ws cs rest) : Laid column ws (gap ++ cs) rest := by
  have hall : ∀ gap', Blanks gap' → Blanks (gap ++ gap') := fun gap' hgap' =>
    List.forall_mem_append.mpr ⟨hgap, hgap'⟩
  cases h with
  | @gap _ gap' _ hgap' =>
    rw [← List.append_assoc]
    exact .gap (hall gap' hgap')
  | @word _ gap' cs' _ w ws' hgap' hword hends h =>
    have hcolumn : column + gap.length + gap'.length = column + (gap ++ gap').length := by
      rw [List.length_append, Nat.add_assoc]
    rw [hcolumn] at h ⊢
    rw [← List.append_assoc, ← List.append_assoc]
    exact .word (hall gap' hgap') hword hends h

theorem Laid.exists_front (h : Laid column ws cs rest) : ∃ front, cs = front ++ rest := by
  induction h with
  | gap hgap => exact ⟨_, rfl⟩
  | @word column gap cs rest w ws hgap hword hends h ih =>
    obtain ⟨front, rfl⟩ := ih
    exact ⟨gap ++ w.text ++ front, by simp⟩

/-- Only the next character decides whether a word could be longer. -/
theorem Terminal.endsBefore_congr {t : Terminal} (hhead : rest.head? = rest'.head?)
    (h : t.EndsBefore rest) : t.EndsBefore rest' := by
  cases t with
  | symbol => exact fun c hc => h c (hhead.trans hc)
  | index => exact fun c hc => h c (hhead.trans hc)
  | _ => trivial

/-- Other words may be laid behind words in the place of what stands there, if the words in front
still end where they did. -/
theorem Laid.extend {front trail : List Char} (h : Laid column ws cs rest)
    (hcs : cs = front ++ rest)
    (hends : ∀ w ∈ ws, w.word.terminal.EndsBefore rest → w.word.terminal.EndsBefore rest')
    (hmore : Laid (column + front.length) ws' rest' trail) :
    Laid column (ws ++ ws') (front ++ rest') trail := by
  induction h generalizing front with
  | gap hgap =>
    obtain rfl := List.append_cancel_right hcs
    exact hmore.behind_gap hgap
  | @word column gap cs rest w ws hgap hword hbefore h ih =>
    obtain ⟨between, rfl⟩ := h.exists_front
    rw [← List.append_assoc] at hcs
    obtain rfl := List.append_cancel_right hcs
    obtain ⟨hfirst, hothers⟩ := List.forall_mem_cons.mp hends
    have hbehind : w.terminal.EndsBefore (between ++ rest') := by
      cases between with
      | nil => exact hfirst hbefore
      | cons c between =>
        have hhead : (c :: between ++ rest).head? = (c :: between ++ rest').head? := rfl
        exact Terminal.endsBefore_congr hhead hbefore
    rw [List.append_assoc (gap ++ w.text)]
    refine .word hgap hword hbehind (ih rfl hothers ?_)
    simpa only [List.length_append, Nat.add_assoc] using hmore

/-- Where the machine comes to, the words that it has read are laid. -/
theorem State.ReadsTo.exists_laid (h : s.ReadsTo cs s' rest) (column : Nat) :
    ∃ ws, Laid column ws cs rest ∧ s'.words = s.words ++ ws.map PlacedWord.word := by
  induction h generalizing column with
  | here hgap => exact ⟨[], .gap hgap, (List.append_nil _).symm⟩
  | @word s next s' gap word cs rest t hgap hword hends hafter h ih =>
    obtain ⟨ws, hlaid, hwords⟩ := ih (column + gap.length + word.length)
    refine ⟨⟨⟨t, word⟩, column + gap.length⟩ :: ws, .word hgap hword hends hlaid, ?_⟩
    rw [hwords, State.words_after? hafter hword]
    simp

/-- The machine comes behind words that are laid if a phrase goes on with them. -/
theorem Laid.readsTo (h : Laid column ws cs rest)
    (hp : s.words ++ ws.map PlacedWord.word <+: p.words) :
    ∃ s', s.ReadsTo cs s' rest ∧ s'.words = s.words ++ ws.map PlacedWord.word := by
  induction h generalizing s with
  | gap hgap => exact ⟨s, .here hgap, (List.append_nil _).symm⟩
  | @word column gap cs rest w ws hgap hword hends h ih =>
    obtain ⟨more, hmore⟩ := hp
    have hnext : p.words = s.words ++ w :: (ws.map PlacedWord.word ++ more) := by
      rw [← hmore]
      simp
    obtain ⟨next, hafter⟩ := State.exists_after?_of_words hnext
    have hwords : next.words = s.words ++ [w] := State.words_after? hafter hword
    obtain ⟨s', hreads, hs'⟩ := @ih next ⟨more, by rw [hnext, hwords]; simp⟩
    refine ⟨s', .word hgap hword hends hafter hreads, ?_⟩
    rw [hs', hwords]
    simp

theorem State.exists_readsTo_of_run (h : s.run cs = .ended s') :
    ∃ trail, s.ReadsTo cs s' trail ∧ Trailer trail := by
  induction hn : s.wants using Nat.strong_induction_on generalizing s cs with
  | _ n ih =>
    obtain ⟨rfl, htrailer⟩ | ⟨gap, t, word, rest, next, rfl, hgap, hword, hends, hafter, hrun⟩ :=
      run_eq_ended_iff.mp h
    · exact ⟨cs, .here blanks_nil, htrailer⟩
    · have hlt := wants_lt_of_after? hafter
      rw [hn] at hlt
      obtain ⟨trail, hreads, htrailer⟩ := ih _ hlt hrun rfl
      exact ⟨trail, .word hgap hword hends hafter hreads, htrailer⟩

/-- The words of a phrase are laid on a line, and nothing but a trailer stands behind them. -/
def Phrase.LaidOn (p : Phrase) (ws : List PlacedWord) (line : List Char) : Prop :=
  ws.map PlacedWord.word = p.words ∧ ∃ trail, Laid 1 ws line trail ∧ Trailer trail

/-- A phrase is on a line if its words are laid there. -/
theorem Phrase.onLine_iff_laidOn {line : List Char} : p.OnLine line ↔ ∃ ws, p.LaidOn ws line := by
  rw [← read_eq_complete_iff]
  constructor
  · intro h
    obtain ⟨trail, hreads, htrailer⟩ := State.exists_readsTo_of_run h
    obtain ⟨ws, hlaid, hwords⟩ := hreads.exists_laid 1
    exact ⟨ws, hwords.symm, trail, hlaid, htrailer⟩
  · rintro ⟨ws, hwords, trail, hlaid, htrailer⟩
    have hp : State.start.words ++ ws.map PlacedWord.word <+: p.words := by
      rw [hwords]
      exact List.prefix_refl p.words
    obtain ⟨s, hreads, hs⟩ := hlaid.readsTo hp
    obtain rfl : s = .complete p := State.eq_complete_of_words (hs.trans hwords)
    exact hreads.run_eq.trans (State.run_complete_iff.mpr ⟨rfl, htrailer⟩)

end Laid

end VmToHack.Grammar
