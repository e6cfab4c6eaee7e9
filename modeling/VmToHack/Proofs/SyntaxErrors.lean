import VmToHack.Proofs.Diagnostics
import VmToHack.Proofs.Lexemes
import VmToHack.Proofs.Words
set_option autoImplicit false

/-!
# Syntax errors: where a line stops being a command, and what could have come

A line that is no command is read as far as words go on to make one.  Either its words run out, and
the command is unfinished (`BreaksOff`); the error then stands behind the last word.  Or something
else follows, and the error stands in front of it (`StopsAt`): the words up to there are those of
some command, which can be finished from there, and no terminal with which it could go on matches.

What the error lists as expected are the terminals with which the rest of a command can begin at
that place, and no others (`Lists`).  `syntax_error_exact` puts this together.
-/

namespace VmToHack

open VmToHack.Grammar VmToHack.Text

namespace Grammar

/-! ## The last character of a word -/

theorem isSpace_eq_false_of_isSymbolChar {c : Char} (h : isSymbolChar c = true) :
    isSpace c = false := by
  obtain ⟨hlow, hhigh⟩ := toNat_bounds_of_isSymbolChar h
  rw [Bool.eq_false_iff]
  intro hspace
  simp only [isSpace, Bool.or_eq_true, Bool.and_eq_true, decide_eq_true_eq, beq_iff_eq] at hspace
  omega

/-- A word ends with a character of symbols, also that of a keyword. -/
theorem Terminal.Spelled.last {t : Terminal} {word : List Char} (h : t.Spelled word) :
    ∃ front c, word = front ++ [c] ∧ isSymbolChar c = true := by
  have hall : ∀ t ∈ keywords, ∀ w ∈ t.keyword?, w.toList.getLast?.any isSymbolChar = true := by
    decide +kernel
  obtain ⟨c, cs, hword, -⟩ := h.head
  obtain ⟨front, last, rfl⟩ : ∃ front last, word = front ++ [last] := by
    rcases List.eq_nil_or_concat word with rfl | ⟨front, last, rfl⟩
    · cases hword
    · exact ⟨front, last, List.concat_eq_append ..⟩
  refine ⟨front, last, rfl, ?_⟩
  cases hw : t.keyword? with
  | some w =>
    have hlast := hall t (mem_keywords hw) w hw
    rw [← (spelled_of_keyword? hw _).mp h] at hlast
    simpa using hlast
  | none => exact h.isSymbolChar_of_mem hw _ (List.mem_append_right front List.mem_cons_self)

/-- Behind words that are laid stand only blanks. -/
theorem Laid.exists_last {column : Nat} {ws : List PlacedWord} {cs rest : List Char}
    (h : Laid column ws cs rest) (hne : ws ≠ []) :
    ∃ front c gap, cs = front ++ [c] ++ gap ++ rest ∧ isSymbolChar c = true ∧ Blanks gap := by
  induction h with
  | gap hgap => exact absurd rfl hne
  | @word column gap cs rest w ws hgap hword hends h ih =>
    cases ws with
    | nil =>
      obtain ⟨hgap'⟩ := h
      obtain ⟨front, c, happ, hc⟩ := hword.last
      exact ⟨gap ++ front, c, _, by rw [happ]; simp, hc, hgap'⟩
    | cons w' ws =>
      obtain ⟨front, c, gap', rfl, hc, hgap'⟩ := ih (List.cons_ne_nil _ _)
      exact ⟨gap ++ w.text ++ front, c, gap', by simp, hc, hgap'⟩

/-! ## What may come next -/

/-- A terminal may follow words: a command begins with these and goes on with one of its words. -/
def MayFollow (ws : List Word) (t : Terminal) : Prop :=
  ∃ (p : Phrase) (word : List Char) (more : List Word), p.words = ws ++ ⟨t, word⟩ :: more

/-- Each terminal that a state lists leads on to a command. -/
theorem State.exists_phrase_of_mem_allowed {s : State} {t : Terminal} (h : t ∈ s.allowed) :
    ∃ (p : Phrase) (word : List Char) (more : List Word),
      p.words = s.words ++ ⟨t, word⟩ :: more ∧ t.Spelled word ∧ ∀ w ∈ more, w.Spelled := by
  have hname : Word.Spelled ⟨.symbol, ['x']⟩ := .mk rfl nofun
  have hnumber : Word.Spelled ⟨.index, ['0']⟩ := .mk rfl nofun
  obtain ⟨next, hnext⟩ := Option.isSome_iff_exists.mp ((s.mem_allowed_iff t []).mp h)
  cases s with
  | start =>
    cases t with
    | operator o => exact ⟨.operator o, _, _, rfl, rfl, nofun⟩
    | move d =>
      refine ⟨.move d .constant ['0'], _, _, rfl, rfl, List.forall_mem_cons.mpr ⟨rfl, ?_⟩⟩
      exact List.forall_mem_singleton.mpr hnumber
    | mark v => exact ⟨.mark v ['x'], _, _, rfl, rfl, List.forall_mem_singleton.mpr hname⟩
    | routine v =>
      refine ⟨.routine v ['x'] ['0'], _, _, rfl, rfl, List.forall_mem_cons.mpr ⟨hname, ?_⟩⟩
      exact List.forall_mem_singleton.mpr hnumber
    | ret => exact ⟨.ret, _, _, rfl, rfl, nofun⟩
    | _ => cases hnext
  | moving d =>
    cases t with
    | segment g => exact ⟨.move d g ['0'], _, _, rfl, rfl, List.forall_mem_singleton.mpr hnumber⟩
    | _ => cases hnext
  | indexing d g =>
    obtain rfl := List.mem_singleton.mp h
    exact ⟨.move d g ['0'], _, _, rfl, hnumber, nofun⟩
  | marking v =>
    obtain rfl := List.mem_singleton.mp h
    exact ⟨.mark v ['x'], _, _, rfl, hname, nofun⟩
  | naming v =>
    obtain rfl := List.mem_singleton.mp h
    exact ⟨.routine v ['x'] ['0'], _, _, rfl, hname, List.forall_mem_singleton.mpr hnumber⟩
  | counting v name =>
    obtain rfl := List.mem_singleton.mp h
    exact ⟨.routine v name ['0'], _, _, rfl, hnumber, nofun⟩
  | complete p => cases h

/-- The terminals that a state lists are those that may follow the words that have been read. -/
theorem State.mayFollow_iff {s : State} {t : Terminal} : MayFollow s.words t ↔ t ∈ s.allowed := by
  constructor
  · rintro ⟨p, word, more, hwords⟩
    rw [s.mem_allowed_iff t word, Option.isSome_iff_exists]
    exact State.exists_after?_of_words hwords
  · intro h
    obtain ⟨p, word, more, hwords, -⟩ := State.exists_phrase_of_mem_allowed h
    exact ⟨p, word, more, hwords⟩

/-- What has been read can always be completed. -/
theorem State.exists_phrase (s : State) :
    ∃ (p : Phrase) (more : List Word), p.words = s.words ++ more ∧ ∀ w ∈ more, w.Spelled := by
  cases hallowed : s.allowed with
  | nil =>
    cases s with
    | complete p => exact ⟨p, [], (List.append_nil _).symm, nofun⟩
    | _ => cases hallowed
  | cons t ts =>
    obtain ⟨p, word, more, hwords, hword, hmore⟩ :=
      State.exists_phrase_of_mem_allowed (hallowed ▸ List.mem_cons_self)
    exact ⟨p, ⟨t, word⟩ :: more, hwords, List.forall_mem_cons.mpr ⟨hword, hmore⟩⟩

/-- An index ends a command. -/
theorem State.terminal_ne_index {s : State} {t : Terminal} (h : t ∈ s.allowed) :
    ∀ w ∈ s.words, w.terminal ≠ .index := by
  cases s with
  | complete p => cases h
  | _ => simp [State.words]

/-! ## Lines that go on -/

/-- Words with a space in front of each. -/
def spaced (ws : List Word) : List Char := ws.flatMap fun w => ' ' :: w.text

theorem endsBefore_spaced (t : Terminal) (ws : List Word) : t.EndsBefore (spaced ws) := by
  cases ws with
  | nil => exact Trailer.endsBefore (.blanks blanks_nil) t
  | cons w ws =>
    have hhead : [' '].head? = (spaced (w :: ws)).head? := rfl
    exact Terminal.endsBefore_congr hhead (Trailer.endsBefore (.blanks blanks_space) t)

theorem exists_laid_spaced {ws : List Word} (h : ∀ w ∈ ws, w.Spelled) (column : Nat) :
    ∃ placed, placed.map PlacedWord.word = ws ∧ Laid column placed (spaced ws) [] := by
  induction ws generalizing column with
  | nil => exact ⟨[], rfl, .gap blanks_nil⟩
  | cons w ws ih =>
    obtain ⟨hw, hws⟩ := List.forall_mem_cons.mp h
    obtain ⟨placed, hplaced, hlaid⟩ := ih hws (column + 1 + w.text.length)
    have hcons : spaced (w :: ws) = [' '] ++ w.text ++ spaced ws := rfl
    rw [hcons]
    exact ⟨⟨w, column + 1⟩ :: placed, congrArg (w :: ·) hplaced,
      .word blanks_space hw (endsBefore_spaced _ ws) hlaid⟩

/-- A command can go on with a word of the terminal directly behind a text. -/
def CanStart (front : List Char) (ws : List PlacedWord) (t : Terminal) : Prop :=
  ∃ (p : Phrase) (word : List Char) (more : List PlacedWord) (after : List Char),
    p.LaidOn (ws ++ ⟨⟨t, word⟩, front.length + 1⟩ :: more) (front ++ word ++ after)

section Front

variable {front rest : List Char} {ws : List PlacedWord} {s : State} {t : Terminal}
  (hlaid : Laid 1 ws (front ++ rest) rest) (hwords : s.words = ws.map PlacedWord.word)

include hlaid hwords

/-- A text that ends behind the words of a state is the beginning of a line with a command. -/
theorem exists_laidOn : ∃ (p : Phrase) (placed : List PlacedWord) (more : List Char),
    p.LaidOn (ws ++ placed) (front ++ more) := by
  obtain ⟨p, more, hp, hmore⟩ := s.exists_phrase
  obtain ⟨placed, hplaced, hspaced⟩ := exists_laid_spaced hmore (1 + front.length)
  refine ⟨p, placed, spaced more, ?_, [], ?_, .blanks blanks_nil⟩
  · rw [List.map_append, hplaced, ← hwords, hp]
  · exact hlaid.extend rfl (fun w _ _ => endsBefore_spaced _ more) hspaced

theorem exists_laidOn_front_iff : (∃ p : Phrase, p.LaidOn ws front) ↔ ∃ p, s = .complete p := by
  constructor
  · rintro ⟨p, hp, -⟩
    exact ⟨p, State.eq_complete_of_words (hwords.trans hp)⟩
  · rintro ⟨p, rfl⟩
    have hends : ∀ t : Terminal, t.EndsBefore [] := Trailer.endsBefore (.blanks blanks_nil)
    have hnone : Laid (1 + front.length) [] [] [] := .gap blanks_nil
    have := hlaid.extend rfl (fun w _ _ => hends _) hnone
    rw [List.append_nil, List.append_nil] at this
    exact ⟨p, hwords.symm, [], this, .blanks blanks_nil⟩

/-- In front of a character of symbols a command can go on with the terminals that the state lists,
and with no others. -/
theorem canStart_iff (hhead : ∃ c ∈ rest.head?, isSymbolChar c = true) :
    CanStart front ws t ↔ t ∈ s.allowed := by
  rw [← State.mayFollow_iff, hwords]
  constructor
  · rintro ⟨p, word, more, after, hp, -⟩
    exact ⟨p, word, more.map PlacedWord.word, by rw [← hp]; simp⟩
  · intro hfollow
    rw [← hwords, State.mayFollow_iff] at hfollow
    obtain ⟨p, word, more, hp, hword, hmore⟩ := State.exists_phrase_of_mem_allowed hfollow
    obtain ⟨placed, hplaced, hspaced⟩ :=
      exists_laid_spaced hmore (1 + front.length + word.length)
    have hends : ∀ w ∈ ws, w.word.terminal.EndsBefore rest →
        w.word.terminal.EndsBefore (word ++ spaced more) := by
      intro w hw hbefore
      have hindex := State.terminal_ne_index hfollow w.word
        (by rw [hwords]; exact List.mem_map_of_mem hw)
      obtain ⟨c, hc, hchar⟩ := hhead
      cases hterminal : w.word.terminal with
      | index => exact absurd hterminal hindex
      | symbol =>
        rw [hterminal] at hbefore
        rw [hbefore c hc] at hchar
        cases hchar
      | _ => trivial
    have hnext : Laid (1 + front.length) (⟨⟨t, word⟩, 1 + front.length⟩ :: placed)
        (word ++ spaced more) [] :=
      .word blanks_nil hword (endsBefore_spaced t more) hspaced
    refine ⟨p, word, placed, spaced more, ?_, [], ?_, .blanks blanks_nil⟩
    · rw [List.map_append, List.map_cons, hplaced, ← hwords, hp]
    · rw [List.append_assoc, Nat.add_comm front.length 1]
      exact hlaid.extend rfl hends hnext

end Front

end Grammar

/-! ## Commands that break off -/

/-- In front of its comment a line has the first words of a command, but not all of them. -/
def BreaksOff (line : List Char) : Prop :=
  ∃ (ws : List PlacedWord) (p : Phrase) (more : List Word),
    Laid 1 ws (beforeComment line) [] ∧ ws ≠ [] ∧ more ≠ [] ∧
      p.words = ws.map PlacedWord.word ++ more

section BreaksOff

variable {line : List Char}

/-- Where a line ends in the middle of a command, the command breaks off. -/
theorem breaksOff_of_read {s : State} (h : Grammar.read line = .ended s) (hstart : s ≠ .start)
    (hcomplete : ∀ p, s ≠ .complete p) : BreaksOff line := by
  obtain ⟨trail, hreads, htrailer⟩ := State.exists_readsTo_of_run h
  obtain ⟨front, rfl, hfront⟩ := hreads.exists_front
  obtain ⟨ws, hlaid, hwords⟩ := hreads.exists_laid 1
  obtain ⟨p, more, hp, -⟩ := s.exists_phrase
  have hblanks : Blanks (beforeComment trail) := htrailer.blanks_beforeComment
  have hgap : Laid (1 + front.length) [] (beforeComment trail) [] := by
    have := @Laid.gap (1 + front.length) (beforeComment trail) [] hblanks
    rwa [List.append_nil] at this
  have hends : ∀ t : Terminal, t.EndsBefore (beforeComment trail) :=
    Trailer.endsBefore (.blanks hblanks)
  refine ⟨ws, p, more, ?_, ?_, ?_, hp.trans (congrArg (· ++ more) hwords)⟩
  · rw [beforeComment_append hfront]
    simpa using hlaid.extend rfl (fun w _ _ => hends _) hgap
  · rintro rfl
    cases s with
    | start => exact hstart rfl
    | complete q => exact hcomplete q rfl
    | _ => cases hwords
  · rintro rfl
    rw [List.append_nil] at hp
    exact hcomplete p (State.eq_complete_of_words hp.symm)

/-- Reading a line whose command breaks off ends in the middle of it. -/
theorem BreaksOff.exists_read (h : BreaksOff line) (hfeed : '\n' ∉ line) :
    ∃ s, Grammar.read line = .ended s ∧ s ≠ .start ∧ ∀ p, s ≠ .complete p := by
  obtain ⟨ws, p, more, hlaid, hne, hmore, hp⟩ := h
  have htrailer : Trailer (comment line) := trailer_comment hfeed
  have hnone : Laid (1 + (beforeComment line).length) [] (comment line) (comment line) :=
    .gap blanks_nil
  have hline := hlaid.extend (List.append_nil _).symm (fun w _ _ => htrailer.endsBefore _) hnone
  rw [beforeComment_append_comment, List.append_nil] at hline
  obtain ⟨s, hreads, hwords⟩ := hline.readsTo (s := .start) ⟨more, hp.symm⟩
  refine ⟨s, ?_, ?_, ?_⟩
  · rw [Grammar.read, hreads.run_eq]
    exact State.run_eq_ended_iff.mpr (.inl ⟨rfl, htrailer⟩)
  · rintro rfl
    exact hne (List.map_eq_nil_iff.mp hwords.symm)
  · rintro q rfl
    cases more with
    | nil => exact hmore rfl
    | cons w more =>
      have hq : p.words = (State.complete q).words ++ w :: more := hp.trans (by rw [hwords]; rfl)
      obtain ⟨next, hnext⟩ := State.exists_after?_of_words hq
      cases hnext

/-- The error of a command that breaks off. -/
theorem BreaksOff.readLine_eq (h : BreaksOff line) (hfeed : '\n' ∉ line) :
    readLine line = .ok (.error ⟨.unfinished, endColumn line⟩) := by
  obtain ⟨s, hread, hstart, hcomplete⟩ := h.exists_read hfeed
  unfold readLine
  rw [hread]
  cases s with
  | start => exact absurd rfl hstart
  | complete p => exact absurd rfl (hcomplete p)
  | _ => rfl

/-- The column behind the last character of the text that is no blank. -/
def EndsAt (text : List Char) (column : Nat) : Prop :=
  ∃ front c gap, text = front ++ [c] ++ gap ∧ isBlank c = false ∧ Blanks gap ∧
    column = (front ++ [c]).length + 1

theorem trimEnd_append {front gap : List Char} {c : Char} (hc : isSpace c = false)
    (hgap : ∀ x ∈ gap, isSpace x = true) : trimEnd (front ++ [c] ++ gap) = front ++ [c] := by
  rw [trimEnd, List.reverse_append, List.dropWhile_append_of_pos (by simpa using hgap)]
  simp [hc]

theorem BreaksOff.endsAt (h : BreaksOff line) : EndsAt (beforeComment line) (endColumn line) := by
  obtain ⟨ws, p, more, hlaid, hne, -⟩ := h
  obtain ⟨front, c, gap, happ, hc, hgap⟩ := hlaid.exists_last hne
  have hspaces : ∀ x ∈ gap, isSpace x = true := by
    intro x hx
    rcases isBlank_iff.mp (hgap x hx) with rfl | rfl <;> rfl
  rw [List.append_nil] at happ
  refine ⟨front, c, gap, happ, isBlank_eq_false_of_isSymbolChar hc, hgap, ?_⟩
  rw [endColumn, happ, trimEnd_append (isSpace_eq_false_of_isSymbolChar hc) hspaces]

end BreaksOff

/-! ## Readings that stop -/

/-- Behind a text that ends with words, a message lists the names of the terminals with which a
command can go on there, in the order of their code points; if the words are a whole command, it
lists the end alone. -/
structure Lists (front : List Char) (ws : List PlacedWord) (names : List String) : Prop where
  complete : (∃ p : Phrase, p.LaidOn ws front) → names = ["<END-OF-FILE>"]
  sorted : (∀ p : Phrase, ¬ p.LaidOn ws front) → names.Pairwise fun a b => a < b
  exact : (∀ p : Phrase, ¬ p.LaidOn ws front) →
    ∀ name, name ∈ names ↔ ∃ t, CanStart front ws t ∧ t.name = name

/-- An error stands on a line in front of a rest: the words up to there can go on to a command, but
nothing with which they could go on stands there. -/
structure StopsAt (line : List Char) (e : LineError) (front rest : List Char)
    (ws : List PlacedWord) : Prop where
  split : line = front ++ rest
  column_eq : e.column = front.length + 1
  column_le : e.column ≤ line.length
  laid : Laid 1 ws line rest
  goes_on : ∃ (p : Phrase) (placed : List PlacedWord) (more : List Char),
    p.LaidOn (ws ++ placed) (front ++ more)
  no_gap : skipBlanks rest = rest
  no_word : ∀ t, MayFollow (ws.map PlacedWord.word) t → t.take? rest = none
  listed : ∀ t word expected, e.fault = .unexpectedToken t word expected →
    ∃ names, Lists front ws names ∧ e.fault.message = "unexpected " ++ t.name ++ " " ++
      String.ofList (quote word) ++ ", expected " ++ ", ".intercalate names

section Stops

variable {line front rest : List Char} {ws : List PlacedWord} {s : State}

theorem nodup_names (s : State) : (s.allowed.map Terminal.name).Nodup := by
  have hsegments : (Terminal.segments.map Terminal.name).Nodup := by decide +kernel
  cases s with
  | start => decide +kernel
  | moving d => exact hsegments
  | complete p => exact .nil
  | _ => exact List.nodup_singleton _

theorem lists_expectedNames (hlaid : Laid 1 ws (front ++ rest) rest)
    (hwords : s.words = ws.map PlacedWord.word) (hhead : ∃ c ∈ rest.head?, isSymbolChar c = true) :
    Lists front ws (expectedNames s.allowed) := by
  have hcomplete := exists_laidOn_front_iff hlaid hwords
  have hexpected : (∀ p : Phrase, ¬ p.LaidOn ws front) →
      expectedNames s.allowed = sortTexts (s.allowed.map Terminal.name) := by
    intro hnone
    cases s with
    | complete p => exact absurd (hcomplete.mpr ⟨p, rfl⟩) (not_exists.mpr hnone)
    | _ => rfl
  refine ⟨fun hp => ?_, fun hnone => ?_, fun hnone name => ?_⟩
  · obtain ⟨p, rfl⟩ := hcomplete.mp hp
    rfl
  · rw [hexpected hnone]
    exact pairwise_sortTexts (nodup_names s)
  · rw [hexpected hnone, (sortTexts_perm _).mem_iff, List.mem_map]
    simp only [canStart_iff hlaid hwords hhead]

theorem exists_stopsAt (hreads : State.start.ReadsTo line s rest) (hne : rest ≠ [])
    (hskip : skipBlanks rest = rest) (hadmits : ¬ s.Admits rest) :
    ∃ front ws, StopsAt line (LineError.ofStuck line s rest) front rest ws := by
  obtain ⟨front, rfl, -⟩ := hreads.exists_front
  obtain ⟨ws, hlaid, hwords⟩ := hreads.exists_laid 1
  have hcolumn : (LineError.ofStuck (front ++ rest) s rest).column = front.length + 1 := by
    rw [← restColumn_append front rest, LineError.ofStuck]
    split <;> rfl
  refine ⟨front, ws, rfl, hcolumn, ?_, hlaid, exists_laidOn hlaid hwords, hskip, ?_, ?_⟩
  · have hpos : 0 < rest.length := List.length_pos_iff.mpr hne
    rw [hcolumn, List.length_append]
    omega
  · intro t ht
    rw [← List.nil_append (ws.map _), ← State.words, ← hwords, State.mayFollow_iff] at ht
    rw [Option.eq_none_iff_forall_ne_some]
    rintro ⟨word, after⟩ htake
    obtain ⟨happ, hword, hends⟩ := Terminal.take?_eq_some_iff.mp htake
    obtain ⟨next, hnext⟩ := Option.isSome_iff_exists.mp ((s.mem_allowed_iff t word).mp ht)
    exact hadmits ⟨t, word, after, next, happ.symm, hword, hends, hnext⟩
  · intro t word expected hfault
    rw [LineError.ofStuck] at hfault ⊢
    split at hfault
    · next hclassify =>
      cases hfault
      obtain ⟨c, more, rfl, hc⟩ := exists_head_of_classify? hclassify
      exact ⟨expectedNames s.allowed, lists_expectedNames hlaid hwords ⟨c, rfl, hc⟩, rfl⟩
    · cases hfault

/-- The error of a line that is rejected, but not for its number.  If the command breaks off, the
error says so behind the last word.  Otherwise it stands where the words cannot go on, and lists
what could stand there. -/
theorem syntax_error_exact {e : LineError} (hfeed : '\n' ∉ line)
    (h : readLine line = .ok (.error e)) (hrange : ∀ kind value, e.fault ≠ .outOfRange kind value) :
    (BreaksOff line →
      e.fault.message = "unexpected end of line, command is missing an argument" ∧
        EndsAt (beforeComment line) e.column) ∧
    (¬ BreaksOff line → ∃ front rest ws, StopsAt line e front rest ws) := by
  constructor
  · intro hbreaks
    rw [hbreaks.readLine_eq hfeed] at h
    cases h
    exact ⟨rfl, hbreaks.endsAt⟩
  · intro hbreaks
    unfold readLine at h
    split at h
    · cases h
    · next p hread =>
      by_cases hlong : p.Overlong
      · obtain ⟨digits, hdigits, hlength⟩ := hlong
        rw [Phrase.toCommand_eq_error hdigits hlength] at h
        cases h
      · rw [Phrase.toCommand_eq_ok hlong] at h
        obtain ⟨digits, -, -, rfl⟩ := eq_outOfRange_of_ofCommand (Except.ok.inj h)
        exact absurd rfl (hrange _ _)
    · next s hstart hcomplete hread =>
      exact absurd (breaksOff_of_read hread hstart hcomplete) hbreaks
    · next s rest hread =>
      cases h
      obtain ⟨hreads, hne, hskip, hadmits⟩ := State.readsTo_of_run_stuck hfeed hread
      obtain ⟨front, ws, hstops⟩ := exists_stopsAt hreads hne hskip hadmits
      exact ⟨front, rest, ws, hstops⟩

end Stops

/-- A line whose index stands in the comment. -/
def indexInComment : List Char := "\tpush constant \t// 7".toList

theorem breaksOff_indexInComment : BreaksOff indexInComment := by
  have hread : Grammar.read indexInComment = .ended (.indexing .push .constant) := by
    decide +kernel
  exact breaksOff_of_read hread nofun nofun

theorem not_breaksOff_wordForIndex : ¬ BreaksOff wordForIndex := by
  intro h
  have hread := h.readLine_eq (by decide)
  have hword : readLine wordForIndex =
      .ok (.error ⟨.unexpectedToken .symbol ['x'] [.index], 15⟩) := by
    decide +kernel
  rw [hword] at hread
  cases hread

theorem syntax_error_exact_index :
    (readLine indexInComment = .ok (.error ⟨.unfinished, 15⟩) ∧ BreaksOff indexInComment ∧
      EndsAt (beforeComment indexInComment) 15) ∧
    readLine wordForIndex = .ok (.error ⟨.unexpectedToken .symbol ['x'] [.index], 15⟩) ∧
      ¬ BreaksOff wordForIndex ∧ ∃ front rest ws,
        StopsAt wordForIndex ⟨.unexpectedToken .symbol ['x'] [.index], 15⟩ front rest ws := by
  have hcomment : readLine indexInComment = .ok (.error ⟨.unfinished, 15⟩) := by decide +kernel
  have hword : readLine wordForIndex =
      .ok (.error ⟨.unexpectedToken .symbol ['x'] [.index], 15⟩) := by
    decide +kernel
  have hends := (syntax_error_exact (by decide) hcomment nofun).1 breaksOff_indexInComment
  have hstops := (syntax_error_exact (by decide) hword nofun).2 not_breaksOff_wordForIndex
  exact ⟨⟨hcomment, breaksOff_indexInComment, hends.2⟩, hword, not_breaksOff_wordForIndex, hstops⟩

end VmToHack
