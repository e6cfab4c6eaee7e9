import Mathlib.Data.List.TakeWhile
import VmToHack.Line
set_option autoImplicit false

/-!
# Line grammar: which lines are commands

The language of one line, said without the machine that reads it.  A phrase is written as
words with blanks between them, `Phrase.Spelled`; a line with a phrase may begin with blanks
and may end in blanks and a comment, `Phrase.OnLine`.  Only between a name and a numeral is a
blank needed: digits that follow a name at once would belong to it.

The machine takes at each place the longest word of a terminal that is allowed there
(`Terminal.take?_eq_some_iff`), and no two terminals that are allowed begin alike
(`State.eq_of_take?`).  So it has no choice, and `read_eq_complete_iff` follows state by state:
the phrase that it reads is the one that is on the line.  `readLine_exact` is what this says
about readings.
-/

namespace VmToHack

open VmToHack.Grammar VmToHack.Text

namespace Grammar

/-! ## Words and what stands between them -/

/-- Spaces and tabs, or nothing. -/
def Blanks (cs : List Char) : Prop := ∀ c ∈ cs, isBlank c = true

theorem blanks_nil : Blanks [] := nofun

theorem blanks_space : Blanks [' '] := List.forall_mem_singleton.mpr rfl

/-- What may follow a command: blanks, and behind them perhaps a comment. -/
inductive Trailer : List Char → Prop where
  | blanks {gap : List Char} (hgap : Blanks gap) : Trailer gap
  | comment {gap words : List Char} (hgap : Blanks gap) (hwords : '\n' ∉ words) :
      Trailer (gap ++ '/' :: '/' :: words)

/-- A run of characters: a first one of one kind, and further ones of another. -/
inductive Run (start more : Char → Bool) : List Char → Prop where
  | mk {c : Char} {cs : List Char} (hc : start c = true) (hcs : ∀ x ∈ cs, more x = true) :
      Run start more (c :: cs)

/-- A symbol: characters of symbols, of which the first is no digit. -/
abbrev SymbolWord : List Char → Prop := Run isSymbolStart isSymbolChar

/-- A numeral: one digit or more. -/
abbrev Numeral : List Char → Prop := Run isDigit isDigit

/-- The characters of symbols lie between the full stop and the small z. -/
theorem toNat_bounds_of_isSymbolChar {c : Char} (h : isSymbolChar c = true) :
    0x2E ≤ c.toNat ∧ c.toNat ≤ 0x7A := by
  have hle : ∀ a b : Char, a ≤ b ↔ a.toNat ≤ b.toNat := fun _ _ => Iff.rfl
  simp only [isSymbolChar, isSymbolStart, isDigit, Bool.or_eq_true, Bool.and_eq_true,
    decide_eq_true_eq, hle, Char.reduceToNat] at h
  rcases h with ((((h | h) | rfl) | rfl) | rfl) | h
  · omega
  · omega
  · decide
  · decide
  · decide
  · omega

/-- A symbol does not start with a digit. -/
theorem isDigit_eq_false_of_isSymbolStart {c : Char} (h : isSymbolStart c = true) :
    isDigit c = false := by
  have hle : ∀ a b : Char, a ≤ b ↔ a.toNat ≤ b.toNat := fun _ _ => Iff.rfl
  simp only [isSymbolStart, Bool.or_eq_true, Bool.and_eq_true, decide_eq_true_eq, hle,
    Char.reduceToNat] at h
  simp only [isDigit, Bool.and_eq_false_iff, decide_eq_false_iff_not, hle, Char.reduceToNat]
  rcases h with (((h | h) | rfl) | rfl) | rfl
  · omega
  · omega
  · decide
  · decide
  · decide

theorem isBlank_iff {c : Char} : isBlank c = true ↔ c = ' ' ∨ c = '\t' := by
  simp only [isBlank, Bool.or_eq_true, decide_eq_true_eq]

theorem isSymbolChar_eq_false_of_isBlank {c : Char} (h : isBlank c = true) :
    isSymbolChar c = false := by
  rcases isBlank_iff.mp h with rfl | rfl <;> decide

theorem isBlank_eq_false_of_isSymbolChar {c : Char} (h : isSymbolChar c = true) :
    isBlank c = false := by
  rw [Bool.eq_false_iff]
  intro hblank
  rw [isSymbolChar_eq_false_of_isBlank hblank] at h
  cases h

theorem Numeral.isDigit_of_mem {digits : List Char} (h : Numeral digits) {c : Char}
    (hc : c ∈ digits) : isDigit c = true := by
  obtain ⟨hfirst, hrest⟩ := h
  rcases List.mem_cons.mp hc with rfl | hc
  · exact hfirst
  · exact hrest c hc

theorem Blanks.skip {gap : List Char} (h : Blanks gap) (cs : List Char) :
    skipBlanks (gap ++ cs) = skipBlanks cs := by
  unfold skipBlanks
  rw [List.dropWhile_append_of_pos h]

/-- A text is split where a run of characters ends. -/
theorem span_eq_iff {p : Char → Bool} {cs word rest : List Char} :
    cs.takeWhile p = word ∧ cs.dropWhile p = rest ↔
      word ++ rest = cs ∧ (∀ x ∈ word, p x = true) ∧ ∀ x ∈ rest.head?, p x = false := by
  constructor
  · rintro ⟨rfl, rfl⟩
    refine ⟨List.takeWhile_append_dropWhile, ?_, ?_⟩
    · exact List.all_eq_true.mp List.all_takeWhile
    · intro x hx
      have := List.head?_dropWhile_not p cs
      rw [hx] at this
      simpa using this
  · rintro ⟨rfl, hword, hrest⟩
    rw [List.takeWhile_append_of_pos hword, List.dropWhile_append_of_pos hword]
    cases rest with
    | nil => simp
    | cons x rest =>
      have := hrest x rfl
      simp [this]

/-- The words of a terminal. -/
def Terminal.Spelled : Terminal → List Char → Prop
  | .symbol, word => SymbolWord word
  | .index, word => Numeral word
  | t, word => t.keyword?.map String.toList = some word

/-- A word of the terminal that ends in front of the rest goes no further. -/
def Terminal.EndsBefore : Terminal → List Char → Prop
  | .symbol, rest => ∀ c ∈ rest.head?, isSymbolChar c = false
  | .index, rest => ∀ c ∈ rest.head?, isDigit c = false
  | _, _ => True

theorem takeRun?_eq_some_iff {start more : Char → Bool} {cs word rest : List Char} :
    takeRun? start more cs = some (word, rest) ↔
      word ++ rest = cs ∧ Run start more word ∧ ∀ c ∈ rest.head?, more c = false := by
  constructor
  · intro h
    cases cs with
    | nil => cases h
    | cons c cs =>
      rw [takeRun?] at h
      split at h
      · next hc =>
        simp only [Option.some.injEq, Prod.mk.injEq] at h
        obtain ⟨rfl, hrest⟩ := h
        obtain ⟨happ, hall, hend⟩ := span_eq_iff.mp ⟨rfl, hrest⟩
        exact ⟨by rw [List.cons_append, happ], .mk hc hall, hend⟩
      · cases h
  · rintro ⟨rfl, hword, hend⟩
    cases hword with
    | @mk c word hc hcs =>
    obtain ⟨htake, hdrop⟩ := span_eq_iff.mpr ⟨rfl, hcs, hend⟩
    rw [List.cons_append, takeRun?, if_pos hc, htake, hdrop]

/-- A terminal takes its longest word at the front of a text. -/
theorem Terminal.take?_eq_some_iff {t : Terminal} {cs word rest : List Char} :
    t.take? cs = some (word, rest) ↔ word ++ rest = cs ∧ t.Spelled word ∧ t.EndsBefore rest := by
  have hkey : ∀ t' : Terminal,
      ((t'.keyword?).bind fun w => takeKeyword? w.toList cs) = some (word, rest) ↔
        word ++ rest = cs ∧ t'.keyword?.map String.toList = some word ∧ True := by
    intro t'
    rw [Option.bind_eq_some_iff, Option.map_eq_some_iff, and_true]
    constructor
    · rintro ⟨w, hw, hk⟩
      obtain ⟨rfl, hrest⟩ := takeKeyword?_eq_some_iff.mp hk
      exact ⟨hrest, w, hw, rfl⟩
    · rintro ⟨hrest, w, hw, rfl⟩
      exact ⟨w, hw, takeKeyword?_eq_some_iff.mpr ⟨rfl, hrest⟩⟩
  cases t with
  | symbol => exact takeRun?_eq_some_iff
  | index => exact takeRun?_eq_some_iff
  | operator o => exact hkey (.operator o)
  | move d => exact hkey (.move d)
  | mark v => exact hkey (.mark v)
  | routine v => exact hkey (.routine v)
  | ret => exact hkey .ret
  | segment g => exact hkey (.segment g)

/-! ## Gaps -/

/-- Reading passes all of a text if it is a trailer. -/
theorem skipBlanks_eq_nil_iff {cs : List Char} : skipBlanks cs = [] ↔ Trailer cs := by
  constructor
  · intro h
    unfold skipBlanks at h
    have hgap : Blanks (cs.takeWhile isBlank) := List.all_eq_true.mp List.all_takeWhile
    rw [← List.takeWhile_append_dropWhile (p := isBlank) (l := cs)]
    split at h
    · next words hdrop =>
      rw [hdrop]
      refine .comment hgap ?_
      intro hfeed
      have := List.dropWhile_eq_nil_iff.mp h _ hfeed
      simp at this
    · rw [h, List.append_nil]
      exact .blanks hgap
  · rintro (hgap | ⟨hgap, hwords⟩)
    · have := hgap.skip []
      rwa [List.append_nil] at this
    · rw [hgap.skip]
      show List.dropWhile (· ≠ '\n') _ = []
      rw [List.dropWhile_eq_nil_iff]
      intro x hx
      refine decide_eq_true ?_
      rintro rfl
      exact hwords hx

/-- Reading stops at a character that is no blank and begins no comment. -/
theorem skipBlanks_cons {c : Char} {cs : List Char} (hblank : isBlank c = false)
    (hslash : c ≠ '/') : skipBlanks (c :: cs) = c :: cs := by
  unfold skipBlanks
  rw [List.dropWhile_cons_of_neg (by simp [hblank])]
  split
  · next heq =>
    cases heq
    exact absurd rfl hslash
  · rfl

/-- Where reading stops inside a line, only blanks have been passed. -/
theorem exists_blanks_of_skipBlanks {c : Char} {cs rest : List Char} (h : skipBlanks cs = c :: rest)
    (hfeed : c ≠ '\n') : ∃ gap, Blanks gap ∧ cs = gap ++ c :: rest := by
  unfold skipBlanks at h
  split at h
  · have := List.head?_dropWhile_not (fun c => decide (c ≠ '\n')) ‹List Char›
    rw [h] at this
    simp [hfeed] at this
  · refine ⟨cs.takeWhile isBlank, List.all_eq_true.mp List.all_takeWhile, ?_⟩
    rw [← h, List.takeWhile_append_dropWhile]

/-! ## One terminal -/

theorem Terminal.spelled_of_keyword? {t : Terminal} {w : String} (hw : t.keyword? = some w)
    (word : List Char) : t.Spelled word ↔ word = w.toList := by
  have hkey : t.keyword?.map String.toList = some word ↔ word = w.toList := by
    rw [hw, Option.map_some, Option.some.injEq, eq_comm]
  cases t with
  | symbol => cases hw
  | index => cases hw
  | _ => exact hkey

theorem Terminal.endsBefore_of_keyword? {t : Terminal} {w : String} (hw : t.keyword? = some w)
    (rest : List Char) : t.EndsBefore rest := by
  cases t with
  | symbol => cases hw
  | index => cases hw
  | _ => trivial

theorem Terminal.mem_keywords {t : Terminal} {w : String} (hw : t.keyword? = some w) :
    t ∈ keywords := by
  cases t with
  | operator o => simp [keywords, verbs, Operator.mem_all]
  | move d => cases d <;> simp [keywords, verbs]
  | mark v => cases v <;> simp [keywords, verbs]
  | routine v => cases v <;> simp [keywords, verbs]
  | ret => simp [keywords, verbs]
  | segment g => simp [keywords, segments, Segment.mem_all]
  | symbol => cases hw
  | index => cases hw

/-- No keyword begins another one. -/
theorem Terminal.eq_of_isPrefix {t t' : Terminal} {w w' : String} (hw : t.keyword? = some w)
    (hw' : t'.keyword? = some w') (h : w.toList <+: w'.toList) : t = t' := by
  have hall : ∀ t ∈ keywords, ∀ t' ∈ keywords, ∀ w ∈ t.keyword?, ∀ w' ∈ t'.keyword?,
      w.toList <+: w'.toList → t = t' := by
    decide +kernel
  exact hall t (mem_keywords hw) t' (mem_keywords hw') w hw w' hw' h

/-- A word begins with a character of symbols, also that of a keyword. -/
theorem Terminal.Spelled.head {t : Terminal} {word : List Char} (h : t.Spelled word) :
    ∃ c cs, word = c :: cs ∧ isSymbolChar c = true := by
  have hall : ∀ t ∈ keywords, ∀ w ∈ t.keyword?, w.toList.head?.any isSymbolChar = true := by
    decide +kernel
  cases hw : t.keyword? with
  | some w =>
    have hchar := hall t (mem_keywords hw) w hw
    rw [(spelled_of_keyword? hw word).mp h]
    cases hlist : w.toList with
    | nil =>
      rw [hlist] at hchar
      cases hchar
    | cons c cs =>
      rw [hlist] at hchar
      exact ⟨c, cs, rfl, hchar⟩
  | none =>
    cases t with
    | symbol =>
      obtain ⟨hc, -⟩ := h
      exact ⟨_, _, rfl, by rw [isSymbolChar, hc, Bool.true_or]⟩
    | index =>
      obtain ⟨hc, -⟩ := h
      exact ⟨_, _, rfl, by rw [isSymbolChar, hc, Bool.or_true]⟩
    | _ => cases hw

/-- Reading stops at a word. -/
theorem Terminal.Spelled.skip {t : Terminal} {word : List Char} (h : t.Spelled word)
    (rest : List Char) : skipBlanks (word ++ rest) = word ++ rest := by
  obtain ⟨c, cs, rfl, hc⟩ := h.head
  refine skipBlanks_cons (isBlank_eq_false_of_isSymbolChar hc) ?_
  rintro rfl
  exact absurd hc (by decide)

/-! ## One step of the machine -/

namespace State

theorem mem_allowed_of_after? {s s' : State} {t : Terminal} {word : List Char}
    (h : s.after? t word = some s') : t ∈ s.allowed :=
  (s.mem_allowed_iff t word).mpr (by rw [h]; rfl)

/-- Where several terminals are allowed they are keywords. -/
theorem keyword_or_eq {s : State} {t t' : Terminal} (h : t ∈ s.allowed) (h' : t' ∈ s.allowed) :
    t = t' ∨ ∃ w w', t.keyword? = some w ∧ t'.keyword? = some w' := by
  have hall : ∀ ts : List Terminal, (∀ t ∈ ts, t.keyword?.isSome = true) → t ∈ ts → t' ∈ ts →
      ∃ w w', t.keyword? = some w ∧ t'.keyword? = some w' := by
    intro ts hts ht ht'
    obtain ⟨w, hw⟩ := Option.isSome_iff_exists.mp (hts t ht)
    obtain ⟨w', hw'⟩ := Option.isSome_iff_exists.mp (hts t' ht')
    exact ⟨w, w', hw, hw'⟩
  cases s with
  | start => exact .inr (hall Terminal.verbs (by decide) h h')
  | moving d => exact .inr (hall Terminal.segments (by decide) h h')
  | complete p => cases h
  | _ => exact .inl ((List.mem_singleton.mp h).trans (List.mem_singleton.mp h').symm)

/-- No two terminals that are allowed match at one place. -/
theorem eq_of_take? {s : State} {t t' : Terminal} (h : t ∈ s.allowed) (h' : t' ∈ s.allowed)
    {cs word rest word' rest' : List Char} (ht : t.take? cs = some (word, rest))
    (ht' : t'.take? cs = some (word', rest')) : t = t' := by
  obtain heq | ⟨w, w', hw, hw'⟩ := keyword_or_eq h h'
  · exact heq
  · obtain ⟨happ, hspelled, -⟩ := Terminal.take?_eq_some_iff.mp ht
    obtain ⟨happ', hspelled', -⟩ := Terminal.take?_eq_some_iff.mp ht'
    rw [Terminal.spelled_of_keyword? hw] at hspelled
    rw [Terminal.spelled_of_keyword? hw'] at hspelled'
    subst hspelled hspelled'
    obtain hp | hp := List.prefix_or_prefix_of_prefix ⟨rest, happ⟩ ⟨rest', happ'⟩
    · exact Terminal.eq_of_isPrefix hw hw' hp
    · exact (Terminal.eq_of_isPrefix hw' hw hp).symm

theorem next?_eq_some_iff {s s' : State} {cs rest : List Char} :
    s.next? cs = some (s', rest) ↔
      ∃ t word, s.after? t word = some s' ∧ t.take? cs = some (word, rest) := by
  constructor
  · intro h
    obtain ⟨t, -, ht⟩ := List.exists_of_findSome?_eq_some h
    obtain ⟨⟨word, rest'⟩, htake, hmap⟩ := Option.bind_eq_some_iff.mp ht
    obtain ⟨s'', hafter, heq⟩ := Option.map_eq_some_iff.mp hmap
    cases heq
    exact ⟨t, word, hafter, htake⟩
  · rintro ⟨t, word, hafter, htake⟩
    have hallowed := mem_allowed_of_after? hafter
    cases hnext : s.next? cs with
    | none =>
      have := List.findSome?_eq_none_iff.mp hnext t hallowed
      simp [htake, hafter] at this
    | some found =>
      obtain ⟨t', hallowed', ht'⟩ := List.exists_of_findSome?_eq_some hnext
      obtain ⟨⟨word', rest'⟩, htake', hmap⟩ := Option.bind_eq_some_iff.mp ht'
      obtain rfl := eq_of_take? hallowed hallowed' htake htake'
      rw [htake] at htake'
      cases htake'
      simp only [hafter, Option.map_some] at hmap
      exact hmap.symm

/-- A word that may come next is read. -/
theorem run_word {s next : State} {gap word rest : List Char} {t : Terminal} (hgap : Blanks gap)
    (hword : t.Spelled word) (hends : t.EndsBefore rest) (hafter : s.after? t word = some next) :
    s.run (gap ++ word ++ rest) = next.run rest := by
  have hskip : skipBlanks (gap ++ word ++ rest) = word ++ rest := by
    rw [List.append_assoc, hgap.skip, hword.skip]
  have hnext : s.next? (word ++ rest) = some (next, rest) :=
    next?_eq_some_iff.mpr ⟨t, word, hafter, Terminal.take?_eq_some_iff.mpr ⟨rfl, hword, hends⟩⟩
  obtain ⟨c, cs, rfl, -⟩ := hword.head
  rw [State.run, hskip]
  simp only [List.cons_append] at hnext ⊢
  split
  · next hfound =>
    rw [hnext] at hfound
    cases hfound
    rfl
  · next hnone =>
    rw [hnext] at hnone
    cases hnone

/-- The ways in which a text is read to its end: it is a trailer, or a word stands behind
blanks and what follows is read to its end. -/
theorem run_eq_ended_iff {s s' : State} {cs : List Char} :
    s.run cs = .ended s' ↔
      s = s' ∧ Trailer cs ∨
        ∃ gap t word rest next, cs = gap ++ word ++ rest ∧ Blanks gap ∧ t.Spelled word ∧
          t.EndsBefore rest ∧ s.after? t word = some next ∧ next.run rest = .ended s' := by
  constructor
  · intro h
    rw [State.run] at h
    split at h
    · next hskip =>
      cases h
      exact .inl ⟨rfl, skipBlanks_eq_nil_iff.mp hskip⟩
    · next c rest hskip =>
      split at h
      · next next rest' hnext =>
        obtain ⟨t, word, hafter, htake⟩ := next?_eq_some_iff.mp hnext
        obtain ⟨happ, hspelled, hends⟩ := Terminal.take?_eq_some_iff.mp htake
        obtain ⟨x, xs, rfl, hx⟩ := hspelled.head
        obtain ⟨rfl, hrest⟩ := List.cons.inj happ
        have hfeed : x ≠ '\n' := by
          rintro rfl
          exact absurd hx (by decide)
        obtain ⟨gap, hgap, hcs⟩ := exists_blanks_of_skipBlanks hskip hfeed
        refine .inr ⟨gap, t, x :: xs, rest', next, ?_, hgap, hspelled, hends, hafter, h⟩
        rw [hcs, List.append_assoc, happ]
      · cases h
  · rintro (⟨rfl, htrailer⟩ | ⟨gap, t, word, rest, next, rfl, hgap, hspelled, hends, hafter, hrun⟩)
    · rw [State.run, skipBlanks_eq_nil_iff.mpr htrailer]
    · rw [run_word hgap hspelled hends hafter, hrun]

end State

/-! ## The language of a line -/

/-- How a phrase is written.  A name and a numeral need a blank between them, any other two
words need none. -/
inductive Phrase.Spelled : Phrase → List Char → Prop where
  | operator (o : Operator) : Spelled (.operator o) o.mnemonic.toList
  | move (d : Direction) (g : Segment) {gap gap' digits : List Char} (hgap : Blanks gap)
      (hgap' : Blanks gap') (hdigits : Numeral digits) :
      Spelled (.move d g digits) (d.name.toList ++ gap ++ g.name.toList ++ gap' ++ digits)
  | mark (v : LabelVerb) {gap name : List Char} (hgap : Blanks gap) (hname : SymbolWord name) :
      Spelled (.mark v name) (v.name.toList ++ gap ++ name)
  | routine (v : RoutineVerb) {gap name gap' digits : List Char} (hgap : Blanks gap)
      (hname : SymbolWord name) (hgap' : Blanks gap') (hne : gap' ≠ []) (hdigits : Numeral digits) :
      Spelled (.routine v name digits) (v.name.toList ++ gap ++ name ++ gap' ++ digits)
  | ret : Spelled .ret "return".toList

/-- A line with a phrase: blanks may stand in front of it, and a trailer behind it. -/
def Phrase.OnLine (p : Phrase) (line : List Char) : Prop :=
  ∃ gap text trail, line = gap ++ text ++ trail ∧ Blanks gap ∧ p.Spelled text ∧ Trailer trail

theorem Trailer.endsBefore {trail : List Char} (h : Trailer trail) (t : Terminal) :
    t.EndsBefore trail := by
  have hhead : ∀ c ∈ trail.head?, isSymbolChar c = false := by
    intro c hc
    cases h with
    | blanks hgap => exact isSymbolChar_eq_false_of_isBlank (hgap c (List.mem_of_head? hc))
    | @comment gap words hgap =>
      cases gap with
      | nil =>
        cases hc
        decide
      | cons x gap =>
        cases hc
        exact isSymbolChar_eq_false_of_isBlank (hgap c List.mem_cons_self)
  cases t with
  | symbol => exact hhead
  | index => exact fun c hc => (Bool.or_eq_false_iff.mp (hhead c hc)).2
  | _ => trivial

namespace State

variable {cs : List Char} {p : Phrase}

theorem run_complete_iff {q : Phrase} :
    (State.complete q).run cs = .ended (.complete p) ↔ q = p ∧ Trailer cs := by
  rw [run_eq_ended_iff, State.complete.injEq]
  constructor
  · rintro (h | ⟨_, t, _, _, _, _, _, _, _, hafter, _⟩)
    · exact h
    · cases t <;> cases hafter
  · exact .inl

/-- A state that wants one more word. -/
theorem run_last_iff {s : State} {t : Terminal} {f : List Char → Phrase}
    (hs : ∀ t' word next, s.after? t' word = some next ↔ t' = t ∧ next = .complete (f word))
    (hne : ∀ p, s ≠ .complete p) :
    s.run cs = .ended (.complete p) ↔ ∃ gap word trail, cs = gap ++ word ++ trail ∧ Blanks gap ∧
      t.Spelled word ∧ Trailer trail ∧ p = f word := by
  rw [run_eq_ended_iff]
  constructor
  · rintro (⟨heq, -⟩ | ⟨gap, t', word, rest, next, hcs, hgap, hspelled, -, hafter, hrun⟩)
    · exact absurd heq (hne p)
    · obtain ⟨rfl, rfl⟩ := (hs _ _ _).mp hafter
      obtain ⟨rfl, htrailer⟩ := run_complete_iff.mp hrun
      exact ⟨gap, word, rest, hcs, hgap, hspelled, htrailer, rfl⟩
  · rintro ⟨gap, word, trail, hcs, hgap, hspelled, htrailer, rfl⟩
    exact .inr ⟨gap, t, word, trail, _, hcs, hgap, hspelled, htrailer.endsBefore t,
      (hs _ _ _).mpr ⟨rfl, rfl⟩, run_complete_iff.mpr ⟨rfl, htrailer⟩⟩

theorem run_indexing_iff {d : Direction} {g : Segment} :
    (indexing d g).run cs = .ended (.complete p) ↔ ∃ gap digits trail,
      cs = gap ++ digits ++ trail ∧ Blanks gap ∧ Numeral digits ∧ Trailer trail ∧
        p = .move d g digits := by
  refine run_last_iff (t := .index) ?_ ?_
  · intro t word next
    cases t <;> simp [after?, eq_comm]
  · simp

theorem run_counting_iff {v : RoutineVerb} {name : List Char} :
    (counting v name).run cs = .ended (.complete p) ↔ ∃ gap digits trail,
      cs = gap ++ digits ++ trail ∧ Blanks gap ∧ Numeral digits ∧ Trailer trail ∧
        p = .routine v name digits := by
  refine run_last_iff (t := .index) ?_ ?_
  · intro t word next
    cases t <;> simp [after?, eq_comm]
  · simp

theorem run_marking_iff {v : LabelVerb} :
    (marking v).run cs = .ended (.complete p) ↔ ∃ gap name trail,
      cs = gap ++ name ++ trail ∧ Blanks gap ∧ SymbolWord name ∧ Trailer trail ∧
        p = .mark v name := by
  refine run_last_iff (t := .symbol) ?_ ?_
  · intro t word next
    cases t <;> simp [after?, eq_comm]
  · simp

/-- Reading on makes a command no longer. -/
theorem wants_le_of_run {s s' : State} {cs : List Char} (h : s.run cs = .ended s') :
    s'.wants ≤ s.wants := by
  induction hn : s.wants using Nat.strong_induction_on generalizing s cs with
  | _ n ih =>
    obtain ⟨rfl, -⟩ | ⟨gap, t, word, rest, next, -, -, -, -, hafter, hrun⟩ :=
      run_eq_ended_iff.mp h
    · exact Nat.le_of_eq hn
    · have hlt := wants_lt_of_after? hafter
      rw [hn] at hlt
      exact Nat.le_trans (ih _ hlt hrun rfl) (Nat.le_of_lt hlt)

/-- A state in which only keywords are allowed. -/
theorem run_keyword_iff {s : State}
    (hs : ∀ t word next, s.after? t word = some next → t.keyword?.isSome = true)
    (hne : ∀ p, s ≠ .complete p) :
    s.run cs = .ended (.complete p) ↔ ∃ gap t w rest next, cs = gap ++ w.toList ++ rest ∧
      Blanks gap ∧ t.keyword? = some w ∧ s.after? t w.toList = some next ∧
        next.run rest = .ended (.complete p) := by
  rw [run_eq_ended_iff]
  constructor
  · rintro (⟨heq, -⟩ | ⟨gap, t, word, rest, next, hcs, hgap, hspelled, -, hafter, hrun⟩)
    · exact absurd heq (hne p)
    · obtain ⟨w, hw⟩ := Option.isSome_iff_exists.mp (hs t word next hafter)
      obtain rfl := (Terminal.spelled_of_keyword? hw word).mp hspelled
      exact ⟨gap, t, w, rest, next, hcs, hgap, hw, hafter, hrun⟩
  · rintro ⟨gap, t, w, rest, next, hcs, hgap, hw, hafter, hrun⟩
    exact .inr ⟨gap, t, w.toList, rest, next, hcs, hgap,
      (Terminal.spelled_of_keyword? hw _).mpr rfl, Terminal.endsBefore_of_keyword? hw rest,
      hafter, hrun⟩

theorem run_moving_iff {d : Direction} :
    (moving d).run cs = .ended (.complete p) ↔ ∃ gap g gap' digits trail,
      cs = gap ++ g.name.toList ++ gap' ++ digits ++ trail ∧ Blanks gap ∧ Blanks gap' ∧
        Numeral digits ∧ Trailer trail ∧ p = .move d g digits := by
  have hkeywords : ∀ t word next, (moving d).after? t word = some next →
      t.keyword?.isSome = true := by
    intro t word next hafter
    cases t <;> cases hafter
    rfl
  rw [run_keyword_iff hkeywords (by simp)]
  constructor
  · rintro ⟨gap, t, w, rest, next, rfl, hgap, hw, hafter, hrun⟩
    cases t with
    | segment g =>
      cases hw
      cases hafter
      obtain ⟨gap', digits, trail, rfl, hgap', hdigits, htrailer, rfl⟩ := run_indexing_iff.mp hrun
      exact ⟨gap, g, gap', digits, trail, by simp, hgap, hgap', hdigits, htrailer, rfl⟩
    | _ => cases hafter
  · rintro ⟨gap, g, gap', digits, trail, rfl, hgap, hgap', hdigits, htrailer, rfl⟩
    refine ⟨gap, .segment g, g.name, gap' ++ digits ++ trail, .indexing d g, by simp, hgap, rfl,
      rfl, ?_⟩
    exact run_indexing_iff.mpr ⟨gap', digits, trail, rfl, hgap', hdigits, htrailer, rfl⟩

/-- Between a name and a numeral stands a blank: otherwise the digits belong to the name. -/
theorem endsBefore_symbol_iff {gap digits trail : List Char} (hgap : Blanks gap)
    (hdigits : Numeral digits) :
    Terminal.symbol.EndsBefore (gap ++ digits ++ trail) ↔ gap ≠ [] := by
  obtain ⟨hc, -⟩ := hdigits
  constructor
  · rintro hends rfl
    have := hends _ rfl
    rw [isSymbolChar, hc, Bool.or_true] at this
    cases this
  · intro hne
    obtain ⟨x, gap, rfl⟩ := List.exists_cons_of_ne_nil hne
    have hblank : Trailer [x] := .blanks fun c hc => by
      obtain rfl := List.mem_singleton.mp hc
      exact hgap c List.mem_cons_self
    have := hblank.endsBefore .symbol
    intro c hc
    cases hc
    exact this x rfl

theorem run_naming_iff {v : RoutineVerb} :
    (naming v).run cs = .ended (.complete p) ↔ ∃ gap name gap' digits trail,
      cs = gap ++ name ++ gap' ++ digits ++ trail ∧ Blanks gap ∧ SymbolWord name ∧ Blanks gap' ∧
        gap' ≠ [] ∧ Numeral digits ∧ Trailer trail ∧ p = .routine v name digits := by
  rw [run_eq_ended_iff]
  constructor
  · rintro (⟨heq, -⟩ | ⟨gap, t, word, rest, next, rfl, hgap, hspelled, hends, hafter, hrun⟩)
    · cases heq
    · cases t with
      | symbol =>
        cases hafter
        obtain ⟨gap', digits, trail, rfl, hgap', hdigits, htrailer, rfl⟩ := run_counting_iff.mp hrun
        exact ⟨gap, word, gap', digits, trail, by simp, hgap, hspelled, hgap',
          (endsBefore_symbol_iff hgap' hdigits).mp hends, hdigits, htrailer, rfl⟩
      | _ => cases hafter
  · rintro ⟨gap, name, gap', digits, trail, rfl, hgap, hname, hgap', hne, hdigits, htrailer, rfl⟩
    refine .inr ⟨gap, .symbol, name, gap' ++ digits ++ trail, .counting v name, by simp, hgap,
      hname, (endsBefore_symbol_iff hgap' hdigits).mpr hne, rfl, ?_⟩
    exact run_counting_iff.mpr ⟨gap', digits, trail, rfl, hgap', hdigits, htrailer, rfl⟩

end State

/-- A line is read as a phrase if and only if the phrase is on it. -/
theorem read_eq_complete_iff {p : Phrase} {line : List Char} :
    read line = .ended (.complete p) ↔ p.OnLine line := by
  have hkeywords : ∀ t word next, State.start.after? t word = some next →
      t.keyword?.isSome = true := by
    intro t word next hafter
    cases t <;> cases hafter <;> rfl
  unfold read
  rw [State.run_keyword_iff hkeywords (by simp)]
  constructor
  · rintro ⟨gap, t, w, rest, next, rfl, hgap, hw, hafter, hrun⟩
    cases t with
    | operator o =>
      cases hw
      cases hafter
      obtain ⟨rfl, htrailer⟩ := State.run_complete_iff.mp hrun
      exact ⟨gap, _, rest, rfl, hgap, .operator o, htrailer⟩
    | move d =>
      cases hw
      cases hafter
      obtain ⟨gap₁, g, gap₂, digits, trail, rfl, hgap₁, hgap₂, hdigits, htrailer, rfl⟩ :=
        State.run_moving_iff.mp hrun
      exact ⟨gap, _, trail, by simp, hgap, .move d g hgap₁ hgap₂ hdigits, htrailer⟩
    | mark v =>
      cases hw
      cases hafter
      obtain ⟨gap₁, name, trail, rfl, hgap₁, hname, htrailer, rfl⟩ := State.run_marking_iff.mp hrun
      exact ⟨gap, _, trail, by simp, hgap, .mark v hgap₁ hname, htrailer⟩
    | routine v =>
      cases hw
      cases hafter
      obtain ⟨gap₁, name, gap₂, digits, trail, rfl, hgap₁, hname, hgap₂, hne, hdigits, htrailer,
        rfl⟩ := State.run_naming_iff.mp hrun
      exact ⟨gap, _, trail, by simp, hgap, .routine v hgap₁ hname hgap₂ hne hdigits, htrailer⟩
    | ret =>
      cases hw
      cases hafter
      obtain ⟨rfl, htrailer⟩ := State.run_complete_iff.mp hrun
      exact ⟨gap, _, rest, rfl, hgap, .ret, htrailer⟩
    | _ => cases hafter
  · rintro ⟨gap, text, trail, rfl, hgap, hspelled, htrailer⟩
    cases hspelled with
    | operator o =>
      exact ⟨gap, .operator o, _, trail, _, rfl, hgap, rfl, rfl,
        State.run_complete_iff.mpr ⟨rfl, htrailer⟩⟩
    | @move d g gap₁ gap₂ digits hgap₁ hgap₂ hdigits =>
      refine ⟨gap, .move d, d.name, gap₁ ++ g.name.toList ++ gap₂ ++ digits ++ trail, _, by simp,
        hgap, rfl, rfl, ?_⟩
      exact State.run_moving_iff.mpr
        ⟨gap₁, g, gap₂, digits, trail, rfl, hgap₁, hgap₂, hdigits, htrailer, rfl⟩
    | @mark v gap₁ name hgap₁ hname =>
      refine ⟨gap, .mark v, v.name, gap₁ ++ name ++ trail, _, by simp, hgap, rfl, rfl, ?_⟩
      exact State.run_marking_iff.mpr ⟨gap₁, name, trail, rfl, hgap₁, hname, htrailer, rfl⟩
    | @routine v gap₁ name gap₂ digits hgap₁ hname hgap₂ hne hdigits =>
      refine ⟨gap, .routine v, v.name, gap₁ ++ name ++ gap₂ ++ digits ++ trail, _, by simp, hgap,
        rfl, rfl, ?_⟩
      exact State.run_naming_iff.mpr
        ⟨gap₁, name, gap₂, digits, trail, rfl, hgap₁, hname, hgap₂, hne, hdigits, htrailer, rfl⟩
    | ret =>
      exact ⟨gap, .ret, "return", trail, _, rfl, hgap, rfl, rfl,
        State.run_complete_iff.mpr ⟨rfl, htrailer⟩⟩

/-- A line is read as one without a command if and only if it is a trailer. -/
theorem read_eq_start_iff {line : List Char} : read line = .ended .start ↔ Trailer line := by
  unfold read
  rw [State.run_eq_ended_iff]
  constructor
  · rintro (⟨-, htrailer⟩ | ⟨gap, t, word, rest, next, -, -, -, -, hafter, hrun⟩)
    · exact htrailer
    · have hlt := State.wants_lt_of_after? hafter
      have hle := State.wants_le_of_run hrun
      omega
  · exact fun htrailer => .inl ⟨rfl, htrailer⟩

end Grammar

/-! ## Readings -/

namespace Grammar.Phrase

/-- The numeral of a phrase that has one. -/
def numeral? : Phrase → Option (List Char)
  | .move _ _ digits => some digits
  | .routine _ _ digits => some digits
  | _ => none

/-- The command that a phrase spells, however long its numeral is. -/
def command : Phrase → Command
  | .operator o => .arithmetic o.mnemonic
  | .move .push g digits => .push g.name (numeralValue digits)
  | .move .pop g digits => .pop g.name (numeralValue digits)
  | .mark .label name => .label (String.ofList name)
  | .mark .goto name => .goto (String.ofList name)
  | .mark .ifGoto name => .ifGoto (String.ofList name)
  | .routine .function name digits => .function (String.ofList name) (numeralValue digits)
  | .routine .call name digits => .call (String.ofList name) (numeralValue digits)
  | .ret => .ret

/-- The index or count of a phrase can be loaded. -/
def InRange (p : Phrase) : Prop := ∀ digits ∈ p.numeral?, numeralValue digits ≤ maxNumber

/-- The numeral of a phrase is longer than any that is evaluated. -/
def Overlong (p : Phrase) : Prop := ∃ digits ∈ p.numeral?, numeralLimit < digits.length

theorem number?_command (p : Phrase) :
    p.command.number? = p.numeral?.map fun digits => (numeralValue digits : Int) := by
  cases p with
  | move d g digits => cases d <;> rfl
  | mark v name => cases v <;> rfl
  | routine v name digits => cases v <;> rfl
  | _ => rfl

theorem toCommand_eq_ok {p : Phrase} (h : ¬ p.Overlong) : p.toCommand = .ok p.command := by
  have hle : ∀ digits ∈ p.numeral?, digits.length ≤ numeralLimit :=
    fun digits hdigits => Nat.le_of_not_lt fun hlt => h ⟨digits, hdigits, hlt⟩
  cases p with
  | move d g digits => cases d <;> simp [toCommand, evaluate, Except.map, command, hle digits rfl]
  | mark v name => cases v <;> rfl
  | routine v name digits =>
    cases v <;> simp [toCommand, evaluate, Except.map, command, hle digits rfl]
  | _ => rfl

theorem toCommand_eq_error {p : Phrase} {digits : List Char} (hdigits : p.numeral? = some digits)
    (h : numeralLimit < digits.length) :
    p.toCommand = .error ⟨p.command.kind, digits.length⟩ := by
  have hgt : ¬ digits.length ≤ numeralLimit := Nat.not_le_of_lt h
  cases p with
  | move d g digits' =>
    cases hdigits
    cases d <;> simp [toCommand, evaluate, Except.map, command, Command.kind, hgt]
  | routine v name digits' =>
    cases hdigits
    cases v <;> simp [toCommand, evaluate, Except.map, command, Command.kind, hgt]
  | _ => cases hdigits

theorem ofCommand_command {p : Phrase} (h : p.InRange) (line : List Char) :
    Reading.ofCommand line p.command = .command p.command := by
  unfold Reading.ofCommand
  rw [p.number?_command]
  cases hdigits : p.numeral? with
  | none => rfl
  | some digits =>
    have hle : (numeralValue digits : Int) ≤ maxNumber := Int.ofNat_le.mpr (h digits hdigits)
    simp only [Option.map_some, if_pos hle]

theorem ofCommand_eq_error {p : Phrase} (h : ¬ p.InRange) (line : List Char) :
    ∃ e, Reading.ofCommand line p.command = .error e := by
  unfold Reading.ofCommand
  rw [p.number?_command]
  cases hdigits : p.numeral? with
  | none => exact absurd (fun digits hmem => by rw [hdigits] at hmem; cases hmem) h
  | some digits =>
    have hgt : ¬ (numeralValue digits : Int) ≤ maxNumber := by
      intro hle
      apply h
      intro digits' hmem
      rw [hdigits] at hmem
      cases hmem
      exact Int.ofNat_le.mp hle
    simp only [Option.map_some, if_neg hgt]
    exact ⟨_, rfl⟩

end Grammar.Phrase

section Reading

variable {line : List Char} {p : Phrase}

theorem readLine_of_onLine (h : p.OnLine line) :
    readLine line = p.toCommand.map (Reading.ofCommand line) := by
  unfold readLine
  rw [read_eq_complete_iff.mpr h]

theorem readLine_of_trailer (h : Trailer line) : readLine line = .ok .blank := by
  unfold readLine
  rw [read_eq_start_iff.mpr h]

/-- There is one phrase on a line at most. -/
theorem onLine_unique {p' : Phrase} (h : p.OnLine line) (h' : p'.OnLine line) : p = p' := by
  have hread := read_eq_complete_iff.mpr h
  rw [read_eq_complete_iff.mpr h'] at hread
  cases hread
  rfl

/-- A line that is no trailer and has no phrase is an error. -/
theorem readLine_of_neither (htrailer : ¬ Trailer line) (hphrase : ∀ p : Phrase, ¬ p.OnLine line) :
    ∃ e, readLine line = .ok (.error e) := by
  unfold readLine
  split
  · next hread => exact absurd (read_eq_start_iff.mp hread) htrailer
  · next p hread => exact absurd (read_eq_complete_iff.mp hread) (hphrase p)
  · exact ⟨_, rfl⟩
  · exact ⟨_, rfl⟩

theorem readLine_of_overlong (h : p.OnLine line) {digits : List Char}
    (hdigits : p.numeral? = some digits) (hlong : numeralLimit < digits.length) :
    readLine line = .error ⟨p.command.kind, digits.length⟩ := by
  rw [readLine_of_onLine h, Phrase.toCommand_eq_error hdigits hlong]
  rfl

theorem readLine_of_inRange (h : p.OnLine line) (hlong : ¬ p.Overlong) (hrange : p.InRange) :
    readLine line = .ok (.command p.command) := by
  rw [readLine_of_onLine h, Phrase.toCommand_eq_ok hlong]
  exact congrArg Except.ok (Phrase.ofCommand_command hrange line)

theorem readLine_of_outOfRange (h : p.OnLine line) (hlong : ¬ p.Overlong) (hrange : ¬ p.InRange) :
    ∃ e, readLine line = .ok (.error e) := by
  obtain ⟨e, he⟩ := Phrase.ofCommand_eq_error hrange line
  refine ⟨e, ?_⟩
  rw [readLine_of_onLine h, Phrase.toCommand_eq_ok hlong]
  exact congrArg Except.ok he

/-- What a line says is decided by what is on it. -/
theorem readLine_cases (line : List Char) :
    Trailer line ∨
      (∃ p : Phrase, p.OnLine line ∧ p.Overlong) ∨
      (∃ p : Phrase, p.OnLine line ∧ ¬ p.Overlong ∧ p.InRange) ∨
      ∃ e, readLine line = .ok (.error e) := by
  by_cases htrailer : Trailer line
  · exact .inl htrailer
  by_cases hphrase : ∃ p : Phrase, p.OnLine line
  · obtain ⟨p, hp⟩ := hphrase
    by_cases hlong : p.Overlong
    · exact .inr (.inl ⟨p, hp, hlong⟩)
    by_cases hrange : p.InRange
    · exact .inr (.inr (.inl ⟨p, hp, hlong, hrange⟩))
    · exact .inr (.inr (.inr (readLine_of_outOfRange hp hlong hrange)))
  · exact .inr (.inr (.inr (readLine_of_neither htrailer fun p hp => hphrase ⟨p, hp⟩)))

theorem readLine_eq_blank_iff : readLine line = .ok .blank ↔ Trailer line := by
  constructor
  · intro h
    obtain htrailer | ⟨p, hp, digits, hdigits, hlong⟩ | ⟨p, hp, hlong, hrange⟩ | ⟨e, he⟩ :=
      readLine_cases line
    · exact htrailer
    · rw [readLine_of_overlong hp hdigits hlong] at h
      cases h
    · rw [readLine_of_inRange hp hlong hrange] at h
      cases h
    · rw [he] at h
      cases h
  · exact readLine_of_trailer

theorem readLine_eq_command_iff {c : Command} :
    readLine line = .ok (.command c) ↔
      ∃ p : Phrase, p.OnLine line ∧ ¬ p.Overlong ∧ p.InRange ∧ p.command = c := by
  constructor
  · intro h
    obtain htrailer | ⟨p, hp, digits, hdigits, hlong⟩ | ⟨p, hp, hlong, hrange⟩ | ⟨e, he⟩ :=
      readLine_cases line
    · rw [readLine_of_trailer htrailer] at h
      cases h
    · rw [readLine_of_overlong hp hdigits hlong] at h
      cases h
    · rw [readLine_of_inRange hp hlong hrange] at h
      cases h
      exact ⟨p, hp, hlong, hrange, rfl⟩
    · rw [he] at h
      cases h
  · rintro ⟨p, hp, hlong, hrange, rfl⟩
    exact readLine_of_inRange hp hlong hrange

/-- Only an overlong numeral in a phrase keeps a line from being read. -/
theorem exists_readLine_eq_ok_iff :
    (∃ r, readLine line = .ok r) ↔ ∀ p : Phrase, p.OnLine line → ¬ p.Overlong := by
  constructor
  · rintro ⟨r, hr⟩ p hp ⟨digits, hdigits, hlong⟩
    rw [readLine_of_overlong hp hdigits hlong] at hr
    cases hr
  · intro h
    obtain htrailer | ⟨p, hp, hlong⟩ | ⟨p, hp, hlong, hrange⟩ | ⟨e, he⟩ := readLine_cases line
    · exact ⟨_, readLine_of_trailer htrailer⟩
    · exact absurd hlong (h p hp)
    · exact ⟨_, readLine_of_inRange hp hlong hrange⟩
    · exact ⟨_, he⟩

end Reading

/-! ## Short numerals -/

/-- No run of digits in a text is longer than a numeral that is evaluated. -/
def ShortRuns (text : List Char) : Prop :=
  ∀ digits, Numeral digits → digits <:+: text → digits.length ≤ numeralLimit

theorem shortRuns_of_length_le {text : List Char} (h : text.length ≤ numeralLimit) :
    ShortRuns text :=
  fun _ _ hinfix => Nat.le_trans hinfix.length_le h

theorem Grammar.Phrase.numeral_of_onLine {p : Phrase} {line digits : List Char}
    (h : p.OnLine line) (hdigits : p.numeral? = some digits) :
    Numeral digits ∧ digits <:+: line := by
  obtain ⟨gap, text, trail, rfl, -, hspelled, -⟩ := h
  cases hspelled with
  | @move d g gap₁ gap₂ _ _ _ hnumeral =>
    cases hdigits
    refine ⟨hnumeral, gap ++ d.name.toList ++ gap₁ ++ g.name.toList ++ gap₂, trail, ?_⟩
    simp
  | @routine v gap₁ name gap₂ _ _ _ _ _ hnumeral =>
    cases hdigits
    refine ⟨hnumeral, gap ++ v.name.toList ++ gap₁ ++ name ++ gap₂, trail, ?_⟩
    simp
  | _ => cases hdigits

theorem not_overlong_of_shortRuns {line : List Char} (h : ShortRuns line) {p : Phrase}
    (hp : p.OnLine line) : ¬ p.Overlong := by
  rintro ⟨digits, hdigits, hlong⟩
  obtain ⟨hnumeral, hinfix⟩ := Phrase.numeral_of_onLine hp hdigits
  exact Nat.not_le_of_lt hlong (h digits hnumeral hinfix)

/-- A line is a command exactly if a phrase in range is on it, and then it is the one command
that this phrase spells; it says nothing exactly if it is a trailer; and any other line is an
error. -/
theorem readLine_exact {line : List Char} (hruns : ShortRuns line) :
    (∀ c, readLine line = .ok (.command c) ↔
      ∃ p : Phrase, p.OnLine line ∧ p.InRange ∧ p.command = c) ∧
    (∀ p p' : Phrase, p.OnLine line → p'.OnLine line → p = p') ∧
    (readLine line = .ok .blank ↔ Trailer line) ∧
    ((∃ e, readLine line = .ok (.error e)) ↔
      ¬ Trailer line ∧ ∀ p : Phrase, p.OnLine line → ¬ p.InRange) := by
  refine ⟨fun c => ?_, fun p p' hp hp' => onLine_unique hp hp', readLine_eq_blank_iff, ?_⟩
  · rw [readLine_eq_command_iff]
    constructor
    · rintro ⟨p, hp, -, hrange, hc⟩
      exact ⟨p, hp, hrange, hc⟩
    · rintro ⟨p, hp, hrange, hc⟩
      exact ⟨p, hp, not_overlong_of_shortRuns hruns hp, hrange, hc⟩
  · constructor
    · rintro ⟨e, he⟩
      refine ⟨fun htrailer => ?_, fun p hp hrange => ?_⟩
      · rw [readLine_of_trailer htrailer] at he
        cases he
      · rw [readLine_of_inRange hp (not_overlong_of_shortRuns hruns hp) hrange] at he
        cases he
    · rintro ⟨htrailer, hrange⟩
      obtain h | ⟨p, hp, hlong⟩ | ⟨p, hp, -, h⟩ | h := readLine_cases line
      · exact absurd h htrailer
      · exact absurd hlong (not_overlong_of_shortRuns hruns hp)
      · exact absurd h (hrange p hp)
      · exact h

/-- A call with blanks in front of it, a tab in front of its count, and a comment right behind. -/
def callLine : List Char := "  call Main.f\t7// seven".toList

theorem readLine_exact_call :
    ShortRuns callLine ∧
    (∀ c, readLine callLine = .ok (.command c) ↔
      ∃ p : Phrase, p.OnLine callLine ∧ p.InRange ∧ p.command = c) ∧
    (∀ p p' : Phrase, p.OnLine callLine → p'.OnLine callLine → p = p') ∧
    (readLine callLine = .ok .blank ↔ Trailer callLine) ∧
    ((∃ e, readLine callLine = .ok (.error e)) ↔
      ¬ Trailer callLine ∧ ∀ p : Phrase, p.OnLine callLine → ¬ p.InRange) := by
  have hruns : ShortRuns callLine := shortRuns_of_length_le (by decide)
  exact ⟨hruns, readLine_exact hruns⟩

end VmToHack
