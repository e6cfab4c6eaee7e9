import Mathlib.Data.List.Induction
import VmToHack.Proofs.LineGrammar
set_option autoImplicit false

/-!
# Columns: what stands where in a line

A reading comes over blanks and words to a rest of its line, in a state that says what may come
next (`State.ReadsTo`).  Where it is stuck, the rest begins with something that is neither passed
nor a word that may come next; where it ends, the last word but the comment is the index.  What has
been read holds no slash, so it stands in front of the comment.

The last place of a word in a text is one behind which the word does not begin again
(`lastColumn_append_eq_iff`).  For an index that is to say that its digits do not stand in the
comment (`infix_tail_iff`).
-/

namespace VmToHack

open VmToHack.Grammar VmToHack.Text

namespace Grammar

/-! ## How far a line is read -/

/-- A word that may come next stands at the front of a text. -/
def State.Admits (s : State) (cs : List Char) : Prop :=
  ∃ t word rest next, cs = word ++ rest ∧ t.Spelled word ∧ t.EndsBefore rest ∧
    s.after? t word = some next

/-- Reading a text in a state comes to a rest of it in another state, over blanks and words. -/
inductive State.ReadsTo : State → List Char → State → List Char → Prop where
  | here {s : State} {gap rest : List Char} (hgap : Blanks gap) : ReadsTo s (gap ++ rest) s rest
  | word {s next s' : State} {gap word cs rest : List Char} {t : Terminal} (hgap : Blanks gap)
      (hword : t.Spelled word) (hends : t.EndsBefore cs) (hafter : s.after? t word = some next)
      (h : ReadsTo next cs s' rest) : ReadsTo s (gap ++ word ++ cs) s' rest

theorem slash_not_mem_blanks {gap : List Char} (h : Blanks gap) : '/' ∉ gap := fun hmem =>
  absurd (h _ hmem) (by decide)

/-- A symbol or an index consists of characters of symbols. -/
theorem Terminal.Spelled.isSymbolChar_of_mem {t : Terminal} {word : List Char} (h : t.Spelled word)
    (hw : t.keyword? = none) : ∀ c ∈ word, isSymbolChar c = true := by
  cases t with
  | symbol =>
    obtain ⟨hc, hcs⟩ := h
    exact List.forall_mem_cons.mpr ⟨by rw [isSymbolChar, hc, Bool.true_or], hcs⟩
  | index =>
    obtain ⟨hc, hcs⟩ := h
    exact List.forall_mem_cons.mpr ⟨by rw [isSymbolChar, hc, Bool.or_true],
      fun c hc => by rw [isSymbolChar, hcs c hc, Bool.or_true]⟩
  | _ => cases hw

theorem Terminal.Spelled.slash_not_mem {t : Terminal} {word : List Char} (h : t.Spelled word) :
    '/' ∉ word := by
  have hall : ∀ t ∈ keywords, ∀ w ∈ t.keyword?, '/' ∉ w.toList := by decide
  cases hw : t.keyword? with
  | some w =>
    rw [(spelled_of_keyword? hw word).mp h]
    exact hall t (mem_keywords hw) w hw
  | none => exact fun hmem => absurd (h.isSymbolChar_of_mem hw _ hmem) (by decide)

namespace State

theorem next?_eq_none_iff {s : State} {cs : List Char} : s.next? cs = none ↔ ¬ s.Admits cs := by
  rw [← Option.not_isSome_iff_eq_none, not_iff_not, Option.isSome_iff_exists]
  constructor
  · rintro ⟨⟨next, rest⟩, hnext⟩
    obtain ⟨t, word, hafter, htake⟩ := next?_eq_some_iff.mp hnext
    obtain ⟨happ, hword, hends⟩ := Terminal.take?_eq_some_iff.mp htake
    exact ⟨t, word, rest, next, happ.symm, hword, hends, hafter⟩
  · rintro ⟨t, word, rest, next, happ, hword, hends, hafter⟩
    exact ⟨(next, rest), next?_eq_some_iff.mpr ⟨t, word, hafter,
      Terminal.take?_eq_some_iff.mpr ⟨happ.symm, hword, hends⟩⟩⟩

theorem run_blanks {gap : List Char} (s : State) (hgap : Blanks gap) (cs : List Char) :
    s.run (gap ++ cs) = s.run cs := by
  rw [State.run, State.run.eq_1 s cs, hgap.skip]

theorem numeral?_of_after? {s : State} {digits : List Char} {p : Phrase}
    (h : s.after? .index digits = some (.complete p)) : p.numeral? = some digits := by
  cases s <;> cases h <;> rfl

section ReadsTo

variable {s s' : State} {cs rest : List Char}

/-- Where reading comes to, it goes on. -/
theorem ReadsTo.run_eq (h : s.ReadsTo cs s' rest) : s.run cs = s'.run rest := by
  induction h with
  | here hgap => exact run_blanks _ hgap _
  | word hgap hword hends hafter h ih => rw [run_word hgap hword hends hafter, ih]

/-- What has been read has no comment in it. -/
theorem ReadsTo.exists_front (h : s.ReadsTo cs s' rest) :
    ∃ front, cs = front ++ rest ∧ '/' ∉ front := by
  induction h with
  | @here s gap rest hgap => exact ⟨gap, rfl, slash_not_mem_blanks hgap⟩
  | @word s next s' gap word cs rest t hgap hword hends hafter h ih =>
    obtain ⟨front, rfl, hfront⟩ := ih
    refine ⟨gap ++ word ++ front, by simp, ?_⟩
    simp only [List.mem_append, not_or]
    exact ⟨⟨slash_not_mem_blanks hgap, hword.slash_not_mem⟩, hfront⟩

theorem skipBlanks_suffix (cs : List Char) : skipBlanks cs <:+ cs := by
  have hdrop : cs.dropWhile isBlank <:+ cs := List.dropWhile_suffix isBlank
  unfold skipBlanks
  split
  · next rest hcs =>
    rw [hcs] at hdrop
    have hrest : rest <:+ '/' :: '/' :: rest := List.suffix_append ['/', '/'] rest
    exact (List.dropWhile_suffix _).trans (hrest.trans hdrop)
  · exact hdrop

/-- A reading is stuck in front of the first text that is neither passed nor a word that may come
next. -/
theorem readsTo_of_run_stuck (hfeed : '\n' ∉ cs) (h : s.run cs = .stuck s' rest) :
    s.ReadsTo cs s' rest ∧ rest ≠ [] ∧ skipBlanks rest = rest ∧ ¬ s'.Admits rest := by
  induction hn : s.wants using Nat.strong_induction_on generalizing s cs with
  | _ n ih =>
    rw [State.run] at h
    split at h
    · cases h
    · next c cs' hskip =>
      have hc : c ≠ '\n' := by
        rintro rfl
        refine hfeed ((skipBlanks_suffix cs).subset ?_)
        rw [hskip]
        exact List.mem_cons_self
      obtain ⟨gap, hgap, rfl⟩ := exists_blanks_of_skipBlanks hskip hc
      split at h
      · next next rest' hnext =>
        obtain ⟨t, word, hafter, htake⟩ := next?_eq_some_iff.mp hnext
        obtain ⟨happ, hword, hends⟩ := Terminal.take?_eq_some_iff.mp htake
        have hlt := wants_lt_of_after? hafter
        rw [hn] at hlt
        rw [← happ] at hfeed ⊢
        obtain ⟨hreads, hrest⟩ := ih _ hlt (fun hmem => hfeed (by simp [hmem])) h rfl
        refine ⟨?_, hrest⟩
        rw [← List.append_assoc]
        exact .word hgap hword hends hafter hreads
      · next hnone =>
        cases h
        refine ⟨.here hgap, List.cons_ne_nil _ _, ?_, next?_eq_none_iff.mp hnone⟩
        rw [hgap.skip] at hskip
        exact hskip

end ReadsTo

end State

/-- The index of a phrase is the word to which reading the line comes last. -/
theorem Phrase.OnLine.readsTo {p : Phrase} {line digits : List Char} (h : p.OnLine line)
    (hdigits : p.numeral? = some digits) :
    ∃ s trail, State.start.ReadsTo line s (digits ++ trail) ∧ Numeral digits ∧ Trailer trail ∧
      s.after? .index digits = some (.complete p) := by
  obtain ⟨gap, text, trail, rfl, hgap, hspelled, htrailer⟩ := h
  cases hspelled with
  | @move d g gap₁ gap₂ digits' hgap₁ hgap₂ hnumeral =>
    cases hdigits
    refine ⟨.indexing d g, trail, ?_, hnumeral, htrailer, rfl⟩
    have hread : State.start.ReadsTo
        (gap ++ d.name.toList ++ (gap₁ ++ g.name.toList ++ (gap₂ ++ (digits ++ trail))))
        (.indexing d g) (digits ++ trail) :=
      .word (t := .move d) hgap rfl trivial rfl
        (.word (t := .segment g) hgap₁ rfl trivial rfl (.here hgap₂))
    simpa using hread
  | @routine v gap₁ name gap₂ digits' hgap₁ hname hgap₂ hne hnumeral =>
    cases hdigits
    refine ⟨.counting v name, trail, ?_, hnumeral, htrailer, rfl⟩
    have hends : Terminal.symbol.EndsBefore (gap₂ ++ (digits ++ trail)) := by
      rw [← List.append_assoc]
      exact (State.endsBefore_symbol_iff hgap₂ hnumeral).mpr hne
    have hread : State.start.ReadsTo
        (gap ++ v.name.toList ++ (gap₁ ++ name ++ (gap₂ ++ (digits ++ trail))))
        (.counting v name) (digits ++ trail) :=
      .word (t := .routine v) hgap rfl trivial rfl
        (.word (t := .symbol) hgap₁ hname hends rfl (.here hgap₂))
    simpa using hread
  | _ => cases hdigits

end Grammar

/-! ## Columns -/

theorem restColumn_append (front rest : List Char) :
    restColumn (front ++ rest) rest = front.length + 1 := by
  rw [restColumn, List.length_append, Nat.add_sub_cancel]

/-- The comment of a line, with its two slashes, or nothing. -/
def comment (line : List Char) : List Char := line.drop (beforeComment line).length

theorem beforeComment_append {front : List Char} (h : '/' ∉ front) (rest : List Char) :
    beforeComment (front ++ rest) = front ++ beforeComment rest := by
  induction front with
  | nil => rfl
  | cons c front ih =>
    rw [List.mem_cons, not_or] at h
    obtain ⟨hc, hfront⟩ := h
    rw [List.cons_append, beforeComment, ih hfront, List.cons_append]
    rintro words rfl
    exact absurd rfl hc

theorem comment_append {front : List Char} (h : '/' ∉ front) (rest : List Char) :
    comment (front ++ rest) = comment rest := by
  rw [comment, beforeComment_append h, List.length_append, List.drop_append]
  simp [comment]

/-- Where no comment begins, it begins further on or not at all. -/
theorem comment_cons {c : Char} {cs : List Char}
    (hc : ∀ words, c = '/' → cs = '/' :: words → False) : comment (c :: cs) = comment cs := by
  rw [comment, beforeComment.eq_3 c cs hc, List.length_cons, List.drop_succ_cons]
  rfl

theorem beforeComment_append_comment (line : List Char) :
    beforeComment line ++ comment line = line := by
  induction line using beforeComment.induct with
  | case1 => rfl
  | case2 words => rfl
  | case3 c cs hc ih =>
    rw [comment_cons hc, beforeComment.eq_3 c cs hc, List.cons_append, ih]

theorem exists_comment_of_ne_nil {line : List Char} (h : comment line ≠ []) :
    ∃ words, comment line = '/' :: '/' :: words := by
  induction line using beforeComment.induct with
  | case1 => exact absurd rfl h
  | case2 words => exact ⟨words, rfl⟩
  | case3 c cs hc ih =>
    rw [comment_cons hc] at h ⊢
    exact ih h

theorem trailer_comment {line : List Char} (hfeed : '\n' ∉ line) : Trailer (comment line) := by
  induction line using beforeComment.induct with
  | case1 => exact .blanks blanks_nil
  | case2 words => exact .comment blanks_nil fun hmem => hfeed (by simp [hmem])
  | case3 c cs hc ih =>
    rw [comment_cons hc]
    exact ih fun hmem => hfeed (List.mem_cons_of_mem c hmem)

theorem Grammar.Trailer.blanks_beforeComment {trail : List Char} (h : Trailer trail) :
    Blanks (beforeComment trail) := by
  cases h with
  | blanks hgap =>
    rw [← List.append_nil trail, beforeComment_append (slash_not_mem_blanks hgap)]
    exact List.forall_mem_append.mpr ⟨hgap, blanks_nil⟩
  | comment hgap =>
    rw [beforeComment_append (slash_not_mem_blanks hgap)]
    exact List.forall_mem_append.mpr ⟨hgap, blanks_nil⟩

/-- What is not passed stands in front of the comment. -/
theorem beforeComment_ne_nil {rest : List Char} (hne : rest ≠ []) (hskip : skipBlanks rest = rest) :
    beforeComment rest ≠ [] := by
  unfold beforeComment
  split
  · exact absurd rfl hne
  · next words =>
    have hshort : (words.dropWhile (· ≠ '\n')).length ≤ words.length :=
      (List.dropWhile_suffix _).length_le
    have hlength : (words.dropWhile (· ≠ '\n')).length = words.length + 2 :=
      congrArg List.length hskip
    omega
  · exact List.cons_ne_nil _ _

section LastColumn

variable {word : List Char} (hne : word ≠ [])

include hne

theorem lastColumn_eq_zero_iff {text : List Char} :
    lastColumn word text = 0 ↔ ¬ word <:+: text := by
  induction text with
  | nil => simp [lastColumn, hne]
  | cons c cs ih =>
    rw [lastColumn, List.infix_cons_iff]
    split
    · next hzero =>
      have hcs := ih.mp hzero
      simp [hcs]
    · next column hcolumn =>
      have hcs : word <:+: cs := not_not.mp fun hnot => hcolumn (ih.mpr hnot)
      simp [hcs]

/-- A place of a word is the last one if the word does not begin behind it again. -/
theorem lastColumn_append_eq_iff {front rest : List Char} :
    lastColumn word (front ++ rest) = front.length + 1 ↔
      word <+: rest ∧ ¬ word <:+: rest.tail := by
  induction front with
  | nil =>
    cases rest with
    | nil => simp [lastColumn, hne]
    | cons c rest =>
      rw [List.nil_append, lastColumn, ← lastColumn_eq_zero_iff hne, List.tail_cons]
      split
      · next hzero => simp [hzero]
      · next column hcolumn => exact iff_of_false (by simpa using hcolumn) fun h => hcolumn h.2
  | cons c front ih =>
    rw [List.cons_append, lastColumn, List.length_cons, ← ih]
    split
    · next hzero =>
      rw [hzero]
      split <;> omega
    · omega

end LastColumn

/-! ## Numerals -/

theorem le_numeralValue_append (digits more : List Char) :
    numeralValue digits ≤ numeralValue (digits ++ more) := by
  induction more using List.reverseRecOn with
  | nil => rw [List.append_nil]
  | append_singleton more c ih =>
    rw [← List.append_assoc, numeralValue_concat]
    omega

/-- More digits make a greater number. -/
theorem eq_of_isPrefix_of_numeralValue {digits digits' : List Char} (h : digits <+: digits')
    (hvalue : numeralValue digits = numeralValue digits') (hpos : 0 < numeralValue digits) :
    digits = digits' := by
  obtain ⟨more, rfl⟩ := h
  rcases List.eq_nil_or_concat more with rfl | ⟨more, c, rfl⟩
  · rw [List.append_nil]
  · have hle := le_numeralValue_append digits more
    rw [List.concat_eq_append, ← List.append_assoc, numeralValue_concat] at hvalue
    omega

/-- A numeral at the front of a text ends where the digits end. -/
theorem isPrefix_of_isPrefix_append {digits word trail : List Char} (hword : Numeral word)
    (hends : Terminal.index.EndsBefore trail) (h : word <+: digits ++ trail) : word <+: digits := by
  rcases List.prefix_or_prefix_of_prefix h (List.prefix_append digits trail) with hp | hp
  · exact hp
  · obtain ⟨more, rfl⟩ := hp
    rw [List.prefix_append_right_inj] at h
    cases more with
    | nil => simp
    | cons c more =>
      obtain ⟨rest, rfl⟩ := h
      have hdigit := hword.isDigit_of_mem (List.mem_append_right digits List.mem_cons_self)
      rw [hends c rfl] at hdigit
      cases hdigit

/-- A word stands on one side of a character that it does not hold. -/
theorem infix_append_cons {word front rest : List Char} {x : Char} (hx : x ∉ word)
    (h : word <:+: front ++ x :: rest) : word <:+: front ∨ word <:+: rest := by
  obtain ⟨before, after, h⟩ := h
  rw [List.append_eq_append_iff] at h
  obtain ⟨middle, hfront, -⟩ | ⟨middle, hleft, hright⟩ := h
  · exact .inl ⟨before, middle, hfront.symm⟩
  · cases middle with
    | nil => exact .inl ⟨before, [], by simpa using hleft⟩
    | cons y middle =>
      obtain ⟨rfl, hrest⟩ := List.cons.inj hright
      rw [List.append_eq_append_iff] at hleft
      obtain ⟨middle', -, hword⟩ | ⟨middle', -, hword⟩ := hleft
      · rw [hword] at hx
        exact absurd (List.mem_append_right _ List.mem_cons_self) hx
      · cases middle' with
        | nil =>
          rw [List.nil_append] at hword
          rw [← hword] at hx
          exact absurd List.mem_cons_self hx
        | cons z middle' =>
          obtain ⟨-, hword⟩ := List.cons.inj hword
          exact .inr ⟨middle', after, by rw [hrest, hword]; rfl⟩

/-- A numeral begins again behind its own beginning only in the comment. -/
theorem infix_tail_iff {digits trail : List Char} (hdigits : Numeral digits)
    (htrailer : Trailer trail) :
    digits <:+: (digits ++ trail).tail ↔ digits <:+: comment trail := by
  obtain ⟨c, cs, rfl⟩ : ∃ c cs, digits = c :: cs := by
    obtain ⟨-, -⟩ := hdigits
    exact ⟨_, _, rfl⟩
  rw [List.cons_append, List.tail_cons]
  have hshort : ¬ c :: cs <:+: cs := fun h => Nat.not_succ_le_self _ h.length_le
  have hblank : ∀ x, isBlank x = true → x ∉ c :: cs := by
    intro x hx hmem
    have hdigit := hdigits.isDigit_of_mem hmem
    rcases isBlank_iff.mp hx with rfl | rfl <;> exact absurd hdigit (by decide)
  have hgaps : ∀ gap, Blanks gap → ¬ c :: cs <:+: cs ++ gap := by
    intro gap hgap h
    cases gap with
    | nil => exact hshort (by rwa [List.append_nil] at h)
    | cons x gap =>
      obtain ⟨hx, hgap⟩ := List.forall_mem_cons.mp hgap
      rcases infix_append_cons (hblank x hx) h with h | h
      · exact hshort h
      · exact hblank c (hgap c (h.subset List.mem_cons_self)) List.mem_cons_self
  constructor
  · intro h
    cases htrailer with
    | blanks hgap => exact absurd h (hgaps _ hgap)
    | @comment gap words hgap hwords =>
      have hslash : '/' ∉ c :: cs := Terminal.Spelled.slash_not_mem (t := .index) hdigits
      rw [← List.append_assoc] at h
      rcases infix_append_cons hslash h with h | h
      · exact absurd h (hgaps gap hgap)
      · rw [comment_append (slash_not_mem_blanks hgap)]
        exact h.trans (List.suffix_cons '/' ('/' :: words)).isInfix
  · intro h
    exact h.trans ((List.drop_suffix _ trail).trans (List.suffix_append cs trail)).isInfix

end VmToHack
