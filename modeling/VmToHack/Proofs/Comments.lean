import VmToHack.Proofs.ClosedOutput
import VmToHack.Proofs.LineEnds
set_option autoImplicit false

/-!
# Comments: texts that differ in nothing else

What a line says is said in front of its comment: two lines that begin alike up to there are both
blank, or the same command, or both errors (`readLine_alike`).  A text whose comments are put in
other words, or taken away, is therefore translated to the same code, and its issues are of the same
kinds.

Their lines are numbered as before, but for one thing.  A line that is nothing but a comment is
empty when the comment is taken away, and if it stood between a carriage return and a line feed,
these are then one end of a line.  Each such place (`seams`) lowers the numbers of the lines behind
it by one.
-/

namespace VmToHack

open VmToHack.Grammar VmToHack.Text

/-! ## What stands in front of a comment -/

/-- Results of lines that say the same, or are malformed both. -/
inductive SaysAlike : Except OverlongNumeral Reading → Except OverlongNumeral Reading → Prop where
  | overlong (o : OverlongNumeral) : SaysAlike (.error o) (.error o)
  | blank : SaysAlike (.ok .blank) (.ok .blank)
  | command (c : Command) : SaysAlike (.ok (.command c)) (.ok (.command c))
  | error (e e' : LineError) : SaysAlike (.ok (.error e)) (.ok (.error e'))

theorem SaysAlike.eq_blank {result : Except OverlongNumeral Reading}
    (h : SaysAlike result (.ok .blank)) : result = .ok .blank := by
  cases h
  rfl

namespace Grammar

theorem Phrase.Spelled.slash_not_mem {p : Phrase} {text : List Char} (h : p.Spelled text) :
    '/' ∉ text := by
  cases h with
  | operator o => exact Terminal.Spelled.slash_not_mem (t := .operator o) rfl
  | move d g hgap hgap' hdigits =>
    simp only [List.mem_append, not_or]
    exact ⟨⟨⟨⟨Terminal.Spelled.slash_not_mem (t := .move d) rfl, slash_not_mem_blanks hgap⟩,
      Terminal.Spelled.slash_not_mem (t := .segment g) rfl⟩, slash_not_mem_blanks hgap'⟩,
      Terminal.Spelled.slash_not_mem (t := .index) hdigits⟩
  | mark v hgap hname =>
    simp only [List.mem_append, not_or]
    exact ⟨⟨Terminal.Spelled.slash_not_mem (t := .mark v) rfl, slash_not_mem_blanks hgap⟩,
      Terminal.Spelled.slash_not_mem (t := .symbol) hname⟩
  | routine v hgap hname hgap' hne hdigits =>
    simp only [List.mem_append, not_or]
    exact ⟨⟨⟨⟨Terminal.Spelled.slash_not_mem (t := .routine v) rfl, slash_not_mem_blanks hgap⟩,
      Terminal.Spelled.slash_not_mem (t := .symbol) hname⟩, slash_not_mem_blanks hgap'⟩,
      Terminal.Spelled.slash_not_mem (t := .index) hdigits⟩
  | ret => exact Terminal.Spelled.slash_not_mem (t := .ret) rfl

theorem Trailer.behind_blanks {gap trail : List Char} (hgap : Blanks gap) (h : Trailer trail) :
    Trailer (gap ++ trail) := by
  cases h with
  | blanks hgap' => exact .blanks (List.forall_mem_append.mpr ⟨hgap, hgap'⟩)
  | comment hgap' hwords =>
    rw [← List.append_assoc]
    exact .comment (List.forall_mem_append.mpr ⟨hgap, hgap'⟩) hwords

section SameFront

variable {line line' : List Char} (hfeed : '\n' ∉ line') (h : beforeComment line = beforeComment line')

include hfeed h

theorem Trailer.of_beforeComment_eq (htrailer : Trailer line) : Trailer line' := by
  have hgap : Blanks (beforeComment line') := h ▸ htrailer.blanks_beforeComment
  rw [← beforeComment_append_comment line']
  exact (trailer_comment hfeed).behind_blanks hgap

/-- A phrase stands in front of the comment. -/
theorem Phrase.OnLine.of_beforeComment_eq {p : Phrase} (hp : p.OnLine line) : p.OnLine line' := by
  obtain ⟨gap, text, trail, rfl, hgap, hspelled, htrail⟩ := hp
  have hslash : '/' ∉ gap ++ text := by
    simp only [List.mem_append, not_or]
    exact ⟨slash_not_mem_blanks hgap, hspelled.slash_not_mem⟩
  rw [beforeComment_append hslash] at h
  refine ⟨gap, text, beforeComment trail ++ comment line', ?_, hgap, hspelled, ?_⟩
  · rw [← List.append_assoc, h, beforeComment_append_comment]
  · exact (trailer_comment hfeed).behind_blanks htrail.blanks_beforeComment

end SameFront

end Grammar

/-- Lines that are the same in front of their comments say the same, or are malformed both. -/
theorem readLine_alike {line line' : List Char} (hfeed : '\n' ∉ line) (hfeed' : '\n' ∉ line')
    (h : beforeComment line = beforeComment line') : SaysAlike (readLine line) (readLine line') := by
  obtain htrailer | ⟨p, hp, digits, hdigits, hlong⟩ | ⟨p, hp, hlong, hrange⟩ | ⟨e, he⟩ :=
    readLine_cases line
  · rw [readLine_of_trailer htrailer, readLine_of_trailer (htrailer.of_beforeComment_eq hfeed' h)]
    exact .blank
  · rw [readLine_of_overlong hp hdigits hlong,
      readLine_of_overlong (hp.of_beforeComment_eq hfeed' h) hdigits hlong]
    exact .overlong _
  · rw [readLine_of_inRange hp hlong hrange,
      readLine_of_inRange (hp.of_beforeComment_eq hfeed' h) hlong hrange]
    exact .command _
  -- a line that is no error would make none of the other one
  · obtain htrailer | ⟨p, hp, digits, hdigits, hlong⟩ | ⟨p, hp, hlong, hrange⟩ | ⟨e', he'⟩ :=
      readLine_cases line'
    · rw [readLine_of_trailer (htrailer.of_beforeComment_eq hfeed h.symm)] at he
      cases he
    · rw [readLine_of_overlong (hp.of_beforeComment_eq hfeed h.symm) hdigits hlong] at he
      cases he
    · rw [readLine_of_inRange (hp.of_beforeComment_eq hfeed h.symm) hlong hrange] at he
      cases he
    · rw [he, he']
      exact .error e e'

/-! ## Passes over lines that say the same -/

/-- Passes that end early for one reason, or add up as many commands, with issues that correspond
one to one. -/
inductive SameOutcome (same : Issue → Issue → Prop) : Except Abort Tally → Except Abort Tally → Prop
    where
  | aborted (a : Abort) : SameOutcome same (.error a) (.error a)
  | done {count : Nat} {issues issues' : List Issue} (h : List.Forall₂ same issues issues') :
    SameOutcome same (.ok ⟨count, issues⟩) (.ok ⟨count, issues'⟩)

/-- Lines that say what other lines say, in order, but that some blank lines may be missing among
the other ones.  The numbers of lines that correspond are related. -/
inductive Retold (related : Nat → Nat → Prop) : List SourceLine → List SourceLine → Prop where
  | nil : Retold related [] []
  | silent {line : SourceLine} {lines lines' : List SourceLine}
      (hblank : readLine line.text = .ok .blank) (h : Retold related lines lines') :
    Retold related (line :: lines) lines'
  | told {line line' : SourceLine} {lines lines' : List SourceLine}
      (hnumber : related line.number line'.number)
      (halike : SaysAlike (readLine line.text) (readLine line'.text))
      (h : Retold related lines lines') : Retold related (line :: lines) (line' :: lines')

section SameOutcome

variable {same : Issue → Issue → Prop} {result result' : Except Abort Tally}

theorem SameOutcome.count (h : SameOutcome same result result') :
    SameOutcome same (result.map Tally.count) (result'.map Tally.count) := by
  cases h with
  | aborted a => exact .aborted a
  | done h => exact .done h

theorem SameOutcome.consIssue (h : SameOutcome same result result') {i i' : Issue}
    (hi : same i i') :
    SameOutcome same (result.map (Tally.consIssue i)) (result'.map (Tally.consIssue i')) := by
  cases h with
  | aborted a => exact .aborted a
  | done h => exact .done (.cons hi h)

theorem SameOutcome.imp {same' : Issue → Issue → Prop} (h : SameOutcome same result result')
    (himp : ∀ i i', same i i' → same' i i') : SameOutcome same' result result' := by
  cases h with
  | aborted a => exact .aborted a
  | done h => exact .done (h.imp fun {i i'} => himp i i')

end SameOutcome

section Retold

variable {related : Nat → Nat → Prop} {lines lines' : List SourceLine}

/-- Where a blank line says the same, nothing is said. -/
theorem Retold.drop_blank {line' : SourceLine} (h : Retold related lines (line' :: lines'))
    (hblank : readLine line'.text = .ok .blank) : Retold related lines lines' := by
  generalize hright : line' :: lines' = right at h
  induction h with
  | nil => cases hright
  | silent hline _ ih => exact .silent hline (ih hright)
  | told _ halike hlines _ =>
    cases hright
    rw [hblank] at halike
    exact .silent halike.eq_blank hlines

theorem Retold.down {related' : Nat → Nat → Prop} {count count' : Nat}
    (h : Retold related lines lines')
    (hnumbers : ∀ n n', related n n' → related' (n + count) (n' + count')) :
    Retold related' (lines.map (SourceLine.down count)) (lines'.map (SourceLine.down count')) := by
  induction h with
  | nil => exact .nil
  | silent hblank _ ih => exact .silent hblank ih
  | told hnumber halike _ ih => exact .told (hnumbers _ _ hnumber) halike ih

/-- What is told again is translated to the same, with issues of the same kinds at lines that
correspond. -/
theorem translateLines_retold (h : Retold related lines lines') (file : String) (w : Writer) :
    (translateLines file w lines').1 = (translateLines file w lines).1 ∧
      SameOutcome
        (fun i i' => i.kind = i'.kind ∧ ∃ n n' : Nat, i.line = n ∧ i'.line = n' ∧ related n n')
        (translateLines file w lines).2 (translateLines file w lines').2 := by
  induction h generalizing w with
  | nil => exact ⟨rfl, .done .nil⟩
  | silent hblank _ ih =>
    rw [translateLines, hblank]
    exact ih w
  | @told line line' lines lines' hnumber halike _ ih =>
    generalize hread : readLine line.text = reading at halike
    generalize hread' : readLine line'.text = reading' at halike
    cases halike with
    | overlong o =>
      rw [translateLines, translateLines, hread, hread']
      exact ⟨rfl, .aborted _⟩
    | blank =>
      rw [translateLines, translateLines, hread, hread']
      exact ih w
    | error e e' =>
      obtain ⟨hwriter, hresult⟩ := ih w
      rw [translateLines, translateLines, hread, hread']
      exact ⟨hwriter, hresult.consIssue ⟨rfl, _, _, rfl, rfl, hnumber⟩⟩
    | command c =>
      obtain ⟨hwriter, hresult⟩ := ih (w.write c).1
      rw [translateLines_command hread, translateLines_command hread']
      cases (w.write c).2 with
      | none => exact ⟨hwriter, hresult.count⟩
      | some fault =>
        cases fault with
        | closed => exact ⟨rfl, .aborted _⟩
        | refused r => exact ⟨hwriter, hresult.consIssue ⟨rfl, _, _, rfl, rfl, hnumber⟩⟩

end Retold

/-! ## Lines written one behind the other -/

/-- Lines that say what the lines of a text say, written one behind the other, tell this text
again. -/
theorem retold_joinLines {lines lines' : List EndedLine} (hended : WellEnded lines')
    (h : List.Forall₂ (fun l l' => SaysAlike (readLine l.text) (readLine l'.text)) lines lines') :
    Retold (Renumbered lines') (numbered 1 (lines.map EndedLine.text))
      (numberedLines (joinLines lines')) := by
  have hempty : readLine [] = .ok .blank := readLine_of_trailer (.blanks blanks_nil)
  induction hended generalizing lines with
  | nil =>
    cases h
    exact .nil
  | @last text htext =>
    obtain ⟨line, lines, halike, hlines, rfl⟩ := List.forall₂_cons_right_iff.mp h
    cases hlines
    cases text with
    | nil =>
      rw [hempty] at halike
      exact .silent halike.eq_blank .nil
    | cons c cs =>
      have hjoin : joinLines [⟨c :: cs, []⟩] = c :: cs := by simp [joinLines]
      rw [hjoin, numberedLines, splitLines_of_unbroken (List.cons_ne_nil c cs) htext]
      exact .told (renumbered_one _ _) halike .nil
  | @cons text ending lines' htext hending hended ih =>
    obtain ⟨line, lines, halike, hlines, rfl⟩ := List.forall₂_cons_right_iff.mp h
    rw [List.map_cons, numbered_one_cons]
    by_cases hapart : ∀ next ∈ lines'.head?, ¬ EndedLine.Joins ⟨text, ending⟩ next
    · rw [numberedLines_of_splitLines (splitLines_of_apart htext hending hended hapart)]
      exact .told (renumbered_one _ _) halike
        ((ih hlines).down fun n n' hnumbers => hnumbers.behind_apart hapart)
    · push Not at hapart
      obtain ⟨next, hnext, hjoins⟩ := hapart
      obtain ⟨lines', rfl⟩ := List.head?_eq_some_iff.mp hnext
      -- alone, the second of the two lines would be an empty one
      have halone : numberedLines (joinLines (next :: lines')) =
          ⟨1, []⟩ :: (numberedLines (joinLines lines')).map (SourceLine.down 1) := by
        rw [hjoins.2]
        exact numberedLines_of_splitLines rfl
      have hretold := ih hlines
      rw [halone] at hretold
      have hstill : ∀ lines : List SourceLine, lines.map (SourceLine.down 0) = lines :=
        fun lines => List.map_id lines
      rw [numberedLines_of_splitLines (splitLines_of_joins htext hjoins),
        ← hstill (List.map _ (numberedLines _))]
      exact .told (renumbered_one _ _) halike ((hretold.drop_blank hempty).down
        fun n n' hnumbers => hnumbers.behind_joined hjoins)

/-! ## Edits of comments -/

/-- What is done to the comment of a line. -/
inductive CommentEdit where
  | keep
  | delete
  /-- Other words behind the two slashes. -/
  | rewrite (words : List Char) (unbroken : ∀ c ∈ words, isLineBreak c = false)

/-- A line after the edit.  A line without a comment is as it was. -/
def CommentEdit.apply (edit : CommentEdit) (line : List Char) : List Char :=
  match edit with
  | .keep => line
  | .delete => beforeComment line
  | .rewrite words _ =>
    if comment line = [] then line else beforeComment line ++ '/' :: '/' :: words

/-- Lines after an edit for each of them, by their numbers. -/
def editLines (edit : Nat → CommentEdit) (lines : List EndedLine) : List EndedLine :=
  lines.mapIdx fun i line => { line with text := (edit (i + 1)).apply line.text }

/-- A text after an edit of the comment of each line. -/
def editComments (edit : Nat → CommentEdit) (text : List Char) : List Char :=
  joinLines (editLines edit (endedLines text))

/-- Another comment, or none, begins where the old one began. -/
theorem beforeComment_beforeComment_append {line tail : List Char}
    (h : tail = [] ∨ comment line ≠ [] ∧ ∃ words, tail = '/' :: '/' :: words) :
    beforeComment (beforeComment line ++ tail) = beforeComment line := by
  induction line using beforeComment.induct with
  | case1 =>
    obtain rfl | ⟨hcomment, -⟩ := h
    · rfl
    · exact absurd rfl hcomment
  | case2 words => obtain rfl | ⟨-, words', rfl⟩ := h <;> rfl
  | case3 c cs hc ih =>
    rw [comment_cons hc] at h
    -- a slash in front of the comment would begin it
    have hfirst : ∀ words, c = '/' → beforeComment cs ++ tail = '/' :: words → False := by
      intro words hslash hwords
      cases hfront : beforeComment cs with
      | nil =>
        rw [hfront, List.nil_append] at hwords
        obtain rfl | ⟨hne, -⟩ := h
        · cases hwords
        · obtain ⟨words', hwords'⟩ := exists_comment_of_ne_nil hne
          refine hc ('/' :: words') hslash ?_
          rw [← beforeComment_append_comment cs, hfront, hwords']
          rfl
      | cons x xs =>
        rw [hfront] at hwords
        cases hwords
        refine hc (xs ++ comment cs) hslash ?_
        rw [← List.cons_append, ← hfront, beforeComment_append_comment]
    rw [beforeComment.eq_3 c cs hc, List.cons_append, beforeComment.eq_3 c _ hfirst, ih h]

namespace CommentEdit

theorem beforeComment_apply (edit : CommentEdit) (line : List Char) :
    beforeComment (edit.apply line) = beforeComment line := by
  cases edit with
  | keep => rfl
  | delete =>
    rw [apply, ← List.append_nil (beforeComment line)]
    rw [beforeComment_beforeComment_append (.inl rfl), List.append_nil]
  | rewrite words unbroken =>
    rw [apply]
    split
    · rfl
    · next hcomment => exact beforeComment_beforeComment_append (.inr ⟨hcomment, words, rfl⟩)

theorem not_isLineBreak_apply (edit : CommentEdit) {line : List Char}
    (h : ∀ c ∈ line, isLineBreak c = false) : ∀ c ∈ edit.apply line, isLineBreak c = false := by
  have hfront : ∀ c ∈ beforeComment line, isLineBreak c = false := by
    rw [← beforeComment_append_comment line] at h
    exact (List.forall_mem_append.mp h).1
  cases edit with
  | keep => exact h
  | delete => exact hfront
  | rewrite words unbroken =>
    rw [apply]
    split
    · exact h
    · exact List.forall_mem_append.mpr
        ⟨hfront, List.forall_mem_cons.mpr ⟨rfl, List.forall_mem_cons.mpr ⟨rfl, unbroken⟩⟩⟩

theorem alike_apply (edit : CommentEdit) {line : List Char}
    (h : ∀ c ∈ line, isLineBreak c = false) :
    SaysAlike (readLine line) (readLine (edit.apply line)) := by
  exact readLine_alike (feed_not_mem_of_unbroken h)
    (feed_not_mem_of_unbroken (edit.not_isLineBreak_apply h)) (edit.beforeComment_apply line).symm

/-- Only a comment that is taken away leaves an empty line. -/
theorem eq_nil_of_apply_eq_nil {edit : CommentEdit} (hedit : edit ≠ .delete) {line : List Char}
    (h : edit.apply line = []) : line = [] := by
  cases edit with
  | keep => exact h
  | delete => exact absurd rfl hedit
  | rewrite words unbroken =>
    rw [apply] at h
    split at h
    · exact h
    · cases List.append_eq_nil_iff.mp h |>.2

end CommentEdit

theorem editLines_cons (edit : Nat → CommentEdit) (line : EndedLine) (lines : List EndedLine) :
    editLines edit (line :: lines) =
      { line with text := (edit 1).apply line.text } ::
        editLines (fun n => edit (n + 1)) lines := List.mapIdx_cons

theorem WellEnded.edited {lines : List EndedLine} (h : WellEnded lines)
    (edit : Nat → CommentEdit) : WellEnded (editLines edit lines) := by
  induction h generalizing edit with
  | nil => exact .nil
  | last htext => exact .last ((edit 1).not_isLineBreak_apply htext)
  | cons htext hending _ ih =>
    rw [editLines_cons]
    exact .cons ((edit 1).not_isLineBreak_apply htext) hending (ih _)

theorem alike_editLines {lines : List EndedLine} (h : WellEnded lines) (edit : Nat → CommentEdit) :
    List.Forall₂ (fun l l' => SaysAlike (readLine l.text) (readLine l'.text)) lines
      (editLines edit lines) := by
  induction h generalizing edit with
  | nil => exact .nil
  | last htext => exact .cons ((edit 1).alike_apply htext) .nil
  | cons htext _ _ ih =>
    rw [editLines_cons]
    exact .cons ((edit 1).alike_apply htext) (ih _)

/-! ## Edits that join no lines -/

theorem seams_editLines_of_no_return {lines : List EndedLine} (h : '\r' ∉ joinLines lines)
    (edit : Nat → CommentEdit) : seams (editLines edit lines) = 0 := by
  induction lines generalizing edit with
  | nil => rfl
  | cons line lines ih =>
    simp only [joinLines_cons, List.mem_append, not_or] at h
    obtain ⟨-, hending, hlines⟩ := h
    rw [editLines_cons, seams_cons_of_apart, ih hlines]
    rintro next - ⟨hreturn, -⟩
    exact hending (hreturn ▸ List.mem_singleton_self _)

theorem seams_editLines_of_no_delete {lines : List EndedLine} (h : seams lines = 0)
    {edit : Nat → CommentEdit} (hedit : ∀ n, edit n ≠ .delete) :
    seams (editLines edit lines) = 0 := by
  induction lines generalizing edit with
  | nil => rfl
  | cons line lines ih =>
    cases lines with
    | nil => rfl
    | cons next lines =>
      rw [seams, Nat.add_eq_zero_iff] at h
      obtain ⟨hseam, hlines⟩ := h
      rw [editLines_cons, seams_cons_of_apart, ih hlines fun n => hedit (n + 1)]
      rw [editLines_cons]
      rintro _ ⟨⟩ ⟨hreturn, hnext⟩
      obtain ⟨htext, hfeed⟩ := EndedLine.mk.inj hnext
      have hempty : next.text = [] := CommentEdit.eq_nil_of_apply_eq_nil (hedit 2) htext
      have hjoins : line.Joins next := ⟨hreturn, by rw [← hfeed, ← hempty]⟩
      rw [if_pos hjoins] at hseam
      cases hseam

/-- Whatever is done to the comments of a text, it is translated to the same output, or the
translation ends early for the same reason; and the issues are of the same kinds at the same lines,
but that each seam in front of a line lowers its number by one.  There are no seams unless a
comment is taken away from a text with carriage returns. -/
theorem comments_leave_translation (text : List Char) (file : String) (output : Output)
    (edit : Nat → CommentEdit) :
    (translateSource (editComments edit text) file output).1 =
        (translateSource text file output).1 ∧
      SameOutcome
        (fun i i' => i.kind = i'.kind ∧
          i.line = i'.line + seams ((editLines edit (endedLines text)).take i.line.toNat))
        (translateSource text file output).2
        (translateSource (editComments edit text) file output).2 ∧
      ('\r' ∉ text ∨ (∀ n, edit n ≠ .delete) →
        SameOutcome (fun i i' => i.kind = i'.kind ∧ i.line = i'.line)
          (translateSource text file output).2
          (translateSource (editComments edit text) file output).2) := by
  have hended := wellEnded_endedLines text
  have hretold := retold_joinLines (hended.edited edit) (alike_editLines hended edit)
  rw [map_text_endedLines] at hretold
  obtain ⟨hwriter, hresult⟩ :=
    translateLines_retold hretold file ⟨{ unit := unitLabel file }, output⟩
  rw [translateSource_eq, translateSource_eq]
  refine ⟨hwriter, ?_, fun hnone => ?_⟩
  · refine hresult.imp ?_
    rintro i i' ⟨hkind, n, n', hn, hn', -, hnumbers⟩
    refine ⟨hkind, ?_⟩
    rw [hn, hn', Int.toNat_natCast]
    exact congrArg Nat.cast hnumbers
  · have hseams : seams (editLines edit (endedLines text)) = 0 := by
      obtain hreturn | hdelete := hnone
      · rw [← joinLines_endedLines text] at hreturn
        exact seams_editLines_of_no_return hreturn edit
      · exact seams_editLines_of_no_delete (seams_endedLines text) hdelete
    refine hresult.imp ?_
    rintro i i' ⟨hkind, n, n', hn, hn', -, hnumbers⟩
    have hzero : seams ((editLines edit (endedLines text)).take n) = 0 :=
      Nat.eq_zero_of_le_zero ((seams_take_le _ n).trans_eq hseams)
    rw [hzero] at hnumbers
    exact ⟨hkind, by rw [hn, hn', hnumbers]; rfl⟩

/-- Between a carriage return and a line feed a comment is taken away; the malformed line behind it
is then the second one, and no longer the third. -/
theorem emptied_comment_moves_lines :
    editComments (fun n => if n = 2 then .delete else .keep) "\r// x\nbogus\n".toList =
        "\r\nbogus\n".toList ∧
      (translateSource "\r// x\nbogus\n".toList "Test.vm" {}).2.toOption.map
        (fun tally => tally.issues.map Issue.line) = some [3] ∧
      (translateSource "\r\nbogus\n".toList "Test.vm" {}).2.toOption.map
        (fun tally => tally.issues.map Issue.line) = some [2] := by
  decide +kernel

end VmToHack
