import VmToHack.Scanner
set_option autoImplicit false

/-!
# Pulls: what a scanner gives, request by request

A scanner has the rest of one line at hand and scans the next line when that is used up.  From
outside nothing of this shows: the lexemes that it has given since it was last reset, followed by
those that are still to come, are always the lexemes of the text (`Scanner.StandsBehind`).

The end of the text looks like a lexeme, but no lexeme of a text is of its kind
(`Scanner.Sound`); so pulling up to the end yields all that is left (`Scanner.Sound.drain_eq`).
One request keeps the place (`Scanner.StandsBehind.serve`), hence a run of requests does
(`Scanner.StandsBehind.after`), and every answer can be read off it (`scanner_serves`).
-/

namespace VmToHack

open VmToHack.Text

/-! ## Lexemes and the end of the text -/

theorem kind_ne_endOfText_of_mem_ofPieces {number : Nat} {begun : Bool} {ps : List Piece}
    {x : Lexeme} (h : x ∈ Lexeme.ofPieces number begun ps) : x.kind ≠ .endOfText := by
  induction ps generalizing begun with
  | nil => cases h
  | cons p ps ih =>
    rw [Lexeme.ofPieces] at h
    split at h
    · rcases List.mem_cons.mp h with rfl | h
      · cases begun <;> simp
      · exact ih h
    · rcases List.mem_cons.mp h with rfl | h
      · simp
      · exact ih h

theorem kind_ne_endOfText_of_mem_scanLines {number : Nat} {lines : List (List Char)} {x : Lexeme}
    (h : x ∈ scanLines number lines) : x.kind ≠ .endOfText := by
  induction lines generalizing number with
  | nil => cases h
  | cons line lines ih =>
    rcases List.mem_append.mp h with h | h
    · exact kind_ne_endOfText_of_mem_ofPieces h
    · exact ih h

namespace Scanner

variable {s : Scanner}

/-- A scanner that can tell its lexemes from the end of the text. -/
def Sound (s : Scanner) : Prop := ∀ x ∈ s.pending, x.kind ≠ .endOfText

theorem sound_ofText (text : List Char) : (ofText text).Sound :=
  fun _ => kind_ne_endOfText_of_mem_scanLines

/-- Behind the first of lexemes that are none of them the end the others are none either. -/
theorem sound_of_pending_eq_tail {xs : List Lexeme} (h : s.pending = xs.tail)
    (hxs : ∀ x ∈ xs, x.kind ≠ .endOfText) : s.Sound := by
  intro x hx
  rw [h] at hx
  exact hxs x (List.mem_of_mem_tail hx)

theorem Sound.of_next {s' : Scanner} {lexeme : Lexeme} (h : s.Sound)
    (hnext : s.next = (lexeme, s')) : s'.Sound := by
  have hbehind := s.pending_next
  rw [hnext] at hbehind
  exact sound_of_pending_eq_tail hbehind h

/-- The end of the text is pulled only when no lexeme is left. -/
theorem Sound.pending_eq_nil {s' : Scanner} {lexeme : Lexeme} (h : s.Sound)
    (hnext : s.next = (lexeme, s')) (hend : lexeme.kind = .endOfText) : s.pending = [] := by
  have hfirst := s.fst_next
  rw [hnext] at hfirst
  cases hpending : s.pending with
  | nil => rfl
  | cons x rest =>
    rw [hpending] at hfirst
    have hx : lexeme = x := hfirst
    have hmem : lexeme ∈ s.pending := by rw [hpending, hx]; exact List.mem_cons_self
    exact absurd hend (h lexeme hmem)

/-- Pulling up to the end yields the lexemes that are left, and leaves none. -/
theorem Sound.drain_eq (h : s.Sound) :
    s.drain.1 = s.pending ∧ s.drain.2.pending = [] ∧ s.drain.2.lines = s.lines := by
  fun_induction drain s with
  | case1 s lexeme behind hnext hend =>
    have hnone := h.pending_eq_nil hnext hend
    have hbehind := s.pending_next
    have hlines := s.lines_next
    rw [hnext] at hbehind hlines
    rw [hnone] at hbehind
    exact ⟨hnone.symm, hbehind, hlines⟩
  | case2 s lexeme behind hnext hmore rest last hlast ih =>
    obtain ⟨hrest, hempty, hlines⟩ := ih (h.of_next hnext)
    rw [hlast] at hrest hempty hlines
    have hline := s.lines_next
    rw [hnext] at hline
    refine ⟨?_, hempty, hlines.trans hline⟩
    rw [pending_eq_cons hnext hmore]
    exact congrArg (lexeme :: ·) hrest

/-! ## Runs of requests -/

/-- The scanner after requests. -/
def after (s : Scanner) : List Request → Scanner
  | [] => s
  | q :: requests => (s.serve q).2.after requests

/-- What a scanner answers to requests. -/
def answers (s : Scanner) : List Request → List Answer
  | [] => []
  | q :: requests => (s.serve q).1 :: (s.serve q).2.answers requests

/-- The lexemes given since the last reset, when an answer follows on others. -/
def addGiven (given : List Lexeme) : Answer → List Lexeme
  | .lexeme x => if x.kind = .endOfText then given else given ++ [x]
  | .lexemes xs => given ++ xs
  | .restarted => []

/-- The lexemes that answers have given since the last reset. -/
def givenBy (answers : List Answer) : List Lexeme := answers.foldl addGiven []

/-- A scanner of a text behind lexemes that it has given: they and those still to come are the
lexemes of the text. -/
structure StandsBehind (s : Scanner) (text : List Char) (given : List Lexeme) : Prop where
  lines : s.lines = splitLines text
  all : given ++ s.pending = scan text

section StandsBehind

variable {text : List Char} {given : List Lexeme}

theorem standsBehind_ofText (text : List Char) : (ofText text).StandsBehind text [] := ⟨rfl, rfl⟩

theorem StandsBehind.sound (h : s.StandsBehind text given) : s.Sound := by
  intro x hx
  have hmem : x ∈ scan text := h.all ▸ List.mem_append_right given hx
  exact kind_ne_endOfText_of_mem_scanLines hmem

theorem StandsBehind.atEnd_eq (h : s.StandsBehind text given) :
    s.atEnd = ⟨.endOfText, [], (splitLines text).length + 1, 1⟩ := by
  rw [atEnd, h.lines]

/-- A reset scanner is as it was at the start. -/
theorem StandsBehind.reset_eq (h : s.StandsBehind text given) : s.reset = ofText text := by
  rw [reset, h.lines]
  rfl

/-- What is still to come are the lexemes behind as many as were given. -/
theorem StandsBehind.pending_eq (h : s.StandsBehind text given) :
    s.pending = (scan text).drop given.length := by
  rw [← h.all, List.drop_left]

/-- A pulled lexeme counts as given, and the end of the text does not. -/
theorem StandsBehind.next (h : s.StandsBehind text given) :
    s.next.2.StandsBehind text (addGiven given (.lexeme s.next.1)) := by
  refine ⟨h.lines, ?_⟩
  by_cases hend : s.next.1.kind = .endOfText
  · have hnone := h.sound.pending_eq_nil rfl hend
    rw [addGiven, if_pos hend, pending_next, hnone, List.tail_nil, ← hnone, h.all]
  · have hcons : s.pending = s.next.1 :: s.next.2.pending := pending_eq_cons rfl hend
    rw [addGiven, if_neg hend, List.append_assoc, List.singleton_append, ← hcons, h.all]

/-- Each request leaves the scanner behind what it has given. -/
theorem StandsBehind.serve (h : s.StandsBehind text given) (q : Request) :
    (s.serve q).2.StandsBehind text (addGiven given (s.serve q).1) := by
  cases q with
  | next => exact h.next
  | rest =>
    obtain ⟨hrest, hempty, hlines⟩ := h.sound.drain_eq
    show s.drain.2.StandsBehind text (given ++ s.drain.1)
    refine ⟨hlines.trans h.lines, ?_⟩
    rw [hrest, hempty, List.append_nil, h.all]
  | reset =>
    show s.reset.StandsBehind text []
    rw [h.reset_eq]
    exact standsBehind_ofText text

theorem StandsBehind.after (h : s.StandsBehind text given) (requests : List Request) :
    (s.after requests).StandsBehind text ((s.answers requests).foldl addGiven given) := by
  induction requests generalizing s given with
  | nil => exact h
  | cons q requests ih => exact ih (h.serve q)

/-! ## Answers at the end of a text -/

/-- What is answered behind the last lexeme of a text. -/
def endAnswer (text : List Char) : Request → Answer
  | .next => .lexeme ⟨.endOfText, [], (splitLines text).length + 1, 1⟩
  | .rest => .lexemes []
  | .reset => .restarted

/-- A scanner that says nothing but that the text has ended, until it is reset. -/
def Exhausted (s : Scanner) (text : List Char) : Prop :=
  ∀ requests : List Request, .reset ∉ requests →
    s.answers requests = requests.map (endAnswer text)

/-- At the end each request but a reset is answered so and leaves the scanner at the end. -/
theorem StandsBehind.serve_at_end (h : s.StandsBehind text given) (hnone : s.pending = [])
    {q : Request} (hq : q ≠ .reset) :
    (s.serve q).1 = endAnswer text q ∧ (s.serve q).2.pending = [] := by
  cases q with
  | next =>
    have hend : s.next.1 = s.atEnd := by rw [fst_next, hnone]; rfl
    show Answer.lexeme s.next.1 = _ ∧ s.next.2.pending = []
    rw [hend, h.atEnd_eq, pending_next, hnone]
    exact ⟨rfl, rfl⟩
  | rest =>
    obtain ⟨hrest, hempty, -⟩ := h.sound.drain_eq
    show Answer.lexemes s.drain.1 = _ ∧ s.drain.2.pending = []
    rw [hrest, hnone]
    exact ⟨rfl, hempty⟩
  | reset => exact absurd rfl hq

theorem StandsBehind.exhausted (h : s.StandsBehind text given) (hnone : s.pending = []) :
    s.Exhausted text := by
  intro requests hrequests
  induction requests generalizing s given with
  | nil => rfl
  | cons q requests ih =>
    obtain ⟨hq, hrequests⟩ := List.ne_and_not_mem_of_not_mem_cons hrequests
    obtain ⟨hanswer, hnone⟩ := h.serve_at_end hnone hq.symm
    rw [answers, List.map_cons, hanswer, ih (h.serve q) hnone hrequests]

end StandsBehind

/-! ## Every answer -/

/-- A scanner of a text that has given some number of its lexemes since it was last reset: it gives
the lexeme at that place, or all from there on, and is then exhausted; with no lexeme left it is
exhausted already; and a reset brings back every answer of a new scanner. -/
structure ServesFrom (s : Scanner) (text : List Char) (given : Nat) : Prop where
  next : ∀ x ∈ (scan text)[given]?, (s.serve .next).1 = .lexeme x
  ended : (scan text).length ≤ given → s.Exhausted text
  rest : (s.serve .rest).1 = .lexemes ((scan text).drop given)
  drained : (s.serve .rest).2.Exhausted text
  restarted : ∀ requests, (s.serve .reset).2.answers requests = (ofText text).answers requests

theorem StandsBehind.servesFrom {text : List Char} {given : List Lexeme}
    (h : s.StandsBehind text given) : s.ServesFrom text given.length := by
  have hpending := h.pending_eq
  obtain ⟨hrest, hempty, -⟩ := h.sound.drain_eq
  refine ⟨fun x hx => ?_, fun hlength => ?_, ?_, ?_, fun requests => ?_⟩
  · have hfirst : s.next.1 = x := by
      rw [fst_next, hpending, List.head?_drop, hx]
      rfl
    exact congrArg Answer.lexeme hfirst
  · rw [List.drop_of_length_le hlength] at hpending
    exact h.exhausted hpending
  · rw [← hpending]
    exact congrArg Answer.lexemes hrest
  · exact (h.serve .rest).exhausted hempty
  · show s.reset.answers requests = _
    rw [h.reset_eq]

end Scanner

/-- Whatever a scanner of a text has been asked, what it has given since the last reset is the
beginning of the lexemes of the text, and it serves from there. -/
theorem scanner_serves (text : List Char) (requests : List Scanner.Request) :
    Scanner.givenBy ((Scanner.ofText text).answers requests) <+: scan text ∧
      ((Scanner.ofText text).after requests).ServesFrom text
        (Scanner.givenBy ((Scanner.ofText text).answers requests)).length := by
  have h := (Scanner.standsBehind_ofText text).after requests
  exact ⟨⟨_, h.all⟩, h.servesFrom⟩

/-- A reset in the middle of a line starts over; behind the last lexeme the text stays at its end. -/
example : (Scanner.ofText "push constant 7\n\n# add".toList).answers
      [.next, .next, .reset, .next, .rest, .next, .rest, .reset, .next] =
    [.lexeme ⟨.command, "push".toList, 1, 1⟩, .lexeme ⟨.argument, "constant".toList, 1, 6⟩,
      .restarted, .lexeme ⟨.command, "push".toList, 1, 1⟩,
      .lexemes [⟨.argument, "constant".toList, 1, 6⟩, ⟨.argument, "7".toList, 1, 15⟩,
        ⟨.illegal, "#".toList, 3, 1⟩, ⟨.command, "add".toList, 3, 3⟩],
      .lexeme ⟨.endOfText, [], 4, 1⟩, .lexemes [], .restarted,
      .lexeme ⟨.command, "push".toList, 1, 1⟩] := by
  decide +kernel

end VmToHack
