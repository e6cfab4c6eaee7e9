import VmToHack.Grammar.Terminal
set_option autoImplicit false

/-!
# Grammar: phrases

A line of VM code is read by a small machine.  Its state is the part of a command
read so far, each state lists the terminals that may come next, and reading moves
from terminal to terminal over blanks.  Because only the listed terminals are tried,
the same letters are a keyword in one state and a plain symbol in another.

The machine either ends, in a state that is or is not the end of a command, or gets
stuck in front of a text at which no listed terminal matches.  A `Phrase` is a
complete command as written: its numeral is still a run of digits.
-/

namespace VmToHack.Grammar

/-- A complete command as it is written. -/
inductive Phrase where
  | operator (o : Operator)
  | move (d : Direction) (g : Segment) (digits : List Char)
  | mark (v : LabelVerb) (name : List Char)
  | routine (v : RoutineVerb) (name digits : List Char)
  | ret
  deriving DecidableEq, Repr, Inhabited

/-- The part of a command read so far. -/
inductive State where
  /-- nothing yet -/
  | start
  /-- a direction, which wants a segment -/
  | moving (d : Direction)
  /-- a direction and a segment, which want an index -/
  | indexing (d : Direction) (g : Segment)
  /-- a verb that wants a label -/
  | marking (v : LabelVerb)
  /-- a verb that wants a function -/
  | naming (v : RoutineVerb)
  /-- a verb and a function, which want a count -/
  | counting (v : RoutineVerb) (name : List Char)
  /-- a whole command -/
  | complete (p : Phrase)
  deriving DecidableEq, Repr, Inhabited

namespace State

/-- The terminals that may come next. -/
def allowed : State → List Terminal
  | .start => Terminal.verbs
  | .moving _ => Terminal.segments
  | .indexing _ _ => [.index]
  | .marking _ => [.symbol]
  | .naming _ => [.symbol]
  | .counting _ _ => [.index]
  | .complete _ => []

/-- The state after a terminal and its text, if the terminal may come next. -/
def after? : State → Terminal → List Char → Option State
  | .start, .operator o, _ => some (.complete (.operator o))
  | .start, .move d, _ => some (.moving d)
  | .start, .mark v, _ => some (.marking v)
  | .start, .routine v, _ => some (.naming v)
  | .start, .ret, _ => some (.complete .ret)
  | .moving d, .segment g, _ => some (.indexing d g)
  | .indexing d g, .index, digits => some (.complete (.move d g digits))
  | .marking v, .symbol, name => some (.complete (.mark v name))
  | .naming v, .symbol, name => some (.counting v name)
  | .counting v name, .index, digits => some (.complete (.routine v name digits))
  | _, _, _ => none

/-- The terminals listed are those that lead on. -/
theorem mem_allowed_iff (s : State) (t : Terminal) (word : List Char) :
    t ∈ s.allowed ↔ (s.after? t word).isSome := by
  cases s with
  | start =>
    cases t with
    | operator o => cases o <;> simp [allowed, after?, Terminal.verbs, Operator.all]
    | move d => cases d <;> simp [allowed, after?, Terminal.verbs, Operator.all]
    | mark v => cases v <;> simp [allowed, after?, Terminal.verbs, Operator.all]
    | routine v => cases v <;> simp [allowed, after?, Terminal.verbs, Operator.all]
    | ret => simp [allowed, after?, Terminal.verbs, Operator.all]
    | segment g => simp [allowed, after?, Terminal.verbs, Operator.all]
    | symbol => simp [allowed, after?, Terminal.verbs, Operator.all]
    | index => simp [allowed, after?, Terminal.verbs, Operator.all]
  | moving d =>
    cases t with
    | segment g => simp [allowed, after?, Terminal.segments, Segment.mem_all]
    | _ => simp [allowed, after?, Terminal.segments]
  | indexing d g => cases t <;> simp [allowed, after?]
  | marking v => cases t <;> simp [allowed, after?]
  | naming v => cases t <;> simp [allowed, after?]
  | counting v name => cases t <;> simp [allowed, after?]
  | complete p => cases t <;> simp [allowed, after?]

/-- How many terminals a command still needs at most. -/
def wants : State → Nat
  | .start => 3
  | .moving _ => 2
  | .indexing _ _ => 1
  | .marking _ => 1
  | .naming _ => 2
  | .counting _ _ => 1
  | .complete _ => 0

theorem wants_lt_of_after? {s s' : State} {t : Terminal} {word : List Char}
    (h : s.after? t word = some s') : s'.wants < s.wants := by
  cases s <;> cases t <;> simp [after?] at h <;> subst h <;> simp [wants]

/-- Reads one terminal: the first of those allowed that matches at the front of the
text.  No two of them match at one place, so their order does not matter. -/
def next? (s : State) (cs : List Char) : Option (State × List Char) :=
  s.allowed.findSome? fun t =>
    (t.take? cs).bind fun (word, rest) => (s.after? t word).map fun s' => (s', rest)

theorem wants_lt_of_next? {s s' : State} {cs rest : List Char}
    (h : s.next? cs = some (s', rest)) : s'.wants < s.wants := by
  obtain ⟨t, -, ht⟩ := List.exists_of_findSome?_eq_some h
  obtain ⟨⟨word, r⟩, -, hw⟩ := Option.bind_eq_some_iff.mp ht
  obtain ⟨q, hq, he⟩ := Option.map_eq_some_iff.mp hw
  simp only [Prod.mk.injEq] at he
  exact wants_lt_of_after? (he.1 ▸ hq)

end State

/-- How the reading of a line comes to its end. -/
inductive Outcome where
  /-- the line ends in this state -/
  | ended (s : State)
  /-- no terminal allowed in this state matches the rest, which is not empty -/
  | stuck (s : State) (rest : List Char)
  deriving DecidableEq, Repr, Inhabited

/-- Reads a line on from a state. -/
def State.run (s : State) (cs : List Char) : Outcome :=
  match skipBlanks cs with
  | [] => .ended s
  | c :: cs =>
    match _h : s.next? (c :: cs) with
    | some (s', rest) => s'.run rest
    | none => .stuck s (c :: cs)
termination_by s.wants
decreasing_by exact wants_lt_of_next? _h

/-- Reads a whole line. -/
def read (line : List Char) : Outcome := State.start.run line

end VmToHack.Grammar
