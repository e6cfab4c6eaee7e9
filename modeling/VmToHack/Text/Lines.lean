set_option autoImplicit false

/-!
# Text: lines

How a text falls into lines.  A line ends at any of the Unicode line boundaries,
carriage return and line feed together count as one boundary, and a boundary at
the very end of the text opens no further line.

`normalizeBreaks` is the coarser rule that applies when a file is read: there the
three customary line ends become a single line feed, and everything else stays.
-/

namespace VmToHack.Text

/-- The characters at which a line ends. -/
def isLineBreak (c : Char) : Bool :=
  let n := c.toNat
  (0x0A ≤ n && n ≤ 0x0D) || (0x1C ≤ n && n ≤ 0x1E) || n == 0x85 || n == 0x2028 || n == 0x2029

/-- Puts a character in front of the first of some lines. -/
def consFirst (c : Char) : List (List Char) → List (List Char)
  | [] => [[c]]
  | line :: lines => (c :: line) :: lines

/-- The lines of a text, without the characters that end them. -/
def splitLines : List Char → List (List Char)
  | [] => []
  | '\r' :: '\n' :: cs => [] :: splitLines cs
  | c :: cs => if isLineBreak c then [] :: splitLines cs else consFirst c (splitLines cs)

/-- Every carriage return, with the line feed after it if there is one, becomes a
line feed. -/
def normalizeBreaks : List Char → List Char
  | [] => []
  | '\r' :: '\n' :: cs => '\n' :: normalizeBreaks cs
  | c :: cs => (if c = '\r' then '\n' else c) :: normalizeBreaks cs

/-- A line holds no character at which a line ends. -/
theorem not_isLineBreak_of_mem_splitLines {cs line : List Char} (h : line ∈ splitLines cs) :
    ∀ c ∈ line, isLineBreak c = false := by
  fun_induction splitLines cs generalizing line with
  | case1 => simp at h
  | case2 cs ih =>
    rcases List.mem_cons.mp h with rfl | h
    · simp
    · exact ih h
  | case3 c cs _ _ ih =>
    rcases List.mem_cons.mp h with rfl | h
    · simp
    · exact ih h
  | case4 c cs _ hc ih =>
    intro x hx
    cases hs : splitLines cs with
    | nil =>
      rw [hs] at h
      simp only [consFirst, List.mem_singleton] at h
      subst h
      simp only [List.mem_singleton] at hx
      subst hx
      simpa using hc
    | cons first lines =>
      rw [hs] at h ih
      simp only [consFirst, List.mem_cons] at h
      rcases h with rfl | h
      · rcases List.mem_cons.mp hx with rfl | hx
        · simpa using hc
        · exact ih List.mem_cons_self x hx
      · exact ih (List.mem_cons_of_mem _ h) x hx

end VmToHack.Text
