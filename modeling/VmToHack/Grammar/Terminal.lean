import VmToHack.Vocabulary
import VmToHack.Text.Decimal
set_option autoImplicit false

/-!
# Grammar: terminals

The terminals of a VM line and the two ways in which text is matched against them.

* `Terminal.take?` asks whether one given terminal starts a text.  A keyword then
  is just its letters, whatever follows them, so `pushconstant7` begins with `push`.
* `classify?` asks which terminal starts a text when nothing is known about what is
  wanted.  There a keyword counts only if it is the whole of the longest symbol, so
  the same text begins with a symbol.

Between terminals stand spaces, tabs and at most one comment; `skipBlanks` passes
them.
-/

namespace VmToHack.Grammar

open VmToHack.Text

/-- The terminals of the grammar of one line. -/
inductive Terminal where
  | operator (o : Operator)
  | move (d : Direction)
  | mark (v : LabelVerb)
  | routine (v : RoutineVerb)
  | ret
  | segment (g : Segment)
  | symbol
  | index
  deriving DecidableEq, Repr, Inhabited

/-! ## Characters -/

/-- The blanks inside a line. -/
def isBlank (c : Char) : Bool := c = ' ' || c = '\t'

/-- The characters with which a symbol may start. -/
def isSymbolStart (c : Char) : Bool :=
  ('A' ≤ c && c ≤ 'Z') || ('a' ≤ c && c ≤ 'z') || c = '_' || c = '.' || c = ':'

/-- The characters of a symbol. -/
def isSymbolChar (c : Char) : Bool := isSymbolStart c || isDigit c

/-- The text after its blanks and, if one follows them, after a comment.  A comment
reaches to the next line feed; what is left then is empty or starts with that. -/
def skipBlanks (cs : List Char) : List Char :=
  match cs.dropWhile isBlank with
  | '/' :: '/' :: rest => rest.dropWhile (· ≠ '\n')
  | rest => rest

/-! ## Spelling -/

namespace Terminal

/-- The letters of a keyword; a symbol or an index has no fixed letters. -/
def keyword? : Terminal → Option String
  | .operator o => some o.mnemonic
  | .move d => some d.name
  | .mark v => some v.name
  | .routine v => some v.name
  | .ret => some "return"
  | .segment g => some g.name
  | .symbol => none
  | .index => none

/-- The name by which a diagnostic calls a terminal. -/
def name : Terminal → String
  | .operator o => o.mnemonic.toUpper
  | .move d => d.name.toUpper
  | .mark .ifGoto => "IF_GOTO"
  | .mark v => v.name.toUpper
  | .routine v => v.name.toUpper
  | .ret => "RETURN"
  | .segment g => g.name.toUpper
  | .symbol => "SYMBOL"
  | .index => "INDEX"

/-- The keywords with which a command starts. -/
def verbs : List Terminal :=
  Operator.all.map .operator ++
    [.move .push, .move .pop, .mark .label, .mark .goto, .mark .ifGoto,
     .routine .function, .routine .call, .ret]

/-- The keywords that name a segment. -/
def segments : List Terminal := Segment.all.map .segment

/-- Every terminal with fixed letters. -/
def keywords : List Terminal := verbs ++ segments

end Terminal

/-! ## Matching -/

/-- The longest run at the front of a text that starts with one kind of character and goes on with
another, and the rest. -/
def takeRun? (start more : Char → Bool) : List Char → Option (List Char × List Char)
  | [] => none
  | c :: cs => if start c then some (c :: cs.takeWhile more, cs.dropWhile more) else none

/-- The longest symbol at the front of a text, and the rest. -/
def takeSymbol? : List Char → Option (List Char × List Char) := takeRun? isSymbolStart isSymbolChar

/-- The longest run of digits at the front of a text, and the rest. -/
def takeIndex? : List Char → Option (List Char × List Char) := takeRun? isDigit isDigit

/-- The rest of a text behind given letters, if it starts with them. -/
def restBehind? : List Char → List Char → Option (List Char)
  | [], cs => some cs
  | _ :: _, [] => none
  | l :: letters, c :: cs => if l = c then restBehind? letters cs else none

/-- The letters of a keyword at the front of a text, and the rest. -/
def takeKeyword? (letters : List Char) (cs : List Char) : Option (List Char × List Char) :=
  (restBehind? letters cs).map fun rest => (letters, rest)

/-- The text that a given terminal matches at the front of `cs`, and the rest. -/
def Terminal.take? (t : Terminal) (cs : List Char) : Option (List Char × List Char) :=
  match t with
  | .symbol => takeSymbol? cs
  | .index => takeIndex? cs
  | t => (t.keyword?).bind fun word => takeKeyword? word.toList cs

/-- The terminal that a whole symbol is: the keyword so spelled, or else a symbol. -/
def Terminal.ofWord (word : List Char) : Terminal :=
  (Terminal.keywords.find? fun t => t.keyword? == some (String.ofList word)).getD .symbol

/-- The terminal with which a text starts when every terminal is possible, its text,
and the rest.  The one keyword that is no symbol goes first. -/
def classify? (cs : List Char) : Option (Terminal × List Char × List Char) :=
  match (Terminal.mark .ifGoto).take? cs with
  | some (word, rest) => some (.mark .ifGoto, word, rest)
  | none =>
    match takeIndex? cs with
    | some (word, rest) => some (.index, word, rest)
    | none => (takeSymbol? cs).map fun (word, rest) => (Terminal.ofWord word, word, rest)

/-! ## Matching splits the text -/

theorem takeRun?_append {start more : Char → Bool} {cs word rest : List Char}
    (h : takeRun? start more cs = some (word, rest)) : word ++ rest = cs ∧ word ≠ [] := by
  cases cs with
  | nil => cases h
  | cons c cs =>
    rw [takeRun?] at h
    split at h
    · simp only [Option.some.injEq, Prod.mk.injEq] at h
      obtain ⟨rfl, rfl⟩ := h
      simp
    · cases h

theorem restBehind?_eq_some_iff {letters cs rest : List Char} :
    restBehind? letters cs = some rest ↔ letters ++ rest = cs := by
  induction letters generalizing cs with
  | nil => simp [restBehind?, eq_comm]
  | cons l letters ih =>
    cases cs with
    | nil => simp [restBehind?]
    | cons c cs =>
      by_cases h : l = c
      · simp [restBehind?, h, ih]
      · simp [restBehind?, h]

theorem takeKeyword?_eq_some_iff {letters cs word rest : List Char} :
    takeKeyword? letters cs = some (word, rest) ↔ word = letters ∧ letters ++ rest = cs := by
  simp only [takeKeyword?, Option.map_eq_some_iff, Prod.mk.injEq,
    restBehind?_eq_some_iff]
  constructor
  · rintro ⟨r, h, rfl, rfl⟩
    exact ⟨rfl, h⟩
  · rintro ⟨rfl, h⟩
    exact ⟨rest, h, rfl, rfl⟩

theorem keyword?_toList_ne_nil {t : Terminal} {word : String} (h : t.keyword? = some word) :
    word.toList ≠ [] := by
  cases t with
  | operator o => cases o <;> cases h <;> decide
  | move d => cases d <;> cases h <;> decide
  | mark v => cases v <;> cases h <;> decide
  | routine v => cases v <;> cases h <;> decide
  | ret => cases h; decide
  | segment g => cases g <;> cases h <;> decide
  | symbol => cases h
  | index => cases h

/-- What a terminal matches is not empty and stands at the front of the text. -/
theorem Terminal.take?_append {t : Terminal} {cs word rest : List Char}
    (h : t.take? cs = some (word, rest)) : word ++ rest = cs ∧ word ≠ [] := by
  have hkey : ∀ t' : Terminal,
      ((t'.keyword?).bind fun w => takeKeyword? w.toList cs) = some (word, rest) →
      word ++ rest = cs ∧ word ≠ [] := by
    intro t' h'
    obtain ⟨w, hw, hk⟩ := Option.bind_eq_some_iff.mp h'
    obtain ⟨rfl, hr⟩ := takeKeyword?_eq_some_iff.mp hk
    exact ⟨hr, keyword?_toList_ne_nil hw⟩
  cases t with
  | symbol => exact takeRun?_append h
  | index => exact takeRun?_append h
  | operator o => exact hkey (.operator o) h
  | move d => exact hkey (.move d) h
  | mark v => exact hkey (.mark v) h
  | routine v => exact hkey (.routine v) h
  | ret => exact hkey (.ret) h
  | segment g => exact hkey (.segment g) h

/-- The classified text is not empty and stands at the front. -/
theorem classify?_append {cs word rest : List Char} {t : Terminal}
    (h : classify? cs = some (t, word, rest)) : word ++ rest = cs ∧ word ≠ [] := by
  simp only [classify?] at h
  split at h
  · next hw =>
    simp only [Option.some.injEq, Prod.mk.injEq] at h
    obtain ⟨-, rfl, rfl⟩ := h
    exact Terminal.take?_append hw
  · split at h
    · next hw =>
      simp only [Option.some.injEq, Prod.mk.injEq] at h
      obtain ⟨-, rfl, rfl⟩ := h
      exact takeRun?_append hw
    · obtain ⟨⟨w, r⟩, hw, he⟩ := Option.map_eq_some_iff.mp h
      simp only [Prod.mk.injEq] at he
      obtain ⟨-, rfl, rfl⟩ := he
      exact takeRun?_append hw

end VmToHack.Grammar
