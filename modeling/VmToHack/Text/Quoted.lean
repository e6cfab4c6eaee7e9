import VmToHack.Text.Unprintable
set_option autoImplicit false

/-!
# Text: quoting

How a diagnostic quotes a piece of input: between single quotes, or between
double quotes where that avoids an escape, with everything that a terminal cannot
show written as an escape.  A quoted text holds printable characters only, so a
diagnostic is one line whatever it quotes.
-/

namespace VmToHack.Text

/-- The `width` last hexadecimal digits of a number, in lower case. -/
def hexDigits : Nat → Nat → List Char
  | 0, _ => []
  | width + 1, n => hexDigits width (n / 16) ++ [Nat.digitChar (n % 16)]

/-- One character of a text that is quoted with `mark`. -/
def escape (mark c : Char) : List Char :=
  if c = mark || c = '\\' then ['\\', c]
  else if c = '\t' then ['\\', 't']
  else if c = '\n' then ['\\', 'n']
  else if c = '\r' then ['\\', 'r']
  else if isPrintable c then [c]
  else if c.toNat < 0x100 then '\\' :: 'x' :: hexDigits 2 c.toNat
  else if c.toNat < 0x10000 then '\\' :: 'u' :: hexDigits 4 c.toNat
  else '\\' :: 'U' :: hexDigits 8 c.toNat

/-- The quotation mark for a text: the single one, unless the text holds that and
not the double one. -/
def quotationMark (cs : List Char) : Char :=
  if cs.contains '\'' && !cs.contains '"' then '"' else '\''

/-- The text between quotation marks, with its unprintable characters escaped. -/
def quote (cs : List Char) : List Char :=
  let mark := quotationMark cs
  mark :: cs.flatMap (escape mark) ++ [mark]

/-- A text quoted, as a string. -/
def quoted (s : String) : String := String.ofList (quote s.toList)

end VmToHack.Text
