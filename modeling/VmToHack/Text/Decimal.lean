set_option autoImplicit false

/-!
# Text: decimal numerals

Runs of the ten ASCII digits and the numbers they denote.  A numeral may be given
with leading zeros; its value ignores them, its length counts them.
-/

namespace VmToHack.Text

/-- The ten ASCII digits. -/
def isDigit (c : Char) : Bool := '0' ≤ c && c ≤ '9'

/-- The number a run of digits denotes, most significant digit first. -/
def numeralValue (digits : List Char) : Nat :=
  digits.foldl (fun n c => 10 * n + (c.toNat - '0'.toNat)) 0

/-- The longest numeral that is evaluated, or printed.  A longer one is refused, whatever its
value. -/
def numeralLimit : Nat := 4300

@[simp] theorem numeralValue_nil : numeralValue [] = 0 := rfl

/-- A digit at the end adds itself to ten times the rest. -/
theorem numeralValue_concat (digits : List Char) (c : Char) :
    numeralValue (digits ++ [c]) = 10 * numeralValue digits + (c.toNat - '0'.toNat) := by
  simp [numeralValue, List.foldl_append]

end VmToHack.Text
