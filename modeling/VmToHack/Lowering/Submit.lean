import VmToHack.Lowering.Writer
import VmToHack.Text.Decimal
set_option autoImplicit false

/-!
# Lowering: commands with any numbers

A number of more digits than a numeral may have is not printed.  The commands of a source have no
such numbers, and `Writer.write` prints what they have.  A command that is built directly may have
one, and so may the counters that a writer starts with.  Such a command is submitted, and a number
that is not printed is a fault of its own.

A command whose text holds an overlong number is not written at all, as its block has no header.
The code of a comparison and of a call may come to one later: in a counter, or in the count of a
call when the words of the frame are added.  Then the block ends in front of that number, and the
names have moved on.
-/

namespace VmToHack

open VmToHack.Hack VmToHack.Text

/-- The least number with more digits than a numeral may have. -/
@[irreducible]
def printLimit : Nat := Nat.pow 10 numeralLimit

/-- A number that is printed. -/
def FitsNumeral (n : Int) : Prop := n.natAbs < printLimit

instance : DecidablePred FitsNumeral := fun n =>
  inferInstanceAs (Decidable (n.natAbs < printLimit))

/-- The text of a command is printed. -/
def Command.HasText (c : Command) : Prop := ∀ k, c.number? = some k → FitsNumeral k

instance : DecidablePred Command.HasText := fun c =>
  match h : c.number? with
  | some k => decidable_of_iff (FitsNumeral k) (by simp [Command.HasText, h])
  | none => .isTrue (by simp [Command.HasText, h])

/-- The code of a command in front of the first number in it that is not printed, if there is
one. -/
def Command.cut? (n : Naming) : Command → Option (List Line)
  | .arithmetic op =>
    match (Operator.ofMnemonic? op).map Operator.effect with
    | some (.comparison _) => if FitsNumeral n.comparisons then none else some []
    | _ => none
  | .call _ args =>
    if ¬ FitsNumeral n.calls then some []
    else if ¬ FitsNumeral (args + frameSize) then some (frameCode n.returnLabel)
    else none
  | _ => none

/-- What a command with a text offers to an output: its block, or what there is of it in front of
an overlong number. -/
def Command.offered (n : Naming) (c : Command) : List Line :=
  match c.cut? n with
  | some code => .comment c.text :: code
  | none => (c.block n).lines

/-- Why a submitted command has no code as its result, or not all of it. -/
inductive SubmitFault where
  /-- the write has none -/
  | write (f : WriteFault)
  /-- a number is not printed -/
  | overlong
  deriving DecidableEq, Repr, Inhabited

/-- Writes the block of a command with any numbers, as far as they are printed.  A failure of the
output hides an overlong number in the block. -/
def Writer.submit (w : Writer) (c : Command) : Writer × Option SubmitFault :=
  if c.HasText then
    let b := c.block w.naming
    let (w', fault) := w.put (c.offered w.naming) b.naming b.refusal
    (w', (fault.map .write).or ((c.cut? w.naming).map fun _ => .overlong))
  else (w, some .overlong)

end VmToHack
