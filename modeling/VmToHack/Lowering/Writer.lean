import VmToHack.Lowering.Block
set_option autoImplicit false

/-!
# Lowering: writing

An output takes whole blocks, one write for each command.  It may have room for a
limited number of writes; when the room is used up every further write fails, and
nothing of its block is kept.  A `Writer` is an output together with the names of
the unit that is written to it.

A block is complete before it is written.  So a failing output never holds part of a
command, the names move on whether or not the write succeeds, and a failure of the
output hides a refusal of the same command.
-/

namespace VmToHack

open VmToHack.Hack

/-- An output that takes blocks. -/
structure Output where
  /-- How many more writes succeed; every write if there is no number. -/
  room : Option Nat := none
  /-- The blocks taken, in order. -/
  blocks : Array (List Line) := #[]
  deriving DecidableEq, Repr, Inhabited

namespace Output

/-- All lines written. -/
def lines (o : Output) : List Line := o.blocks.toList.flatten

/-- All that was written, as one text. -/
def text (o : Output) : String := String.join (o.blocks.toList.map render)

/-- Writes a block if there is room for it, and says whether there was. -/
def write (o : Output) (block : List Line) : Output × Bool :=
  match o with
  | ⟨none, blocks⟩ => (⟨none, blocks.push block⟩, true)
  | ⟨some 0, blocks⟩ => (⟨some 0, blocks⟩, false)
  | ⟨some (room + 1), blocks⟩ => (⟨some room, blocks.push block⟩, true)

end Output

/-- Why a write has no code as its result. -/
inductive WriteFault where
  /-- the output takes no more blocks -/
  | closed
  /-- the command is refused -/
  | refused (r : Refusal)
  deriving DecidableEq, Repr, Inhabited

/-- The words for an output that takes no more blocks. -/
def closedMessage : String := "output closed"

/-- An output and the names of the unit that is written to it. -/
structure Writer where
  naming : Naming
  output : Output := {}
  deriving DecidableEq, Repr, Inhabited

namespace Writer

/-- Writes lines as one block and goes on with given names. -/
def put (w : Writer) (lines : List Line) (after : Naming) (refusal : Option Refusal) :
    Writer × Option WriteFault :=
  match w.output.write lines with
  | (output, true) => (⟨after, output⟩, refusal.map .refused)
  | (output, false) => (⟨after, output⟩, some .closed)

/-- Writes the block of a command. -/
def write (w : Writer) (c : Command) : Writer × Option WriteFault :=
  let b := c.block w.naming
  w.put b.lines b.naming b.refusal

/-- Writes the block with which a program starts.  It has names of its own. -/
def writeBootstrap (w : Writer) : Writer × Option WriteFault :=
  w.put bootstrapBlock w.naming none

end Writer

end VmToHack
