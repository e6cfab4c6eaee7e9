import VmToHack.Lowering.Writer
import VmToHack.Hack.Assembly
set_option autoImplicit false

/-!
# Programs: units in a row

A program is made of units, each written on its own with names of its own, behind the
block that starts it or without that block.  `programLines` is what the writers put out.

The writers pass the names on from command to command.  `sites` lays that open: every
command together with the names in which it is translated.  A program is then a list of
items, each with lines of its own, and an item begins where the items before it end.
-/

namespace VmToHack

open VmToHack.Hack

/-- The commands of one file. -/
structure SourceUnit where
  name : String
  commands : List Command
  deriving DecidableEq, Repr, Inhabited

/-- Writes commands in order.  A fault does not end that. -/
def Writer.writeAll (w : Writer) : List Command → Writer × List WriteFault
  | [] => (w, [])
  | c :: cs =>
    let (w', fault) := w.write c
    let (w'', faults) := w'.writeAll cs
    (w'', fault.toList ++ faults)

namespace SourceUnit

/-- The writer with which a unit begins. -/
def writer (u : SourceUnit) : Writer := { naming := { unit := u.name } }

/-- What is written for a unit. -/
def lines (u : SourceUnit) : List Line := (u.writer.writeAll u.commands).1.output.lines

/-- What goes wrong in a unit. -/
def faults (u : SourceUnit) : List WriteFault := (u.writer.writeAll u.commands).2

end SourceUnit

/-- What is written for some units, with or without the block that starts a program. -/
def programLines (bootstrap : Bool) (units : List SourceUnit) : List Line :=
  (if bootstrap then bootstrapBlock else []) ++ units.flatMap SourceUnit.lines

/-! ## Sites -/

/-- A command with the names in which it is translated. -/
structure Site where
  naming : Naming
  command : Command
  deriving DecidableEq, Repr, Inhabited

namespace Site

def block (s : Site) : Block := s.command.block s.naming

def lines (s : Site) : List Line := s.block.lines

end Site

/-- The sites of some commands that begin with given names. -/
def sites (n : Naming) : List Command → List Site
  | [] => []
  | c :: cs => ⟨n, c⟩ :: sites (c.block n).naming cs

theorem write_unbounded (n : Naming) (blocks : Array (List Line)) (c : Command) :
    Writer.write ⟨n, ⟨none, blocks⟩⟩ c =
      (⟨(c.block n).naming, ⟨none, blocks.push (c.block n).lines⟩⟩,
        (c.block n).refusal.map .refused) := rfl

namespace Writer

/-- The names move on whether or not there is room for the block. -/
theorem naming_write (w : Writer) (c : Command) :
    (w.write c).1.naming = (c.block w.naming).naming := by
  simp only [write, put]
  split <;> rfl

section Room

variable {w : Writer}

theorem put_of_unlimited (h : w.output.room = none) (lines : List Line) (after : Naming)
    (r : Option Refusal) :
    w.put lines after r =
      (⟨after, ⟨none, w.output.blocks.push lines⟩⟩, r.map .refused) := by
  obtain ⟨n, room, blocks⟩ := w
  cases h
  rfl

theorem put_of_room {k : Nat} (h : w.output.room = some (k + 1)) (lines : List Line)
    (after : Naming) (r : Option Refusal) :
    w.put lines after r =
      (⟨after, ⟨some k, w.output.blocks.push lines⟩⟩, r.map .refused) := by
  obtain ⟨n, room, blocks⟩ := w
  cases h
  rfl

theorem put_of_no_room (h : w.output.room = some 0) (lines : List Line) (after : Naming)
    (r : Option Refusal) : w.put lines after r = (⟨after, w.output⟩, some .closed) := by
  obtain ⟨n, room, blocks⟩ := w
  cases h
  rfl

theorem write_of_unlimited (h : w.output.room = none) (c : Command) :
    w.write c =
      (⟨(c.block w.naming).naming, ⟨none, w.output.blocks.push (c.block w.naming).lines⟩⟩,
        (c.block w.naming).refusal.map .refused) := put_of_unlimited h _ _ _

end Room

theorem writeAll_cons_fst (w : Writer) (c : Command) (cs : List Command) :
    (w.writeAll (c :: cs)).1 = ((w.write c).1.writeAll cs).1 := rfl

end Writer

theorem writeAll_cons (n : Naming) (blocks : Array (List Line)) (c : Command) (cs : List Command) :
    Writer.writeAll ⟨n, ⟨none, blocks⟩⟩ (c :: cs) =
      ((Writer.writeAll ⟨(c.block n).naming, ⟨none, blocks.push (c.block n).lines⟩⟩ cs).1,
        ((c.block n).refusal.map WriteFault.refused).toList ++
          (Writer.writeAll ⟨(c.block n).naming, ⟨none, blocks.push (c.block n).lines⟩⟩ cs).2) := by
  rw [Writer.writeAll, write_unbounded]

theorem lines_writeAll (n : Naming) (blocks : Array (List Line)) (cs : List Command) :
    (Writer.writeAll ⟨n, ⟨none, blocks⟩⟩ cs).1.output.lines =
      blocks.toList.flatten ++ (sites n cs).flatMap Site.lines := by
  induction cs generalizing n blocks with
  | nil => simp [Writer.writeAll, sites, Output.lines]
  | cons c cs ih =>
    rw [writeAll_cons, ih, sites, List.flatMap_cons, ← List.append_assoc, Array.toList_push,
      List.flatten_append, List.flatten_singleton]
    rfl

theorem faults_writeAll (n : Naming) (blocks : Array (List Line)) (cs : List Command) :
    (Writer.writeAll ⟨n, ⟨none, blocks⟩⟩ cs).2 =
      (sites n cs).filterMap fun s => s.block.refusal.map .refused := by
  induction cs generalizing n blocks with
  | nil => rfl
  | cons c cs ih =>
    rw [writeAll_cons, ih, sites]
    cases hr : (c.block n).refusal with
    | none => simp [Site.block, hr]
    | some r => simp [Site.block, hr]

namespace SourceUnit

/-- The sites of a unit. -/
def sites (u : SourceUnit) : List Site := VmToHack.sites { unit := u.name } u.commands

theorem lines_eq (u : SourceUnit) : u.lines = u.sites.flatMap Site.lines := by
  have h := lines_writeAll { unit := u.name } #[] u.commands
  exact h

/-- A unit is translated without a fault if none of its commands is refused. -/
theorem faults_eq_nil_iff (u : SourceUnit) :
    u.faults = [] ↔ ∀ s ∈ u.sites, s.block.refusal = none := by
  have h : u.faults = u.sites.filterMap fun s => s.block.refusal.map .refused :=
    faults_writeAll { unit := u.name } #[] u.commands
  rw [h, List.filterMap_eq_nil_iff]
  simp

end SourceUnit

/-! ## Items -/

/-- A piece of a program. -/
inductive Item where
  /-- the block that starts a program -/
  | bootstrap
  | site (s : Site)
  deriving DecidableEq, Repr, Inhabited

def Item.lines : Item → List Line
  | .bootstrap => bootstrapBlock
  | .site s => s.lines

/-- The items of a program. -/
def items (bootstrap : Bool) (units : List SourceUnit) : List Item :=
  (if bootstrap then [.bootstrap] else []) ++ units.flatMap fun u => u.sites.map .site

theorem programLines_eq (bootstrap : Bool) (units : List SourceUnit) :
    programLines bootstrap units = (items bootstrap units).flatMap Item.lines := by
  have hunits : units.flatMap SourceUnit.lines =
      (units.flatMap fun u => u.sites.map .site).flatMap Item.lines := by
    induction units with
    | nil => rfl
    | cons u units ih =>
      have hu : u.lines = (u.sites.map .site).flatMap Item.lines := by
        rw [u.lines_eq, List.flatMap_map]
        rfl
      rw [List.flatMap_cons, List.flatMap_cons, List.flatMap_append, ih, hu]
  unfold programLines items
  rw [List.flatMap_append, hunits]
  cases bootstrap <;> rfl

theorem mem_items_site {bootstrap : Bool} {units : List SourceUnit} {s : Site} :
    .site s ∈ items bootstrap units ↔ ∃ u ∈ units, s ∈ u.sites := by
  cases bootstrap <;> simp [items]

/-- The number of instructions in front of an item. -/
def codeAddress (program : List Item) (position : Nat) : Nat :=
  codeSize ((program.take position).flatMap Item.lines)

theorem flatMap_eq_of_getElem? {program : List Item} {position : Nat} {item : Item}
    (h : program[position]? = some item) :
    program.flatMap Item.lines =
      (program.take position).flatMap Item.lines ++ item.lines ++
        (program.drop (position + 1)).flatMap Item.lines := by
  obtain ⟨hlt, hget⟩ := List.getElem?_eq_some_iff.mp h
  have hdrop : program.drop position = item :: program.drop (position + 1) := by
    rw [List.drop_eq_getElem_cons hlt, hget]
  have hsplit := List.take_append_drop position program
  rw [hdrop] at hsplit
  calc program.flatMap Item.lines
      = (program.take position ++ item :: program.drop (position + 1)).flatMap Item.lines := by
        rw [hsplit]
    _ = _ := by rw [List.flatMap_append, List.flatMap_cons, List.append_assoc]

theorem codeAddress_succ {program : List Item} {position : Nat} {item : Item}
    (h : program[position]? = some item) :
    codeAddress program (position + 1) = codeAddress program position + codeSize item.lines := by
  rw [codeAddress, List.take_add_one, h, Option.toList_some, List.flatMap_append,
    List.flatMap_singleton, codeSize_append]
  rfl

end VmToHack
