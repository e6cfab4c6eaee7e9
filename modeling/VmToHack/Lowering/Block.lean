import VmToHack.Command
import VmToHack.Text.Quoted
import VmToHack.Lowering.Operators
import VmToHack.Lowering.Places
import VmToHack.Lowering.Routines
set_option autoImplicit false

/-!
# Lowering: blocks

A command becomes one block of assembly: a comment with the command's text, and its
code.  A command without code is refused; its block then holds, behind the header,
one comment that says so, and the names stay as they are.
-/

namespace VmToHack

open VmToHack.Hack VmToHack.Text

/-! ## Wording of a refusal -/

/-- The words for a refusal. -/
def Refusal.message : Refusal → String
  | .operator op => "unsupported arithmetic command " ++ quoted op
  | .kind name => "unknown command type " ++ name
  | .constantPop => "constant segment is not addressable"
  | .pointerIndex index => "pointer index must be 0 or 1, got " ++ toString index
  | .tempIndex index =>
    "temp index must be 0.." ++ toString (tempSize - 1) ++ ", got " ++ toString index
  | .segment name => "unknown segment " ++ quoted name

/-- The words for a refused command. -/
def Refusal.report (c : Command) (r : Refusal) : String := c.text ++ ": " ++ r.message

/-- The comment that stands in the output for a refused command. -/
def Refusal.remark (c : Command) : Refusal → String
  | .operator op => "Unsupported command: " ++ op
  | .kind name => "Unsupported command: " ++ name
  | _ => "Invalid command: " ++ c.text

/-! ## Code -/

/-- The code of a command and the names after it. -/
def Command.code (n : Naming) : Command → Except Refusal (List Line × Naming)
  | .arithmetic op =>
    match Operator.ofMnemonic? op with
    | some o => .ok (o.code n)
    | none => .error (.operator op)
  | .push segment index => do
    let p ← place n segment index
    return (p.pushCode, n)
  | .pop segment index => do
    let p ← place n segment index
    let code ← p.popCode
    return (code, n)
  | .label name => .ok ([.label (n.labelSymbol name)], n)
  | .goto name => .ok (Hack.goto (n.labelSymbol name), n)
  | .ifGoto name => .ok (popD ++ [.symbol (n.labelSymbol name), .jumpIf .d .jne], n)
  | .function name locals => .ok (functionCode name locals, n.enter name)
  | .call name args => .ok (callCode name args n.returnLabel, n.afterCall)
  | .ret => .ok (returnCode, n)
  | .other name => .error (.kind name)

/-- What a command is translated to. -/
structure Block where
  /-- The header and the code, or the header and a remark. -/
  lines : List Line
  /-- The names after the command. -/
  naming : Naming
  /-- Why there is no code, if there is none. -/
  refusal : Option Refusal
  deriving DecidableEq, Repr, Inhabited

/-- The block of a command. -/
def Command.block (n : Naming) (c : Command) : Block :=
  match c.code n with
  | .ok (code, n') => ⟨.comment c.text :: code, n', none⟩
  | .error r => ⟨[.comment c.text, .comment (r.remark c)], n, some r⟩

/-- A refused command leaves the names as they were. -/
theorem Command.naming_block_of_refusal {n : Naming} {c : Command} {r : Refusal}
    (h : (c.block n).refusal = some r) : (c.block n).naming = n := by
  unfold Command.block at h ⊢
  split <;> simp_all

end VmToHack
