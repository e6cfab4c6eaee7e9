import Mathlib.Data.List.DropRight
import VmToHack.Proofs.Scopes
set_option autoImplicit false

/-!
# Counters: where the names of a writer stand

A writer may be told to write commands, among them such as are refused, to write the block with
which a program starts, and to go on with another output, among them such as fail.  Only commands
move its names, and these move them whatever becomes of their blocks.  A command whose own number is
too long to be said has no text; it is not written, and moves nothing.

What has been moved can be read off the commands behind the last one that begins a function, or off
all of them if there is none (`sinceFunction`).  The next comparison, or call, has the number with
which the function began, and one more for each comparison, or call, since then (`Counted`).  The
labels that a command makes have just this number (`NumbersLabels`), as far as the block gets: it
ends in front of a number that is too long.
-/

namespace VmToHack

open VmToHack.Hack

theorem filterMap_concat {α β : Type} (f : α → Option β) (xs : List α) (x : α) :
    (xs ++ [x]).filterMap f = xs.filterMap f ++ (f x).toList := by
  rw [List.filterMap_append]
  cases hx : f x <;> simp [hx]

/-! ## What a writer is told -/

/-- What a writer is told to do. -/
inductive Order where
  | submit (c : Command)
  | bootstrap
  /-- to go on with another output, which may have no room or room again -/
  | redirect (output : Output)
  deriving DecidableEq, Repr, Inhabited

/-- The command that is written at an order, if it has a text. -/
def Order.command? : Order → Option Command
  | .submit c => if c.HasText then some c else none
  | _ => none

/-- The commands that are written at some orders, in order. -/
def commandsOf (orders : List Order) : List Command := orders.filterMap Order.command?

namespace Writer

/-- The writer after an order, whether or not there was a fault. -/
def obey (w : Writer) : Order → Writer
  | .submit c => (w.submit c).1
  | .bootstrap => w.writeBootstrap.1
  | .redirect output => { w with output }

/-- The writer after some orders. -/
def obeyAll (w : Writer) (orders : List Order) : Writer := orders.foldl obey w

theorem naming_writeBootstrap (w : Writer) : w.writeBootstrap.1.naming = w.naming := by
  simp only [writeBootstrap, put]
  split <;> rfl

theorem obeyAll_concat (w : Writer) (orders : List Order) (order : Order) :
    w.obeyAll (orders ++ [order]) = (w.obeyAll orders).obey order := List.foldl_concat ..

end Writer

/-! ## Since the last function -/

/-- The commands behind the last one that begins a function; all of them if none does. -/
def sinceFunction (cs : List Command) : List Command :=
  cs.rtakeWhile fun c => c.function?.isNone

/-- A comparison: `eq`, `gt` or `lt`. -/
def Command.isComparison (c : Command) : Bool :=
  c = .arithmetic "eq" || c = .arithmetic "gt" || c = .arithmetic "lt"

/-- How many comparisons there are among some commands. -/
def comparisonCount (cs : List Command) : Nat := cs.countP Command.isComparison

/-- The number with which counting begins: one in a function, and in front of the first one the
number that is given. -/
def firstNumber (cs : List Command) (start : Int) : Int :=
  if functionNames cs = [] then start else 1

theorem isSome_comparison? (c : Command) : c.comparison?.isSome = c.isComparison := by
  cases c with
  | arithmetic op =>
    cases ho : Operator.ofMnemonic? op with
    | some o =>
      obtain rfl := Operator.ofMnemonic?_eq_some_iff.mp ho
      cases o <;> decide
    | none =>
      have hne : ∀ o : Operator, op ≠ o.mnemonic := by
        rintro o rfl
        rw [Operator.ofMnemonic?_mnemonic] at ho
        cases ho
      have heq : op ≠ "eq" := hne .eq
      have hgt : op ≠ "gt" := hne .gt
      have hlt : op ≠ "lt" := hne .lt
      simp [Command.comparison?, Command.isComparison, ho, heq, hgt, hlt]
  | _ => rfl

theorem functionNames_concat (cs : List Command) (c : Command) :
    functionNames (cs ++ [c]) = functionNames cs ++ c.function?.toList :=
  filterMap_concat Command.function? cs c

section Concat

variable {cs : List Command} {c : Command}

theorem sinceFunction_concat_of_none (h : c.function? = none) :
    sinceFunction (cs ++ [c]) = sinceFunction cs ++ [c] :=
  List.rtakeWhile_concat_pos _ _ _ (by rw [h]; rfl)

theorem sinceFunction_concat_of_some {f : String} (h : c.function? = some f) :
    sinceFunction (cs ++ [c]) = [] :=
  List.rtakeWhile_concat_neg _ _ _ (by rw [h]; exact Bool.false_ne_true)

theorem firstNumber_concat_of_none (h : c.function? = none) (start : Int) :
    firstNumber (cs ++ [c]) start = firstNumber cs start := by
  have hnames : functionNames (cs ++ [c]) = functionNames cs := by
    rw [functionNames_concat, h]
    exact List.append_nil _
  rw [firstNumber, hnames]
  rfl

theorem firstNumber_concat_of_some {f : String} (h : c.function? = some f) (start : Int) :
    firstNumber (cs ++ [c]) start = 1 := by
  rw [firstNumber, functionNames_concat, h]
  exact if_neg (List.append_ne_nil_of_right_ne_nil _ (List.cons_ne_nil f []))

end Concat

/-! ## The names of a writer -/

/-- Names that have been moved by commands since they were given. -/
structure Counted (start : Naming) (cs : List Command) (now : Naming) : Prop where
  unit : now.unit = start.unit
  /-- The function is the last one that a command began. -/
  function : now.function = (functionNames cs).getLast?.getD start.function
  comparisons : now.comparisons =
    firstNumber cs start.comparisons + comparisonCount (sinceFunction cs)
  calls : now.calls = firstNumber cs start.calls + callCount (sinceFunction cs)

theorem counted_nil (n : Naming) : Counted n [] n where
  unit := rfl
  function := rfl
  comparisons := (Int.add_zero _).symm
  calls := (Int.add_zero _).symm

/-- The step: a command that begins a function starts the counters again, and any other command
moves the counter of its kind, if there is one. -/
theorem Counted.after {start now : Naming} {cs : List Command} (h : Counted start cs now)
    (c : Command) : Counted start (cs ++ [c]) (now.after c) := by
  cases hf : c.function? with
  | none =>
    refine ⟨?_, ?_, ?_, ?_⟩
    · rw [unit_after, h.unit]
    · rw [function_after_of_none hf, functionNames_concat, hf, h.function]
      exact congrArg (fun names => names.getLast?.getD start.function) (List.append_nil _).symm
    · rw [comparisons_after hf, isSome_comparison?, h.comparisons,
        firstNumber_concat_of_none hf, sinceFunction_concat_of_none hf]
      simp [comparisonCount, List.countP_append, List.countP_singleton, Int.add_assoc]
    · rw [calls_after hf, h.calls, firstNumber_concat_of_none hf, sinceFunction_concat_of_none hf]
      simp [callCount, List.countP_append, List.countP_singleton, Int.add_assoc]
  | some f =>
    rw [after_of_function? now hf]
    refine ⟨h.unit, ?_, ?_, ?_⟩
    · rw [functionNames_concat, hf, Option.toList_some, List.getLast?_concat]
      rfl
    · rw [firstNumber_concat_of_some hf, sinceFunction_concat_of_some hf]
      rfl
    · rw [firstNumber_concat_of_some hf, sinceFunction_concat_of_some hf]
      rfl

/-- The run: whatever a writer is told, its names have been moved by the commands alone. -/
theorem counted_obeyAll (w : Writer) (orders : List Order) :
    Counted w.naming (commandsOf orders) (w.obeyAll orders).naming := by
  induction orders using List.reverseRecOn with
  | nil => exact counted_nil w.naming
  | append_singleton orders order ih =>
    have hcommands : commandsOf (orders ++ [order]) = commandsOf orders ++ order.command?.toList :=
      filterMap_concat Order.command? orders order
    rw [Writer.obeyAll_concat, hcommands]
    cases order with
    | submit c =>
      rw [Writer.obey, Writer.naming_submit, Order.command?]
      by_cases htext : c.HasText
      · rw [if_pos htext, if_pos htext]
        exact ih.after c
      · rw [if_neg htext, if_neg htext, Option.toList_none, List.append_nil]
        exact ih
    | bootstrap =>
      have hnone : Order.bootstrap.command? = none := rfl
      rw [hnone, Option.toList_none, List.append_nil, Writer.obey, Writer.naming_writeBootstrap]
      exact ih
    | redirect output =>
      have hnone : (Order.redirect output).command? = none := rfl
      rw [hnone, Option.toList_none, List.append_nil]
      exact ih

/-! ## The numbers in labels -/

/-- The labels that a command makes in its block, and loads there, all have the number for their
kind. -/
structure NumbersLabels (owner : String) (comparison call : Int) (c : Command) (lines : List Line) :
    Prop where
  compared : ∀ op, c = .arithmetic op → c.isComparison = true →
    labelNames lines =
        [owner ++ "$" ++ op.toUpper ++ "$TRUE." ++ toString comparison,
          owner ++ "$" ++ op.toUpper ++ "$END." ++ toString comparison] ∧
      jumpTargets lines = labelNames lines
  called : ∀ f args, c = .call f args →
    labelNames lines = [owner ++ "$ret." ++ toString call] ∧
      .symbol (owner ++ "$ret." ++ toString call) ∈ lines

theorem numbersLabels_block (n : Naming) (c : Command) :
    NumbersLabels n.owner n.comparisons n.calls c (c.block n).lines where
  compared := by
    rintro op rfl hcompares
    obtain ⟨o, ho⟩ := Option.isSome_iff_exists.mp ((isSome_comparison? _).trans hcompares)
    obtain ⟨hop, ho⟩ := Option.filter_eq_some_iff.mp ho
    obtain rfl := Operator.ofMnemonic?_eq_some_iff.mp hop
    have hcode : (Command.arithmetic o.mnemonic).code n = .ok (o.code n) := by
      rw [Command.code, hop]
    rw [block_of_code hcode]
    cases o with
    | eq => exact ⟨rfl, rfl⟩
    | gt => exact ⟨rfl, rfl⟩
    | lt => exact ⟨rfl, rfl⟩
    | _ => cases ho
  called := by
    rintro f args rfl
    refine ⟨rfl, ?_⟩
    have hload : Line.symbol n.returnLabel ∈ callCode f args n.returnLabel :=
      List.mem_cons_self
    exact List.mem_cons_of_mem _ hload

/-- Whatever a writer is told, each of its counters stands at the number with which the last
function began and one more for each command of its kind since then.  Each command on the way has
been given a block, whether or not the output took it, and the labels in that block have just the
number at which the counter stood.  Of a block with a number that is not printed only the beginning
has been offered to the output; a command without a text has done nothing at all. -/
theorem counters_exact (w : Writer) (orders : List Order) :
    Counted w.naming (commandsOf orders) (w.obeyAll orders).naming ∧
      ∀ before c after, orders = before ++ .submit c :: after →
        let now := w.obeyAll before
        let lines := (c.block now.naming).lines
        (¬ c.HasText → now.obey (.submit c) = now) ∧
        (c.HasText → ∃ offered, offered <+: lines ∧
          (c.Printed now.naming → offered = lines) ∧
          (now.obey (.submit c)).output = (now.output.write offered).1) ∧
        NumbersLabels now.naming.owner
          (firstNumber (commandsOf before) w.naming.comparisons +
            comparisonCount (sinceFunction (commandsOf before)))
          (firstNumber (commandsOf before) w.naming.calls +
            callCount (sinceFunction (commandsOf before))) c lines := by
  refine ⟨counted_obeyAll w orders, fun before c after _ => ?_⟩
  intro now lines
  have hbefore : Counted w.naming (commandsOf before) now.naming := counted_obeyAll w before
  refine ⟨fun htext => ?unsaid, fun htext => ?offered, ?numbered⟩
  case unsaid =>
    rw [Writer.obey, Writer.submit_of_not_hasText htext]
  case offered =>
    refine ⟨c.offered now.naming, isPrefix_offered _ c, offered_of_printed, ?_⟩
    rw [Writer.obey, Writer.output_submit, if_pos htext]
  case numbered =>
    rw [← hbefore.comparisons, ← hbefore.calls]
    exact numbersLabels_block _ c

/-- A call counts although its block is lost. -/
example : (Writer.obeyAll { naming := { unit := "Main" } }
    [.submit (.arithmetic "gt"), .submit (.function "f" 0), .bootstrap,
      .redirect { room := some 0 }, .submit (.call "g" 1), .submit (.other "Halt")]).naming =
        ⟨"Main", "f", 1, 2⟩ := by
  decide +kernel

end VmToHack
