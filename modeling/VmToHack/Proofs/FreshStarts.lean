import VmToHack.Proofs.Submissions
set_option autoImplicit false

/-!
# Fresh starts: what a function's start leaves behind

All that lowering carries from one command to the next is a `Naming`, and a function's start
keeps nothing of it but the unit.  So nothing that is submitted from there on depends on what stood
in front: not the blocks, not the faults, not the names, on whatever output
(`submits_of_startsFunction`).  A function with more locals than can be said is no start: it has no
text and leaves the writer as it is.

Commands that fall into chunks, each of which begins with a function, are therefore translated
chunk by chunk, in whatever order the chunks stand (`gather_flatten`).
`functions_translated_apart` says both about writers.
-/

namespace VmToHack

open VmToHack.Hack

/-- The first of some commands begins a function. -/
def StartsFunction (cs : List Command) : Prop :=
  ∃ name locals rest, FitsNumeral locals ∧ cs = .function name locals :: rest

/-! ## Runs of submissions -/

/-- Submits commands in order, and keeps for each of them the writer behind it and its fault. -/
def Writer.submits (w : Writer) : List Command → List (Writer × Option SubmitFault)
  | [] => []
  | c :: cs => w.submit c :: (w.submit c).1.submits cs

section Writers

variable {w w' : Writer}

theorem hasText_function_iff (name : String) (locals : Int) :
    (Command.function name locals).HasText ↔ FitsNumeral locals :=
  ⟨fun h => h locals rfl, fun h k hk => by cases hk; exact h⟩

/-- Writers that agree on the unit and on the output agree on all behind a function's start. -/
theorem submit_function_of_unit (hunit : w.naming.unit = w'.naming.unit)
    (houtput : w.output = w'.output) (name : String) {locals : Int} (hlocals : FitsNumeral locals) :
    w.submit (.function name locals) = w'.submit (.function name locals) := by
  have htext := (hasText_function_iff name locals).mpr hlocals
  rw [Writer.submit_of_hasText htext, Writer.submit_of_hasText htext]
  simp only [Writer.put, Command.offered, Command.cut?, Command.block, Command.code, Naming.enter,
    hunit, houtput]

variable {cs : List Command}

theorem submits_of_startsFunction (hunit : w.naming.unit = w'.naming.unit)
    (houtput : w.output = w'.output) (hstarts : StartsFunction cs) :
    w.submits cs = w'.submits cs := by
  obtain ⟨name, locals, rest, hlocals, rfl⟩ := hstarts
  rw [Writer.submits, submit_function_of_unit hunit houtput name hlocals, Writer.submits]

theorem submitAll_of_startsFunction (hunit : w.naming.unit = w'.naming.unit)
    (houtput : w.output = w'.output) (hstarts : StartsFunction cs) :
    w.submitAll cs = w'.submitAll cs := by
  obtain ⟨name, locals, rest, hlocals, rfl⟩ := hstarts
  rw [Writer.submitAll_cons, submit_function_of_unit hunit houtput name hlocals,
    Writer.submitAll_cons]

end Writers

/-! ## Chunks -/

/-- The names after a command that is submitted. -/
def Naming.submitted (n : Naming) (c : Command) : Naming := if c.HasText then n.after c else n

/-- What commands contribute one after the other, each by itself and the names at which it is
submitted. -/
def gather {α : Type} (contribution : Naming → Command → List α) (n : Naming) :
    List Command → List α
  | [] => []
  | c :: cs => contribution n c ++ gather contribution (n.submitted c) cs

theorem unit_submitted (n : Naming) (c : Command) : (n.submitted c).unit = n.unit := by
  unfold Naming.submitted
  split
  · exact unit_after n c
  · rfl

theorem submitted_function_of_unit {n n' : Naming} (hunit : n.unit = n'.unit) (name : String)
    {locals : Int} (hlocals : FitsNumeral locals) :
    n.submitted (.function name locals) = n'.submitted (.function name locals) := by
  have htext := (hasText_function_iff name locals).mpr hlocals
  rw [Naming.submitted, Naming.submitted, if_pos htext, if_pos htext]
  exact congrArg (fun unit => (⟨unit, name, 1, 1⟩ : Naming)) hunit

section Chunks

variable {α : Type} {contribution : Naming → Command → List α} {n n' : Naming}

/-- Behind some commands it goes on with the names that they leave. -/
theorem exists_gather_append (contribution : Naming → Command → List α) (n : Naming)
    (cs : List Command) : ∃ next : Naming, next.unit = n.unit ∧
      ∀ cs', gather contribution n (cs ++ cs') =
        gather contribution n cs ++ gather contribution next cs' := by
  induction cs generalizing n with
  | nil => exact ⟨n, rfl, fun _ => rfl⟩
  | cons c cs ih =>
    obtain ⟨next, hunit, happend⟩ := ih (n.submitted c)
    refine ⟨next, hunit.trans (unit_submitted n c), fun cs' => ?_⟩
    rw [List.cons_append, gather, happend, gather, List.append_assoc]

/-- A function's start contributes the same in one unit, whatever stood in front of it. -/
def FreshContribution (contribution : Naming → Command → List α) : Prop :=
  ∀ (n n' : Naming) (name : String) (locals : Int), n.unit = n'.unit → FitsNumeral locals →
    contribution n (.function name locals) = contribution n' (.function name locals)

theorem gather_of_startsFunction (hfresh : FreshContribution contribution)
    (hunit : n.unit = n'.unit) {cs : List Command} (hstarts : StartsFunction cs) :
    gather contribution n cs = gather contribution n' cs := by
  obtain ⟨name, locals, rest, hlocals, rfl⟩ := hstarts
  rw [gather, gather, hfresh n n' name locals hunit hlocals,
    submitted_function_of_unit hunit name hlocals]

/-- Chunks that begin with a function contribute one by one, each with any names of the unit. -/
theorem gather_flatten (hfresh : FreshContribution contribution) (hunit : n.unit = n'.unit)
    {chunks : List (List Command)} (hstarts : ∀ chunk ∈ chunks, StartsFunction chunk) :
    gather contribution n chunks.flatten =
      (chunks.map (gather contribution n')).flatten := by
  -- The names at the start of a chunk are those that the chunks before it leave.
  induction chunks generalizing n with
  | nil => rfl
  | cons chunk chunks ih =>
    obtain ⟨hchunk, hchunks⟩ := List.forall_mem_cons.mp hstarts
    obtain ⟨next, hnext, happend⟩ := exists_gather_append contribution n chunk
    rw [List.flatten_cons, happend, gather_of_startsFunction hfresh hunit hchunk,
      ih (hnext.trans hunit) hchunks, List.map_cons, List.flatten_cons]

end Chunks

/-! ## Outputs without a limit -/

/-- The blocks that commands leave on an output without a limit. -/
def writtenFrom (n : Naming) (cs : List Command) : List (List Line) :=
  (Writer.submitAll ⟨n, {}⟩ cs).output.blocks.toList

/-- The names behind each command, and its fault. -/
def reportsFrom (n : Naming) (cs : List Command) : List (Naming × Option SubmitFault) :=
  (Writer.submits ⟨n, {}⟩ cs).map fun x => (x.1.naming, x.2)

/-- The block of a command, if it has a text. -/
def blockAt (n : Naming) (c : Command) : List (List Line) :=
  if c.HasText then [c.offered n] else []

/-- The names behind a command, and its fault. -/
def reportAt (n : Naming) (c : Command) : List (Naming × Option SubmitFault) :=
  [(n.submitted c, (Writer.submit ⟨n, {}⟩ c).2)]

section Unlimited

variable {w : Writer}

/-- A submission onto an output without a limit. -/
theorem submit_eq_of_unlimited (hroom : w.output.room = none) (c : Command) :
    (w.submit c).1.naming = w.naming.submitted c ∧
      (w.submit c).1.output.blocks.toList = w.output.blocks.toList ++ blockAt w.naming c ∧
      (w.submit c).2 = (Writer.submit ⟨w.naming, {}⟩ c).2 := by
  refine ⟨Writer.naming_submit w c, ?_⟩
  by_cases htext : c.HasText
  · rw [Writer.submit_of_unlimited hroom htext, Writer.submit_of_unlimited rfl htext, blockAt,
      if_pos htext, Array.toList_push]
    exact ⟨rfl, rfl⟩
  · rw [Writer.submit_of_not_hasText htext, Writer.submit_of_not_hasText htext, blockAt,
      if_neg htext, List.append_nil]
    exact ⟨rfl, rfl⟩

theorem blocks_submitAll (hroom : w.output.room = none) (cs : List Command) :
    (w.submitAll cs).output.blocks.toList =
      w.output.blocks.toList ++ gather blockAt w.naming cs := by
  induction cs generalizing w with
  | nil => exact (List.append_nil _).symm
  | cons c cs ih =>
    obtain ⟨hnaming, hblocks, -⟩ := submit_eq_of_unlimited hroom c
    rw [Writer.submitAll_cons, ih (Writer.unlimited_submit hroom c), hnaming, hblocks, gather,
      List.append_assoc]

theorem map_submits (hroom : w.output.room = none) (cs : List Command) :
    (w.submits cs).map (fun x => (x.1.naming, x.2)) = gather reportAt w.naming cs := by
  induction cs generalizing w with
  | nil => rfl
  | cons c cs ih =>
    obtain ⟨hnaming, -, hfault⟩ := submit_eq_of_unlimited hroom c
    rw [Writer.submits, List.map_cons, ih (Writer.unlimited_submit hroom c), hnaming, hfault,
      gather]
    rfl

end Unlimited

theorem writtenFrom_eq (n : Naming) : writtenFrom n = gather blockAt n :=
  funext fun cs => blocks_submitAll rfl cs

theorem reportsFrom_eq (n : Naming) : reportsFrom n = gather reportAt n :=
  funext fun cs => map_submits rfl cs

/-- What is written and reported for some chunks one behind the other is what is written and
reported for each of them. -/
structure TranslatedApart (n n' : Naming) (chunks : List (List Command)) : Prop where
  written : writtenFrom n chunks.flatten = (chunks.map (writtenFrom n')).flatten
  reports : reportsFrom n chunks.flatten = (chunks.map (reportsFrom n')).flatten

theorem translatedApart {n n' : Naming} (hunit : n.unit = n'.unit) {chunks : List (List Command)}
    (hstarts : ∀ chunk ∈ chunks, StartsFunction chunk) : TranslatedApart n n' chunks := by
  constructor
  case written =>
    rw [writtenFrom_eq, writtenFrom_eq]
    refine gather_flatten (fun n n' name locals _ _ => ?_) hunit hstarts
    rfl
  case reports =>
    rw [reportsFrom_eq, reportsFrom_eq]
    refine gather_flatten (fun n n' name locals hunit hlocals => ?_) hunit hstarts
    have hsubmit := @submit_function_of_unit ⟨n, {}⟩ ⟨n', {}⟩ hunit rfl name locals hlocals
    rw [reportAt, reportAt, hsubmit, submitted_function_of_unit hunit name hlocals]

/-- From a function's start on nothing depends on the names in front of it, whatever the output:
every command leaves the same output and the same names, and reports the same fault.  So chunks
that begin with a function are translated apart, and in another order the same outputs come in that
order.  A function with more locals than can be said is not written, and changes nothing. -/
theorem functions_translated_apart {n n' : Naming} (hunit : n.unit = n'.unit) :
    (∀ (o : Output) (cs : List Command), StartsFunction cs →
      Writer.submits ⟨n, o⟩ cs = Writer.submits ⟨n', o⟩ cs ∧
        Writer.submitAll ⟨n, o⟩ cs = Writer.submitAll ⟨n', o⟩ cs) ∧
    (∀ (w : Writer) (name : String) (locals : Int), ¬ FitsNumeral locals →
      w.submit (.function name locals) = (w, some .overlong)) ∧
    ∀ chunks : List (List Command), (∀ chunk ∈ chunks, StartsFunction chunk) →
      TranslatedApart n n' chunks ∧
        ∀ chunks' : List (List Command), chunks'.Perm chunks →
          TranslatedApart n n' chunks' ∧
            (chunks'.map (writtenFrom n')).Perm (chunks.map (writtenFrom n')) := by
  refine ⟨fun o cs hstarts => ?same, fun w name locals hlong => ?unsaid,
    fun chunks hstarts => ?apart⟩
  case same =>
    exact ⟨submits_of_startsFunction hunit rfl hstarts,
      submitAll_of_startsFunction hunit rfl hstarts⟩
  case unsaid =>
    have htext := mt (hasText_function_iff name locals).mp hlong
    exact Writer.submit_of_not_hasText htext w
  case apart =>
    refine ⟨translatedApart hunit hstarts, fun chunks' hperm => ⟨?_, hperm.map _⟩⟩
    exact translatedApart hunit fun chunk hchunk => hstarts chunk (hperm.mem_iff.mp hchunk)

/-- A function that compares and has a command refused. -/
def comparingChunk : List Command :=
  [.function "f" 1, .arithmetic "eq", .pop "constant" 0, .arithmetic "gt"]

/-- A function that calls. -/
def callingChunk : List Command := [.function "g" 0, .call "f" 1, .ret]

/-- The two functions the other way round, behind a function that has made labels already. -/
theorem functions_translated_apart_swapped :
    TranslatedApart ⟨"Main", "Main.h", 4, 7⟩ { unit := "Main" } [callingChunk, comparingChunk] ∧
      ([callingChunk, comparingChunk].map (writtenFrom { unit := "Main" })).Perm
        ([comparingChunk, callingChunk].map (writtenFrom { unit := "Main" })) := by
  obtain ⟨-, -, hchunks⟩ :=
    @functions_translated_apart ⟨"Main", "Main.h", 4, 7⟩ { unit := "Main" } rfl
  have hstarts : ∀ chunk ∈ [comparingChunk, callingChunk], StartsFunction chunk := by
    simp only [List.mem_cons, List.not_mem_nil, or_false, forall_eq_or_imp, forall_eq]
    exact ⟨⟨_, _, _, by decide +kernel, rfl⟩, ⟨_, _, _, by decide +kernel, rfl⟩⟩
  exact (hchunks _ hstarts).2 _ (List.Perm.swap ..)

end VmToHack
