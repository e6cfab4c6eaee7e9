import VmToHack.Files.Path
import VmToHack.Files.System
import VmToHack.Text.Lines
import VmToHack.Text.Order
import VmToHack.Text.Utf8
import VmToHack.Lowering.Source
set_option autoImplicit false

/-!
# Lowering: files to a file

A job translates one source file, or all source files of a directory in the order of
their names, into one file of assembly.  Each source is translated on its own, with
names of its own, and the results are joined in order behind the block that starts a
program.  A source that cannot be read is an issue and contributes nothing.  Several
workers may translate sources at a time, each a step when its turn comes.

The output appears at its path only when it is complete: it is written next to it
under another name and then moved.  If the machine fails at that the file written is removed, and
whatever stood at the path is still there.
-/

namespace VmToHack

open VmToHack.Text VmToHack.Hack

/-- The suffix of a source file. -/
def sourceSuffix : String := ".vm"

/-- The suffix of a file of assembly. -/
def outputSuffix : String := ".asm"

/-- The ending of the name under which an output is written before it is moved. -/
def pendingSuffix : String := ".tmp"

/-- What a job is asked to do. -/
structure Job where
  /-- A source file, or a directory with source files. -/
  input : Path
  /-- The file to write, if it is not the one that goes with the input. -/
  output : Option Path := none
  /-- Whether the program starts with its own block; by default the output of a
  directory does and that of a file does not. -/
  bootstrap : Option Bool := none
  deriving DecidableEq, Repr, Inhabited

/-- Why a job has no report. -/
inductive JobFault where
  /-- a directory without source files -/
  | noSources (input : Path)
  | overlong (o : OverlongNumeral)
  /-- an output path that ends in no name -/
  | nameless (output : Path)
  /-- the input cannot be looked at, or the output cannot be written -/
  | file (f : FileFault)
  deriving DecidableEq, Repr, Inhabited

/-- The words for a fault. -/
def JobFault.message : JobFault → String
  | .noSources input => "no " ++ sourceSuffix ++ " files in " ++ input.text
  | .overlong o => o.message
  | .nameless output => "PosixPath(" ++ quoted output.text ++ ") has an empty name"
  | .file f => f.message

/-- What a job has done. -/
structure Report where
  output : Path
  sources : List Path
  issues : List Issue
  /-- The number of commands translated. -/
  commands : Nat
  deriving DecidableEq, Repr, Inhabited

/-- A report together with what is to be written. -/
structure Draft where
  report : Report
  /-- The pieces of the text, in the order in which they are written. -/
  texts : List String
  deriving DecidableEq, Repr, Inhabited

/-- The text that is to be written. -/
def Draft.text (draft : Draft) : String := String.join draft.texts

/-- What one source contributes. -/
structure Part where
  text : String := ""
  tally : Tally := {}
  deriving DecidableEq, Repr, Inhabited

/-- What a source contributes that cannot be read. -/
def Part.unreadable (file message : String) : Part where
  tally := { issues := [⟨.io, file, 0, "cannot read source: " ++ message, ""⟩] }

/-- What a text contributes. -/
def Part.ofText (file : String) (text : List Char) : Except OverlongNumeral Part :=
  match translateSource text file {} with
  | (w, .ok tally) => .ok ⟨w.output.text, tally⟩
  | (_, .error (.overlong o)) => .error o
  | (w, .error .closed) => .ok ⟨w.output.text, {}⟩

/-- What the reading of a source contributes.  A source that is not there or not text
is an issue; a path that is none ends the job. -/
def Part.ofContents (file : String) : Except FileFault (List UInt8) → Except JobFault Part
  | .error (.os e) => .ok (Part.unreadable file e.message)
  | .error f => .error (.file f)
  | .ok bytes =>
    match Utf8.decode bytes with
    | .error f => .ok (Part.unreadable file f.message)
    | .ok text => (Part.ofText file (normalizeBreaks text)).mapError .overlong

/-- The pieces of an output made of parts. -/
def assembleParts (bootstrap : Bool) (parts : List Part) : List String :=
  (if bootstrap then [render bootstrapBlock] else []) ++ parts.map Part.text

/-- How far a worker has taken a source. -/
inductive Stage where
  | waiting
  | fetched (contents : Except FileFault (List UInt8))
  | finished (result : Except JobFault Part)

/-- A source that a worker translates. -/
structure Task where
  source : Path
  stage : Stage := .waiting

/-- There is nothing left to do. -/
def Task.isFinished (t : Task) : Bool :=
  match t.stage with
  | .finished _ => true
  | _ => false

/-- The number of commands in all parts. -/
def countCommands : List Part → Nat
  | [] => 0
  | part :: parts => part.tally.commands + countCommands parts

section

variable {m : Type → Type} [Monad m] (fs : FileSystem m)

/-- The names of source files among some names, in order. -/
def sourceNames (names : List String) : List String :=
  sortTexts (names.filter fun name => (Path.splitName name).2 == sourceSuffix)

/-- The names among some names of a directory at which there is a file. -/
def fileNames (directory : Path) : List String → ExceptT FileFault m (List String)
  | [] => return []
  | name :: names => do
    let status ← fs.status (directory.child name).text
    let files ← fileNames directory names
    return if status = some .file then name :: files else files

/-- The sources of an input: the files of a directory, or else the input itself. -/
def collectSources (input : Path) : ExceptT FileFault m (List Path) := do
  match ← fs.status input.text with
  | some .directory =>
    let files ← fileNames fs input (← fs.list input.text)
    return (sourceNames files).map input.child
  | _ => return [input]

/-- The sources of an input, of which there must be one. -/
def requireSources (input : Path) : ExceptT JobFault m (List Path) := do
  let sources ← (collectSources fs input).adapt .file
  if sources.isEmpty then throw (.noSources input) else return sources

/-- The output that goes with an input: next to a file, and in a directory under the
directory's own name. -/
def outputPath (input : Path) : ExceptT FileFault m Path := do
  match ← fs.status input.text with
  | some .directory =>
    let location ← fs.resolve input.text
    return input.child ((location.getLast?).getD "" ++ outputSuffix)
  | _ => return input.withSuffix outputSuffix

/-- Translates sources in order, up to one that ends the job. -/
def translateSources : List Path → ExceptT JobFault m (List Part)
  | [] => return []
  | source :: sources => do
    let contents ← (fs.read source.text).run
    let part ← Part.ofContents source.name contents
    let parts ← translateSources sources
    return part :: parts

/-- Takes a source one step further. -/
def Task.advance (t : Task) : m Task := do
  match t.stage with
  | .waiting => return { t with stage := .fetched (← (fs.read t.source.text).run) }
  | .fetched contents =>
    return { t with stage := .finished (Part.ofContents t.source.name contents) }
  | .finished _ => return t

/-- What comes of a source, after the steps that are still to do. -/
def Task.result (t : Task) : m (Except JobFault Part) := do
  match t.stage with
  | .waiting => return Part.ofContents t.source.name (← (fs.read t.source.text).run)
  | .fetched contents => return Part.ofContents t.source.name contents
  | .finished result => return result

/-- Lets one worker take its source a step further.  The workers are at the first of the
sources that are not finished, each at one. -/
def advanceNth : Nat → List Task → m (List Task)
  | _, [] => return []
  | worker, t :: ts =>
    if t.isFinished then return t :: (← advanceNth worker ts)
    else
      match worker with
      | 0 => return (← t.advance fs) :: ts
      | worker + 1 => return t :: (← advanceNth worker ts)

/-- Lets workers take sources further, one worker at each turn. -/
def takeTurns (workers : Int) : List Nat → List Task → m (List Task)
  | [], ts => return ts
  | worker :: turns, ts => do
    let ts ← if (worker : Int) < workers then advanceNth fs worker ts else pure ts
    takeTurns workers turns ts

/-- Waits for tasks in order, up to one that ends the job. -/
def collectResults : List Task → ExceptT JobFault m (List Part)
  | [] => return []
  | t :: ts => do
    let part ← ExceptT.mk (t.result fs)
    let parts ← collectResults ts
    return part :: parts

/-- Translates sources with several workers at a time, whose turns may come in any order. -/
def translatePooled (workers : Int) (turns : List Nat) (sources : List Path) :
    ExceptT JobFault m (List Part) := do
  let waiting := sources.map fun source => { source }
  let tasks ← (takeTurns fs workers turns waiting : m (List Task))
  collectResults fs tasks

/-- Translates sources, with several workers if there is more than one source for them. -/
def translateAll (workers : Int) (turns : List Nat) (sources : List Path) :
    ExceptT JobFault m (List Part) :=
  if 1 < workers ∧ 1 < sources.length then translatePooled fs workers turns sources
  else translateSources fs sources

/-- Writes texts to a path by way of a second one, at which nothing is left if the machine reports
a failure.  A text that has no encoding is no failure of the machine: what stands in front of it is
left. -/
def save (pending output : Path) (texts : List String) : ExceptT FileFault m Unit :=
  tryCatch
    (do
      fs.writeTexts pending.text texts
      fs.rename pending.text output.text)
    fun
    | .os e => do
      fs.remove pending.text
      throw (.os e)
    | f => throw f

/-- The name under which an output is written before it is moved. -/
def Path.pending (output : Path) : Path := output.withName (output.name ++ pendingSuffix)

/-- The file that a job writes. -/
def Job.target (job : Job) : ExceptT FileFault m Path :=
  match job.output with
  | some output => pure output
  | none => outputPath fs job.input

/-- Does all of a job but the writing, with a number of workers whose turns come in a given
order. -/
def Job.draft (job : Job) (workers : Int) (turns : List Nat) : ExceptT JobFault m Draft := do
  let sources ← requireSources fs job.input
  let isDirectory := (← (fs.status job.input.text).adapt .file) == some .directory
  let output ← (job.target fs).adapt .file
  let parts ← translateAll fs workers turns sources
  if output.name = "" then throw (.nameless output)
  else return {
    texts := assembleParts (job.bootstrap.getD isDirectory) parts
    report := ⟨output, sources, parts.flatMap (·.tally.issues), countCommands parts⟩ }

/-- Does a job. -/
def Job.run (job : Job) (workers : Int := 1) (turns : List Nat := []) :
    ExceptT JobFault m Report := do
  let draft ← job.draft fs workers turns
  let output := draft.report.output
  (save fs output.pending output draft.texts).adapt .file
  return draft.report

end

end VmToHack
