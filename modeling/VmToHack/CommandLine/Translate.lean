import VmToHack.CommandLine.Transcript
set_option autoImplicit false

/-!
# Command line: the translator

The program `vmtranslate`.  It checks that there is something to translate, does the
job, and reports: the sources and totals on the output stream, the issues on the
error stream and, if wanted, in a file.

The exit code is 0 for a run without issues, 1 for one with issues, 2 if
there was nothing to translate, and 3 if a file could not be written.
-/

namespace VmToHack.CommandLine

open VmToHack.Text

/-- What the options of the translator mean. -/
inductive TranslateOption where
  | help | output | bootstrap | noBootstrap | jobs | errors | quiet
  deriving DecidableEq, Repr, Inhabited

/-- The options of the translator. -/
def translateSwitches : List (Switch TranslateOption) :=
  [⟨.help, ["-h", "--help"], false⟩, ⟨.output, ["-o", "--output"], true⟩,
   ⟨.bootstrap, ["--bootstrap"], false⟩, ⟨.noBootstrap, ["--no-bootstrap"], false⟩,
   ⟨.jobs, ["-j", "--jobs"], true⟩, ⟨.errors, ["--errors"], true⟩,
   ⟨.quiet, ["-q", "--quiet"], false⟩]

/-- How the translator is used. -/
def translateUsage : String :=
  "vmtranslate [-h] [-o OUTPUT] [--bootstrap | --no-bootstrap] [-j JOBS] [--errors ERRORS] " ++
    "[-q] input"

/-- What the arguments of the translator say. -/
structure TranslateSettings where
  help : Bool := false
  input : Option String := none
  output : Option String := none
  bootstrap : Option Bool := none
  /-- How many sources may be translated at a time.  The option may leave the number out. -/
  jobs : Option Int := some 1
  errors : Option String := none
  quiet : Bool := false
  deriving DecidableEq, Repr, Inhabited

/-- The settings after a choice between the two forms of output. -/
def TranslateSettings.choose (s : TranslateSettings) (start : Bool) (title other : String) :
    Except ArgumentFault TranslateSettings :=
  if s.bootstrap = some !start then .error (.excluded title other)
  else .ok { s with bootstrap := some start }

/-- The settings after one more option. -/
def TranslateSettings.apply (s : TranslateSettings) (switch : Switch TranslateOption)
    (value : Option String) : Except ArgumentFault TranslateSettings :=
  match switch.key with
  | .help => .ok { s with help := true }
  | .output => .ok { s with output := value }
  | .bootstrap => s.choose true "--bootstrap" "--no-bootstrap"
  | .noBootstrap => s.choose false "--no-bootstrap" "--bootstrap"
  | .jobs => (integerValue switch value).map fun n => { s with jobs := n }
  | .errors => .ok { s with errors := value }
  | .quiet => .ok { s with quiet := true }

/-- How the translator gets its settings. -/
def TranslateSettings.form : SettingsForm TranslateOption TranslateSettings where
  table := translateSwitches
  default := {}
  apply := TranslateSettings.apply
  operand s text := { s with input := some text }
  help s := s.help
  input s := s.input

/-- The settings that arguments lead to. -/
def TranslateSettings.ofArguments (arguments : List String) :
    Except ArgumentFault TranslateSettings :=
  TranslateSettings.form.ofArguments arguments

/-- An option whose value is the empty text counts as absent. -/
def nonempty? (value : Option String) : Option String := value.filter fun v => v ≠ ""

section

variable {m : Type → Type} [Monad m] (fs : FileSystem m)

/-- What there is to do: the sources, and where their output goes. -/
structure Plan where
  sources : List Path
  output : Path
  deriving DecidableEq, Repr, Inhabited

/-- The plan for an input, or why there is nothing to translate. -/
def translatePlan (s : TranslateSettings) (input : Path) :
    ExceptT FileFault m (Except String Plan) := do
  match ← fs.status input.text with
  | none => return .error ("input not found: " ++ input.text)
  | some kind =>
    if kind = .file && input.suffix ≠ sourceSuffix then
      return .error ("expected a " ++ sourceSuffix ++ " file: " ++ input.text)
    let sources ← collectSources fs input
    if sources.isEmpty then
      return .error ("no " ++ sourceSuffix ++ " files in " ++ input.text)
    match nonempty? s.output with
    | some output => return .ok ⟨sources, Path.ofString output⟩
    | none => return .ok ⟨sources, ← outputPath fs input⟩

/-- The words for a file that cannot be written. -/
def unwritable (path message : String) : String :=
  "[io error] cannot write " ++ path ++ ": " ++ message

/-- The text of the file of issues: a line for each. -/
def issueText (lines : List String) : String := String.join (lines.map fun l => l ++ "\n")

/-- What is printed when a job is done, and the exit code. -/
def translateReport (s : TranslateSettings) (location : List String) (report : Report) :
    List String × Nat :=
  (if s.quiet then []
   else ["OK. asm_written=/" ++ "/".intercalate location,
     "Files: " ++ toString report.sources.length ++ "; commands: " ++
       toString report.commands ++ "; errors: " ++ toString report.issues.length],
   if report.issues.isEmpty then 0 else 1)

/-- Reports what a job has done, and writes the issues to a file if that is wanted. -/
def concludeReport (s : TranslateSettings) (out : List String) (report : Report) :
    m Transcript := do
  let lines := report.issues.map Issue.format
  let location ← fs.resolve report.output.text
  let (summary, code) := translateReport s location report
  match nonempty? s.errors with
  | none => return { out := out ++ summary, err := lines, ending := .exit code }
  | some errors =>
    match ← (fs.writeTexts (Path.ofString errors).text [issueText lines]).run with
    | .ok () => return { out := out ++ summary, err := lines, ending := .exit code }
    | .error (.os e) =>
      return { out, err := lines ++ [unwritable errors e.message], ending := .exit 3 }
    | .error f => return { out, err := lines, ending := .failure (.file f) }

/-- Carries out a plan, with workers whose turns come in a given order. -/
def carryOut (s : TranslateSettings) (input : Path) (plan : Plan) (turns : List Nat := []) :
    m Transcript := do
  let out :=
    if s.quiet then []
    else plan.sources.map fun source => "[vmtranslate] translating " ++ source.text
  let some jobs := s.jobs | return { out, ending := .failure .jobsMissing }
  match ← ((Job.mk input (some plan.output) s.bootstrap).run fs (max 1 jobs) turns).run with
  | .ok report => concludeReport fs s out report
  | .error (.overlong o) => return { out, ending := .failure (.overlong o) }
  | .error (.nameless path) => return { out, ending := .failure (.nameless path) }
  | .error (.file .embeddedNull) => return { out, ending := .failure (.file .embeddedNull) }
  | .error (.file (.unencodable f)) => return { out, ending := .failure (.file (.unencodable f)) }
  | .error f =>
    return { out, err := [unwritable plan.output.text f.message], ending := .exit 3 }

/-- Runs the translator with given settings. -/
def translateWith (s : TranslateSettings) (turns : List Nat := []) : m Transcript := do
  let input := Path.ofString (s.input.getD "")
  match ← (translatePlan fs s input).run with
  | .error f => return { ending := .failure (.file f) }
  | .ok (.error obstacle) =>
    return { err := ["[vmtranslate] ERROR: " ++ obstacle], ending := .exit 2 }
  | .ok (.ok plan) => carryOut fs s input plan turns

/-- Runs the translator.  The turns are those of the workers, if there are several. -/
def translateProgram (arguments : List String) (turns : List Nat := []) : m Transcript :=
  match TranslateSettings.ofArguments arguments with
  | .error f => return Transcript.refusal "vmtranslate" f
  | .ok s =>
    if s.help then return Transcript.usage translateUsage else translateWith fs s turns

end

end VmToHack.CommandLine
