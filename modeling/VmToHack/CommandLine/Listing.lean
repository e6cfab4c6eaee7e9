import VmToHack.CommandLine.Transcript
set_option autoImplicit false

/-!
# Command line: the listing

The program `vmlang`.  It reads one source and lists its commands in their canonical
spelling, or its lexemes.  Errors go to the error stream; the exit code is 2 if there
are any in a listing of commands, and 0 otherwise.
-/

namespace VmToHack.CommandLine

open VmToHack.Text

/-- What the options of the listing mean. -/
inductive ListingOption where
  | help | tokens | buffer
  deriving DecidableEq, Repr, Inhabited

/-- The options of the listing. -/
def listingSwitches : List (Switch ListingOption) :=
  [⟨.help, ["-h", "--help"], false⟩, ⟨.tokens, ["--tokens"], false⟩,
   ⟨.buffer, ["--buf"], true⟩]

/-- How the listing is used. -/
def listingUsage : String := "vmlang [-h] [--tokens] [--buf BUF] input"

/-- What the arguments of the listing say. -/
structure ListingSettings where
  help : Bool := false
  input : Option String := none
  tokens : Bool := false
  /-- How many characters are asked for at a time: all of them if the number is
  negative, and none at all if it is zero.  The option may leave the number out. -/
  buffer : Option Int := some 65536
  deriving DecidableEq, Repr, Inhabited

/-- The settings after one more option. -/
def ListingSettings.apply (s : ListingSettings) (switch : Switch ListingOption)
    (value : Option String) : Except ArgumentFault ListingSettings :=
  match switch.key with
  | .help => .ok { s with help := true }
  | .tokens => .ok { s with tokens := true }
  | .buffer => (integerValue switch value).map fun n => { s with buffer := n }

/-- How the listing gets its settings. -/
def ListingSettings.form : SettingsForm ListingOption ListingSettings where
  table := listingSwitches
  default := {}
  apply := ListingSettings.apply
  operand s text := { s with input := some text }
  help s := s.help
  input s := s.input

/-- The settings that arguments lead to. -/
def ListingSettings.ofArguments (arguments : List String) : Except ArgumentFault ListingSettings :=
  ListingSettings.form.ofArguments arguments

/-- The text of a file that is read with a given buffer. -/
def bufferedText (buffer : Option Int) (bytes : List UInt8) : Except Failure (List Char) :=
  match buffer with
  | none => .error .blockSizeMissing
  | some size =>
    if size < -(wordBound : Int) || (wordBound : Int) ≤ size then .error .blockSize
    else if size = 0 then .ok []
    else
      let text :=
        if size < 0 then (Utf8.decode bytes).mapError .undecodable else fetch size.toNat bytes
      (text.mapError .fetch).map normalizeBreaks

/-- The line that shows a lexeme. -/
def lexemeLine (l : Lexeme) : String :=
  toString l.line ++ ":" ++ toString l.column ++ "\t" ++ l.kind.name ++ "\t" ++
    String.ofList l.value

/-- The line that reports an error. -/
def diagnosticLine (d : Diagnostic) : String :=
  "[parse error] line=" ++ toString d.line ++ " col=" ++ toString d.error.column ++ ": " ++
    d.error.fault.message

/-- The listing of a text. -/
def listText (tokens : Bool) (text : List Char) : Transcript :=
  if tokens then { out := (scan text).map lexemeLine, ending := .exit 0 }
  else
    match readProgram text with
    | .error o => { ending := .failure (.overlong o) }
    | .ok p =>
      { out := p.commands.map Command.text, err := p.errors.map diagnosticLine,
        ending := .exit (if p.errors.isEmpty then 0 else 2) }

section

variable {m : Type → Type} [Monad m] (fs : FileSystem m)

/-- Runs the listing. -/
def listingProgram (arguments : List String) : m Transcript := do
  match ListingSettings.ofArguments arguments with
  | .error f => return Transcript.refusal "vmlang" f
  | .ok s =>
    if s.help then return Transcript.usage listingUsage
    match ← (fs.read (s.input.getD "")).run with
    | .error f => return { ending := .failure (.file f) }
    | .ok bytes =>
      match bufferedText s.buffer bytes with
      | .error f => return { ending := .failure f }
      | .ok text => return listText s.tokens text

end

end VmToHack.CommandLine
