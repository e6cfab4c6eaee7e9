import VmToHack.CommandLine.Integer
import VmToHack.Text.Quoted
set_option autoImplicit false

/-!
# Command line: arguments

How a list of arguments falls into options and operands, given a table of switches.

* A switch has one or more names and takes a value or does not.  A long name may be
  shortened as long as one switch is meant.  The value is attached behind a sign `=`
  or is the next argument.
* Short names may be written together behind one dash, and what is attached to a
  switch that takes no value is read as more of them.  To the last of them its value
  is attached without a sign.
* A switch to which the lone `--` is attached is given without a value.
* An argument that looks like a negative number or holds a space is an operand,
  and so is everything behind a lone `--`.
* One operand is wanted.  Further ones are left over, as are unknown options.

The outcome is a list of events in the order in which they take effect, so that of
two faults the earlier one is reported, and the arguments that are left over.
-/

namespace VmToHack.CommandLine

open VmToHack.Text

/-- An option that a program understands. -/
structure Switch (κ : Type) where
  /-- What the option means to the program. -/
  key : κ
  /-- Its names, dashes included. -/
  names : List String
  takesValue : Bool
  deriving DecidableEq, Repr

/-- What a diagnostic calls a switch. -/
def Switch.title {κ : Type} (s : Switch κ) : String := "/".intercalate s.names

/-- Why arguments are refused. -/
inductive ArgumentFault where
  /-- a shortened name that could mean several switches -/
  | ambiguous (given : String) (candidates : List String)
  /-- a switch without its value -/
  | valueMissing (title : String)
  /-- a value for a switch that takes none -/
  | valueIgnored (title value : String)
  /-- a value that is no integer -/
  | noInteger (title value : String)
  /-- two switches that exclude each other; the second one met comes first -/
  | excluded (title other : String)
  /-- no operand -/
  | required (what : String)
  /-- arguments left over -/
  | leftOver (arguments : List String)
  deriving DecidableEq, Repr, Inhabited

/-- The words for a fault. -/
def ArgumentFault.message : ArgumentFault → String
  | .ambiguous given candidates =>
    "ambiguous option: " ++ given ++ " could match " ++ ", ".intercalate candidates
  | .valueMissing title => "argument " ++ title ++ ": expected one argument"
  | .valueIgnored title value =>
    "argument " ++ title ++ ": ignored explicit argument " ++ quoted value
  | .noInteger title value => "argument " ++ title ++ ": invalid int value: " ++ quoted value
  | .excluded title other => "argument " ++ title ++ ": not allowed with argument " ++ other
  | .required what => "the following arguments are required: " ++ what
  | .leftOver arguments => "unrecognized arguments: " ++ " ".intercalate arguments

/-! ## Classes of arguments -/

/-- An argument by its form. -/
inductive Token (κ : Type) where
  | operand (text : String)
  /-- the lone `--` behind which all is operand -/
  | divider
  /-- an option, with the text that is attached to its name -/
  | option (switch : Switch κ) (short : Bool) (attached : Option String)
  /-- an option that is in no table -/
  | unknown (text : String)
  deriving DecidableEq, Repr

section

variable {κ : Type} (table : List (Switch κ))

/-- Every name with its switch. -/
def names : List (String × Switch κ) := table.flatMap fun s => s.names.map fun name => (name, s)

/-- The switch with a name. -/
def named? (name : String) : Option (Switch κ) := (names table).lookup name

/-- A text in front of its first sign `=`, and the text behind it if there is one. -/
def splitValue (text : String) : String × Option String :=
  let cs := text.toList
  match cs.dropWhile (· ≠ '=') with
  | [] => (text, none)
  | _ :: value => (String.ofList (cs.takeWhile (· ≠ '=')), some (String.ofList value))

/-- What an option that is no full name can mean, with the name that is meant. -/
def candidates (text : String) : List (String × Token κ) :=
  match text.toList with
  | '-' :: '-' :: _ =>
    let (given, value) := splitValue text
    ((names table).filter fun (name, _) => given.toList.isPrefixOf name.toList).map
      fun (name, s) => (name, .option s false value)
  | '-' :: c :: cs =>
    match named? table (String.ofList ['-', c]) with
    | some s => [(String.ofList ['-', c], .option s true (some (String.ofList cs)))]
    | none => []
  | _ => []

/-- The class of an argument in front of the divider. -/
def classify (text : String) : Except ArgumentFault (Token κ) :=
  match text.toList with
  | '-' :: c :: _ =>
    match named? table text with
    | some s => .ok (.option s (c ≠ '-') none)
    | none =>
      let (given, value) := splitValue text
      match value.bind fun v => (named? table given).map fun s => (s, v) with
      | some (s, v) => .ok (.option s (c ≠ '-') (some v))
      | none =>
        match candidates table text with
        | [(_, token)] => .ok token
        | [] =>
          .ok (if looksNegative text || text.toList.contains ' ' then .operand text
            else .unknown text)
        | several => .error (.ambiguous text (several.map Prod.fst))
  | _ => .ok (.operand text)

/-- The classes of all arguments. -/
def tokens : List String → Except ArgumentFault (List (Token κ))
  | [] => .ok []
  | text :: texts =>
    if text = "--" then .ok (.divider :: texts.map .operand)
    else do
      let token ← classify table text
      let rest ← tokens texts
      return token :: rest

/-! ## Events -/

/-- Something that the arguments ask for. -/
inductive Event (κ : Type) where
  /-- a switch, with its value if it takes one and is given one -/
  | switch (s : Switch κ) (value : Option String)
  | operand (text : String)
  | fault (f : ArgumentFault)
  deriving DecidableEq, Repr

/-- What the arguments ask for, in order, and what is left over. -/
structure Request (κ : Type) where
  events : List (Event κ) := []
  leftOver : List String := []
  deriving DecidableEq, Repr

/-- One event more, in front. -/
def Request.cons (e : Event κ) (r : Request κ) : Request κ := { r with events := e :: r.events }

/-- Some switches without values more, in front. -/
def Request.pass (passed : List (Switch κ)) (r : Request κ) : Request κ :=
  { r with events := passed.map (fun s => .switch s none) ++ r.events }

/-- One argument more that is left over, in front. -/
def Request.leave (text : String) (r : Request κ) : Request κ :=
  { r with leftOver := text :: r.leftOver }

/-- What an option with the text attached to it comes to. -/
structure Resolved (κ : Type) where
  /-- The switches that are passed on the way, none of which takes a value. -/
  passed : List (Switch κ) := []
  /-- The last switch. -/
  last : Switch κ
  /-- The text that is attached to the last switch as its value. -/
  attached : Option String := none
  deriving DecidableEq, Repr

/-- One switch passed more, in front. -/
def Resolved.pass (s : Switch κ) (r : Resolved κ) : Resolved κ :=
  { r with passed := s :: r.passed }

/-- Takes short options that are written together apart: the first switch, and the
characters attached to it.  Each of them is a short name, up to the first switch that
takes a value. -/
def cluster (s : Switch κ) (cs : List Char) : Except ArgumentFault (Resolved κ) :=
  if s.takesValue then .ok { last := s, attached := some (String.ofList cs) }
  else
    match cs with
    | [] => .error (.valueIgnored s.title "")
    | c :: cs =>
      match named? table (String.ofList ['-', c]), cs with
      | none, cs => .error (.valueIgnored s.title (String.ofList (c :: cs)))
      | some next, [] => .ok { passed := [s], last := next }
      | some next, cs => (cluster next cs).map (Resolved.pass s)
termination_by cs.length

/-- Takes an option and the text attached to it apart. -/
def resolve (s : Switch κ) (short : Bool) : Option String → Except ArgumentFault (Resolved κ)
  | none => .ok { last := s }
  | some text =>
    if short then cluster table s text.toList
    else if s.takesValue then .ok { last := s, attached := some text }
    else .error (.valueIgnored s.title text)

/-- The value that an attached text gives: none, if the text is a lone `--`. -/
def attachedValue (text : String) : Option String := if text = "--" then none else some text

/-- Reads classified arguments; `served` says that the operand is there. -/
def request (served : Bool) : List (Token κ) → Request κ
  | [] => {}
  | .divider :: .operand text :: rest =>
    if served then (request served rest).leave text |>.leave "--"
    else (request true rest).cons (.operand text)
  | .divider :: rest => (request served rest).leave "--"
  | .operand text :: .divider :: rest =>
    if served then (request served rest).leave "--" |>.leave text
    else (request true rest).cons (.operand text)
  | .operand text :: rest =>
    if served then (request served rest).leave text
    else (request true rest).cons (.operand text)
  | .unknown text :: rest => (request served rest).leave text
  | .option s short attached :: rest =>
    match resolve table s short attached with
    | .error f => { events := [.fault f] }
    | .ok ⟨passed, last, some text⟩ =>
      ((request served rest).cons (.switch last (attachedValue text))).pass passed
    | .ok ⟨passed, last, none⟩ =>
      if last.takesValue then
        match rest with
        | .operand value :: rest =>
          ((request served rest).cons (.switch last (some value))).pass passed
        | _ => { events := [.fault (.valueMissing last.title)] }
      else ((request served rest).cons (.switch last none)).pass passed

/-- What a list of arguments asks for. -/
def Request.ofArguments (arguments : List String) : Request κ :=
  match tokens table arguments with
  | .error f => { events := [.fault f] }
  | .ok ts => request table false ts

end

/-- The integer that a switch is given, if it is given a value at all. -/
def integerValue {κ : Type} (s : Switch κ) : Option String → Except ArgumentFault (Option Int)
  | none => .ok none
  | some text =>
    match integer? text with
    | some n => .ok (some n)
    | none => .error (.noInteger s.title text)

/-! ## Settings -/

/-- How a program gets its settings from its arguments. -/
structure SettingsForm (κ σ : Type) where
  table : List (Switch κ)
  /-- The settings without any arguments. -/
  default : σ
  /-- The settings after one more option. -/
  apply : σ → Switch κ → Option String → Except ArgumentFault σ
  /-- The settings after the operand. -/
  operand : σ → String → σ
  /-- The settings ask for help, which ends the reading. -/
  help : σ → Bool
  /-- The operand, if it has been given. -/
  input : σ → Option String

section

variable {κ σ : Type} (form : SettingsForm κ σ)

/-- The settings that events lead to. -/
def SettingsForm.ofEvents (s : σ) : List (Event κ) → Except ArgumentFault σ
  | [] => .ok s
  | .fault f :: _ => .error f
  | .operand text :: events => SettingsForm.ofEvents (form.operand s text) events
  | .switch switch value :: events => do
    let s ← form.apply s switch value
    if form.help s then return s else SettingsForm.ofEvents s events

/-- The settings that arguments lead to. -/
def SettingsForm.ofArguments (arguments : List String) : Except ArgumentFault σ := do
  let r := Request.ofArguments form.table arguments
  let s ← form.ofEvents form.default r.events
  if form.help s then return s
  if (form.input s).isNone then throw (.required "input")
  if !r.leftOver.isEmpty then throw (.leftOver r.leftOver)
  return s

end

end VmToHack.CommandLine
