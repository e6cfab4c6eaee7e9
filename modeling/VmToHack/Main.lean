import VmToHack.CommandLine.Listing
import VmToHack.CommandLine.Translate
set_option autoImplicit false

/-!
# The programs

The thin outer layer: the operations of `FileSystem` on the files of the machine, and
the two programs on its streams.  One executable serves both, and the name under
which it is started says which of them is meant.
-/

namespace VmToHack

/-- The number of an error, which some operations of the machine give negated. -/
def errorNumber (code : UInt32) : UInt32 := if code < 0x80000000 then code else -code

/-- The cause for which an error of the machine stands. -/
def OsCause.ofError : IO.Error → OsCause
  | .noFileOrDirectory _ _ _ => .notFound
  | .resourceBusy _ _ => .busy
  | .inappropriateType _ code text =>
    if errorNumber code = 20 then .notADirectory
    else if errorNumber code = 21 then .isADirectory
    else .other text
  | .invalidArgument _ code text => if errorNumber code = 36 then .tooLong else .other text
  | e => .other (toString e)

/-- Does something with a file and tells the cause if it fails. -/
def attempt {α : Type} (act : IO α) : IO (Except OsCause α) := do
  try return .ok (← act) catch e => return .error (OsCause.ofError e)

/-- Does something with the file at a path, and with its new path if it gets one. -/
def operate {α : Type} (path : String) (target : Option String) (act : IO α) :
    ExceptT FileFault IO α := do
  if holdsNull path || target.any holdsNull then throw .embeddedNull
  match ← attempt act with
  | .ok a => return a
  | .error cause => throw (.os ⟨cause, path, target⟩)

/-- What stands at a path, given how to ask the machine about it. -/
def machineStatus (path : String) (ask : IO IO.FS.Metadata) :
    ExceptT FileFault IO (Option EntryKind) := do
  if holdsNull path then return none
  match ← attempt ask with
  | .ok data =>
    match data.type with
    | .dir => return some .directory
    | .file => return some .file
    | _ => return none
  | .error cause => if cause.isAbsence then return none else throw (.os ⟨cause, path, none⟩)

/-- The files of the machine, seen from its current directory. -/
def machineFiles : IO (FileSystem IO) := do
  let here ← IO.currentDir
  let named (path : String) := { here with toString := path }
  return {
    status := fun path => machineStatus path (named path).metadata
    list := fun path => do
      match ← (operate path none do return (← (named path).readDir).toList).run with
      | .ok entries => return entries.map fun entry => entry.fileName
      | .error _ => return []
    read := fun path => operate path none do
      return (← IO.FS.readBinFile path).toList
    write := fun path contents => operate path none do
      IO.FS.writeBinFile path ⟨contents.toArray⟩
    rename := fun source target => operate source (some target) do
      IO.FS.rename source target
    remove := fun path => do
      let _ ← (operate path none do IO.FS.removeFile path).run
    resolve := fun path => do
      let whole ← try IO.FS.realPath path catch _ => pure (here / path)
      return (Path.ofString whole.toString).parts }

/-- Prints what a run leaves behind and gives its exit code. -/
def conclude (t : CommandLine.Transcript) : IO UInt32 := do
  t.out.forM IO.println
  t.err.forM IO.eprintln
  match t.ending with
  | .exit code => return code.toUInt32
  | .misused => return 2
  | .failure f =>
    IO.eprintln f.message
    return 1

end VmToHack

open VmToHack in
/-- Runs the program whose name the executable bears. -/
def main (arguments : List String) : IO UInt32 := do
  let files ← machineFiles
  let name := (← IO.appPath).fileStem
  if name = some "vmlang" then
    conclude (← CommandLine.listingProgram files arguments)
  else
    conclude (← CommandLine.translateProgram files arguments)
