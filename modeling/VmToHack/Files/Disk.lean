import VmToHack.Files.Path
import VmToHack.Files.System
set_option autoImplicit false

/-!
# Files: a disk

Files and directories as a value.  An entry is filed under its location, the names on
the way to it from the root; the root is a directory that needs no entry.  A written
path is walked from the root or from the current directory, and every place passed
on the way must be a directory, also the one that `..` leaves again.  Paths and their
components have a greatest length, counted in bytes.

`Disk.fileSystem` gives the operations of `FileSystem` their meaning on such a value.
-/

namespace VmToHack

/-- The names on the way from the root. -/
abbrev Location : Type := List String

/-- What a disk holds at a location. -/
inductive Entry where
  | file (contents : List UInt8)
  | directory
  deriving DecidableEq, Repr, Inhabited

/-- What an entry is. -/
def Entry.kind : Entry → EntryKind
  | .file _ => .file
  | .directory => .directory

/-- Files, directories, and the current directory. -/
structure Disk where
  current : Location := []
  entries : List (Location × Entry) := []
  deriving DecidableEq, Repr, Inhabited

namespace Disk

/-- The entry at a location. -/
def find? (d : Disk) (loc : Location) : Option Entry :=
  if loc = [] then some .directory else d.entries.lookup loc

/-- Puts an entry at a location, in place of one that is there. -/
def insert (d : Disk) (loc : Location) (e : Entry) : Disk :=
  { d with entries := (loc, e) :: d.entries.filter fun x => x.1 ≠ loc }

/-- Removes the entry at a location. -/
def erase (d : Disk) (loc : Location) : Disk :=
  { d with entries := d.entries.filter fun x => x.1 ≠ loc }

/-! ## Walking -/

/-- Where a component of a path leads from a location. -/
def follow (loc : Location) (component : String) : Location :=
  if component = "" || component = "." then loc
  else if component = ".." then loc.dropLast
  else loc ++ [component]

/-- The greatest number of bytes in a component of a path. -/
def nameLimit : Nat := 255

/-- The greatest number of bytes in a path. -/
def pathLimit : Nat := 4095

/-- Goes one component further, which only a directory allows. -/
def walk (d : Disk) (loc : Location) (component : String) : Except OsCause Location :=
  match d.find? loc with
  | none => .error .notFound
  | some (.file _) => .error .notADirectory
  | some .directory =>
    if component.utf8ByteSize ≤ nameLimit then .ok (follow loc component) else .error .tooLong

/-- Where the walk along a path starts. -/
def origin (d : Disk) (path : String) : Location :=
  if path.toList.head? = some '/' then [] else d.current

/-- The location of a path; the last component need not be there. -/
def locate (d : Disk) (path : String) : Except OsCause Location :=
  if path = "" then .error .notFound
  else if pathLimit < path.utf8ByteSize then .error .tooLong
  else (components path).foldlM d.walk (d.origin path)

/-! ## Operations -/

/-- What stands at a path. -/
def status (d : Disk) (path : String) : Except FileFault (Option EntryKind) :=
  if holdsNull path then .ok none
  else
    match d.locate path with
    | .ok loc => .ok ((d.find? loc).map Entry.kind)
    | .error cause => if cause.isAbsence then .ok none else .error (.os ⟨cause, path, none⟩)

/-- The names in a directory. -/
def list (d : Disk) (path : String) : List String :=
  match d.locate path with
  | .error _ => []
  | .ok loc => d.entries.filterMap fun x => if x.1.dropLast = loc then x.1.getLast? else none

/-- The contents of a file. -/
def read (d : Disk) (path : String) : Except FileFault (List UInt8) :=
  if holdsNull path then .error .embeddedNull
  else
    match d.locate path with
    | .error cause => .error (.os ⟨cause, path, none⟩)
    | .ok loc =>
      match d.find? loc with
      | none => .error (.os ⟨.notFound, path, none⟩)
      | some .directory => .error (.os ⟨.isADirectory, path, none⟩)
      | some (.file contents) => .ok contents

/-- Makes a file, in a directory that is there. -/
def write (d : Disk) (path : String) (contents : List UInt8) : Except FileFault Disk :=
  if holdsNull path then .error .embeddedNull
  else
    match d.locate path with
    | .error cause => .error (.os ⟨cause, path, none⟩)
    | .ok loc =>
      match d.find? loc with
      | some .directory => .error (.os ⟨.isADirectory, path, none⟩)
      | _ => .ok (d.insert loc (.file contents))

/-- The path ends in a component that names no entry of its own. -/
def endsInDots (path : String) : Bool :=
  match (components path).getLast? with
  | some last => last = "." || last = ".."
  | none => false

/-- Moves a file.  A directory is neither moved nor replaced. -/
def rename (d : Disk) (source target : String) : Except FileFault Disk :=
  let failure (cause : OsCause) : Except FileFault Disk :=
    .error (.os ⟨cause, source, some target⟩)
  if holdsNull source || holdsNull target then .error .embeddedNull
  else
    match d.locate source, d.locate target with
    | .error cause, _ => failure cause
    | .ok _, .error cause => failure cause
    | .ok here, .ok there =>
      if endsInDots target then failure .busy
      else
        match d.find? here, d.find? there with
        | none, _ => failure .notFound
        | some (.file contents), none => .ok ((d.erase here).insert there (.file contents))
        | some (.file contents), some (.file _) =>
          .ok ((d.erase here).insert there (.file contents))
        | _, _ => failure .isADirectory

/-- Removes a file if there is one. -/
def remove (d : Disk) (path : String) : Disk :=
  match d.locate path with
  | .error _ => d
  | .ok loc =>
    match d.find? loc with
    | some (.file _) => d.erase loc
    | _ => d

/-- The location of a path when every `..` cancels the component in front of it. -/
def resolve (d : Disk) (path : String) : Location :=
  (components path).foldl follow (d.origin path)

/-- Keeps the disk that an operation leaves, unless it fails. -/
def change (operation : Disk → Except FileFault Disk) : ExceptT FileFault (StateM Disk) Unit := do
  match operation (← get) with
  | .error f => throw f
  | .ok d => set d

/-- The operations of a file system on a disk. -/
def fileSystem : FileSystem (StateM Disk) where
  status path := do (← get).status path
  list path := do return (← get).list path
  read path := do (← get).read path
  write path contents := change fun d => d.write path contents
  rename source target := change fun d => d.rename source target
  remove path := modify fun d => d.remove path
  resolve path := do return (← get).resolve path

end Disk

/-! ## Mishaps -/

/-- What else goes wrong with a disk: operations that fail for causes of their own. -/
structure Mishaps where
  status : Disk → String → Option OsCause := fun _ _ => none
  read : Disk → String → Option OsCause := fun _ _ => none
  /-- How a write breaks off, and what the file holds then if it could be opened. -/
  write : Disk → String → List UInt8 → Option (Option (List UInt8) × OsCause) := fun _ _ _ => none
  rename : Disk → String → String → Option OsCause := fun _ _ _ => none

/-- The operations of a file system on a disk on which mishaps happen, and on which characters of
names may stand for stray bytes. -/
def Disk.fragile (x : Mishaps) (stray : Text.Utf8.StandIns := []) : FileSystem (StateM Disk) :=
  { Disk.fileSystem with
    stray
    status := fun path => do
      match x.status (← get) path with
      | some cause => throw (.os ⟨cause, path, none⟩)
      | none => Disk.fileSystem.status path
    read := fun path => do
      match x.read (← get) path with
      | some cause => throw (.os ⟨cause, path, none⟩)
      | none => Disk.fileSystem.read path
    write := fun path contents => do
      match x.write (← get) path contents with
      | some (some written, cause) =>
        Disk.fileSystem.write path written
        throw (.os ⟨cause, path, none⟩)
      | some (none, cause) => throw (.os ⟨cause, path, none⟩)
      | none => Disk.fileSystem.write path contents
    rename := fun source target => do
      match x.rename (← get) source target with
      | some cause => throw (.os ⟨cause, source, some target⟩)
      | none => Disk.fileSystem.rename source target }

/-- Without mishaps the operations are the usual ones. -/
theorem Disk.fragile_none : Disk.fragile {} = Disk.fileSystem := by rfl

end VmToHack
