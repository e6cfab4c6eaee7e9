import VmToHack.Text.Quoted
import VmToHack.Text.Utf8
set_option autoImplicit false

/-!
# Files: what a program asks of a file system

The few operations that a job needs, as a record over a monad, so that the
same program runs on the files of a machine and on a value that describes files.
Paths are given as they are written.  An operation that fails says why; the error
names the path, and of a rename both paths.

A path with a null character is no path at all: it is turned down before any file
is looked for, and nothing can stand there.

A file's name may hold bytes that are no text.  The names that come from a file system are texts
all the same: a character stands for such a byte there.  A text that has taken in a character of
this sort cannot be written to a file.
-/

namespace VmToHack

open VmToHack.Text

/-- Why a file operation fails. -/
inductive OsCause where
  /-- the file, or a directory on the way to it, is not there -/
  | notFound
  /-- the target of a rename is in use as a directory -/
  | busy
  /-- a file stands where a directory is needed -/
  | notADirectory
  /-- a directory stands where a file is needed -/
  | isADirectory
  /-- a path or one of its components is longer than any can be -/
  | tooLong
  /-- anything else that a machine reports -/
  | other (text : String)
  deriving DecidableEq, Repr, Inhabited

/-- The words for a cause, with its customary number. -/
def OsCause.text : OsCause → String
  | .notFound => "[Errno 2] No such file or directory"
  | .busy => "[Errno 16] Device or resource busy"
  | .notADirectory => "[Errno 20] Not a directory"
  | .isADirectory => "[Errno 21] Is a directory"
  | .tooLong => "[Errno 36] File name too long"
  | .other text => text

/-- A file operation that failed. -/
structure OsError where
  cause : OsCause
  path : String
  /-- The new name, if the operation was a rename. -/
  target : Option String := none
  deriving DecidableEq, Repr, Inhabited

/-- The words for an error. -/
def OsError.message (e : OsError) : String :=
  e.cause.text ++ ": " ++ quoted e.path ++ (e.target.map fun t => " -> " ++ quoted t).getD ""

/-- The cause says that nothing is there, and so answers the question what is. -/
def OsCause.isAbsence : OsCause → Bool
  | .notFound | .notADirectory => true
  | _ => false

/-- Why an operation on a file comes to nothing. -/
inductive FileFault where
  /-- the path holds a null character -/
  | embeddedNull
  /-- the text to be written has characters that stand for stray bytes -/
  | unencodable (f : Utf8.EncodeFault)
  | os (e : OsError)
  deriving DecidableEq, Repr, Inhabited

/-- The words for a fault. -/
def FileFault.message : FileFault → String
  | .embeddedNull => "embedded null byte"
  | .unencodable f => f.message
  | .os e => e.message

/-- Whether a path holds a null character. -/
def holdsNull (path : String) : Bool := path.toList.contains '\x00'

/-- What stands at a path. -/
inductive EntryKind where
  | file | directory
  deriving DecidableEq, Repr, Inhabited

/-- The operations of a file system. -/
structure FileSystem (m : Type → Type) where
  /-- The characters of names that stand for bytes that are no text. -/
  stray : Utf8.StandIns := []
  /-- What stands at a path, if anything can be reached there. -/
  status : String → ExceptT FileFault m (Option EntryKind)
  /-- The names in a directory, in any order. -/
  list : String → m (List String)
  /-- The contents of a file. -/
  read : String → ExceptT FileFault m (List UInt8)
  /-- Makes a file with given contents, in place of one that is there. -/
  write : String → List UInt8 → ExceptT FileFault m Unit
  /-- Moves a file to another path, in place of a file that is there. -/
  rename : String → String → ExceptT FileFault m Unit
  /-- Removes a file; one that is not there is no error, and neither is a directory. -/
  remove : String → m Unit
  /-- The components of the absolute path, without `..`. -/
  resolve : String → m (List String)

/-- Writes texts one after the other to a file, up to one that has no encoding. -/
def FileSystem.writeTexts {m : Type → Type} [Monad m] (fs : FileSystem m) (path : String)
    (texts : List String) : ExceptT FileFault m Unit := do
  fs.write path (Utf8.encode (String.join (Utf8.encodable fs.stray texts)))
  match texts.findSome? (Utf8.encodeFault? fs.stray) with
  | some f => throw (.unencodable f)
  | none => return ()

end VmToHack
