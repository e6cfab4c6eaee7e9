import VmToHack.CommandLine.Arguments
import VmToHack.Files.Fetch
import VmToHack.Lowering.Job
set_option autoImplicit false

/-!
# Command line: transcripts

What a run of a program leaves behind on its two streams, and how it ends: with an
exit code, by turning its arguments down, or with a failure for which it has no exit
code of its own.
-/

namespace VmToHack.CommandLine

/-- A failure that ends a program outright. -/
inductive Failure where
  | overlong (o : OverlongNumeral)
  /-- an output path that ends in no name -/
  | nameless (output : Path)
  /-- a file cannot be looked at, opened or written -/
  | file (f : FileFault)
  /-- the input cannot be read as text -/
  | fetch (f : FetchFault)
  /-- a block size that no machine word holds -/
  | blockSize
  /-- a number of jobs that is asked for and not given -/
  | jobsMissing
  /-- a block size that is asked for and not given -/
  | blockSizeMissing
  deriving DecidableEq, Repr, Inhabited

/-- The words for a failure. -/
def Failure.message : Failure → String
  | .overlong o => o.message
  | .nameless output => (JobFault.nameless output).message
  | .file f => f.message
  | .fetch f => f.message
  | .blockSize => "cannot fit 'int' into an index-sized integer"
  | .jobsMissing => "'>' not supported between instances of 'list' and 'int'"
  | .blockSizeMissing => "argument should be integer or None, not 'list'"

/-- How a run ends. -/
inductive Ending where
  | exit (code : Nat)
  /-- the arguments are turned down, which exits with the code 2 -/
  | misused
  | failure (f : Failure)
  deriving DecidableEq, Repr, Inhabited

/-- What a run leaves behind. -/
structure Transcript where
  /-- The lines on the output stream. -/
  out : List String := []
  /-- The lines on the error stream. -/
  err : List String := []
  ending : Ending
  deriving DecidableEq, Repr, Inhabited

/-- A run that turns its arguments down. -/
def Transcript.refusal (program : String) (f : ArgumentFault) : Transcript where
  err := [program ++ ": error: " ++ f.message]
  ending := .misused

/-- A run that tells how the program is used. -/
def Transcript.usage (line : String) : Transcript where
  out := ["usage: " ++ line]
  ending := .exit 0

end VmToHack.CommandLine
