import VmToHack.Main
import VmToHack.CommandReader
import VmToHack.Files.Disk
import VmToHack.Hack.Machine
import VmToHack.Proofs.Refinement
import VmToHack.Proofs.LabelClashes
import VmToHack.Proofs.LineGrammar
import VmToHack.Proofs.SourceLines
import VmToHack.Proofs.Ledger
import VmToHack.Proofs.OverlongLines
import VmToHack.Proofs.StaticCells
import VmToHack.Proofs.Spelling
import VmToHack.Proofs.InertLines
import VmToHack.Proofs.Locations
import VmToHack.Proofs.DiskChanges
import VmToHack.Proofs.Runs
import VmToHack.Proofs.JobRuns
import VmToHack.Proofs.DirectoryOutput
import VmToHack.Proofs.AssemblyText
import VmToHack.Proofs.Comparisons
import VmToHack.Proofs.LoadedNumbers
import VmToHack.Proofs.ProgramRuns
import VmToHack.Proofs.Contracts
import VmToHack.Proofs.Arithmetic
import VmToHack.Proofs.StackMoves
import VmToHack.Proofs.Refusals
import VmToHack.Proofs.ClosedOutput
import VmToHack.Proofs.FreshStarts
import VmToHack.Proofs.Scopes
import VmToHack.Proofs.Prologue
import VmToHack.Proofs.Diagnostics
import VmToHack.Proofs.Lexemes
import VmToHack.Proofs.Agreement
import VmToHack.Proofs.SyntaxErrors
import VmToHack.Proofs.Handouts
import VmToHack.Proofs.ForeignCharacters
import VmToHack.Proofs.Concatenation
import VmToHack.Proofs.Comments
import VmToHack.Proofs.Counters
import VmToHack.Proofs.Pulls
