import HackStack.Machine
import HackStack.Main
import HackStack.Proofs.Compiler.Calls
import HackStack.Proofs.Compiler.Comparison
import HackStack.Proofs.Compiler.OutputLines
import HackStack.Proofs.Compiler.Resolution
import HackStack.Proofs.Source.Printing
import HackStack.Proofs.Compiler.Course
import HackStack.Proofs.Compiler.LimitedSink
import HackStack.Proofs.Compiler.Session
import HackStack.Proofs.Compiler.OwnLabels
import HackStack.Proofs.Compiler.Acceptance
import HackStack.Proofs.Compiler.StaticCells
import HackStack.Proofs.Compiler.Startup
import HackStack.Proofs.Compiler.FirstRejection
import HackStack.Proofs.Compiler.Renumbering
import HackStack.Proofs.Files.OutputFile
import HackStack.Proofs.Files.Sources
import HackStack.Proofs.Files.FileNames
import HackStack.Proofs.Files.Rerun
import HackStack.Proofs.Compiler.StackCommands
import HackStack.Proofs.Machine.Climbing
import HackStack.Proofs.Compiler.StraightLine
import HackStack.Proofs.Assembly.Declarations
import HackStack.Proofs.Source.Joining
import HackStack.Proofs.Files.Directories
import HackStack.Proofs.Compiler.FunctionEntry
import HackStack.Proofs.Compiler.HaltLoops
import HackStack.Proofs.Assembly.FirstUse
import HackStack.Proofs.Compiler.FirstOutput
import HackStack.Proofs.Source.Scanning
import HackStack.Proofs.Compiler.StaticSymbols
