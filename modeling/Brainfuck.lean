import Brainfuck.Structured.Code
import Brainfuck.Structured.Semantics
import Brainfuck.Proofs.Source.Blocks
import Brainfuck.Proofs.Source.Merging
import Brainfuck.Proofs.Structured.Expansion
import Brainfuck.Proofs.Bytecode.Diagnosis
import Brainfuck.Proofs.Bytecode.Nesting
import Brainfuck.Proofs.Bytecode.Resolution
import Brainfuck.Proofs.Structured.Execution
import Brainfuck.Proofs.Compilation.Invariance
import Brainfuck.Proofs.Artifact.RoundTrip
import Brainfuck.Proofs.Artifact.Minimality
import Brainfuck.Proofs.Machine.Position
import Brainfuck.Proofs.Machine.Checking
import Brainfuck.Proofs.Machine.Safety
import Brainfuck.Proofs.Machine.Growth
import Brainfuck.Proofs.Bytecode.Targets
import Brainfuck.Proofs.Machine.Discipline
import Brainfuck.Proofs.Machine.Limit
import Brainfuck.Proofs.Machine.Interruption
import Brainfuck.Proofs.Machine.ReadAhead
import Brainfuck.Proofs.Disk.Storing
import Brainfuck.Proofs.CommandLine.Contract
import Brainfuck.Main
