import Pseudocode.Main
import Pseudocode.Proofs.Code.Relexing
import Pseudocode.Proofs.Grammar.Acceptance
import Pseudocode.Proofs.Lexical.Positions
import Pseudocode.Proofs.Scope.Simulation
import Pseudocode.Proofs.Typing.Equations
import Pseudocode.Proofs.Conversion.Questions
import Pseudocode.Proofs.Layout.Invariance
import Pseudocode.Proofs.CommandLine.Interaction
import Pseudocode.Proofs.Viability.Continuations
import Pseudocode.Proofs.Code.Operands
import Pseudocode.Proofs.Lexical.Faults
import Pseudocode.Proofs.Viability.Following
import Pseudocode.Proofs.Viability.Reports
import Pseudocode.Proofs.Lexical.Lines
import Pseudocode.Proofs.Code.Unresolved
import Pseudocode.Proofs.Code.Inline
import Pseudocode.Proofs.Code.Signs
import Pseudocode.Proofs.Code.Indentation
import Pseudocode.Proofs.Lexical.Spacing
import Pseudocode.Proofs.Report.Caret
import Pseudocode.Proofs.Code.Floats
import Pseudocode.Proofs.OnePass.Groups
import Pseudocode.Proofs.Indexed.Tokens
import Pseudocode.Proofs.Indexed.Progress
