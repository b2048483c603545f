import Covenant.Main
import Covenant.Proofs.Machine.Word
import Covenant.Proofs.Machine.Operand
import Covenant.Proofs.Machine.Bytecode
import Covenant.Proofs.Machine.Execution
import Covenant.Proofs.Emission.Declarations
import Covenant.Proofs.Contract.Names
import Covenant.Proofs.Emission.Layout
import Covenant.Proofs.Emission.Execution
import Covenant.Proofs.Contract.Evaluation
import Covenant.Proofs.Compilation.Meaning
import Covenant.Proofs.Compilation.Initialization
import Covenant.Proofs.Compilation.Jumps
import Covenant.Proofs.Machine.StackHeight
import Covenant.Proofs.Emission.Relocation
import Covenant.Proofs.Compilation.Segments
import Covenant.Proofs.Compilation.StackHeight
import Covenant.Proofs.Compilation.Dispatch
import Covenant.Proofs.Contract.Tokens
import Covenant.Proofs.Contract.RoundTrip
import Covenant.Proofs.Text.Lines
import Covenant.Proofs.Text.Hex
import Covenant.Proofs.Assembly
import Covenant.Proofs.Emission.Notes
import Covenant.Proofs.Compilation.Artifact
import Covenant.Proofs.Machine.Decoding
import Covenant.Proofs.Assembly.Legibility
import Covenant.Proofs.Contract.Scoping
import Covenant.Proofs.Compilation.Verdict
import Covenant.Proofs.Contract.Lexing
import Covenant.Proofs.Contract.Grammar
import Covenant.Proofs.Contract.Soundness
import Covenant.Proofs.Json.Layout
import Covenant.Proofs.Json.Reader
import Covenant.Proofs.Artifact
import Covenant.Proofs.Contract.Completeness
import Covenant.Proofs.Contract.Precedence
import Covenant.Proofs.Contract.StatementEnd
import Covenant.Proofs.Contract.Renaming
import Covenant.Proofs.Compilation.Renaming
import Covenant.Proofs.MemoryMap.Definitions
import Covenant.Proofs.Compilation.MemoryLayout
import Covenant.Proofs.Contract.Pieces
import Covenant.Proofs.Contract.Spacing
import Covenant.Proofs.Contract.Replay
import Covenant.Proofs.Contract.Viability
import Covenant.Proofs.Contract.Mistakes
import Covenant.Proofs.Contract.Semicolons
import Covenant.Proofs.Shell
import Covenant.Proofs.Assembly.Positions
import Covenant.Proofs.Assembly.Composition
import Covenant.Proofs.Text.Numeral
import Covenant.Proofs.Assembly.Operands
import Covenant.Proofs.MemoryMap.Log
import Covenant.Proofs.SelectorTable
import Covenant.Proofs.Compilation.Shadowing
import Covenant.Translation
import Covenant.Proofs.Emission.Translation
import Covenant.Proofs.Compilation.Translation
