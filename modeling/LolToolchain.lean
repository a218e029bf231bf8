import LolToolchain.Text.CharName
import LolToolchain.Text.Quoted
import LolToolchain.Diagnostic.Report
import LolToolchain.Token.Items
import LolToolchain.Token.NameTable
import LolToolchain.Token.Reader
import LolToolchain.Numbar.Arithmetic
import LolToolchain.Numbar.Digits
import LolToolchain.Numbar.Reading
import LolToolchain.Program.Parser
import LolToolchain.Program.Simplify
import LolToolchain.Program.Walk
import LolToolchain.Bytecode.Opcode
import LolToolchain.Bytecode.Listing
import LolToolchain.Compile.Code
import LolToolchain.Machine.Step
import LolToolchain.Pipeline
import LolToolchain.Toml.Parser
import LolToolchain.Manifest
import LolToolchain.CommandLine.Command
import LolToolchain.Editor.Session
import LolToolchain.Main
import LolToolchain.Proofs.Code.Layout
import LolToolchain.Proofs.Machine.Snapshot
import LolToolchain.Proofs.Machine.Instruction
import LolToolchain.Proofs.Code.Computation
import LolToolchain.Proofs.Code.Expression
import LolToolchain.Proofs.Code.Statement
import LolToolchain.Proofs.Code.Run
import LolToolchain.Proofs.Code.Completion
import LolToolchain.Proofs.Code.Emission
import LolToolchain.Proofs.Code.Compilation
import LolToolchain.Proofs.Evaluation.Definitions
import LolToolchain.Proofs.Evaluation.Validity
import LolToolchain.Proofs.Evaluation.Soundness
import LolToolchain.Proofs.Code.Agreement
import LolToolchain.Proofs.Program.Criteria
import LolToolchain.Proofs.Text.Utf8
import LolToolchain.Proofs.Token.Validity
import LolToolchain.Proofs.Numbar.Basic
import LolToolchain.Proofs.Program.Parsing
import LolToolchain.Proofs.Code.Safety
import LolToolchain.Proofs.Numbar.Exact
import LolToolchain.Proofs.Cbor.Encoding
import LolToolchain.Proofs.Bytecode.Storage
import LolToolchain.Proofs.Bytecode.RoundTrip
import LolToolchain.Proofs.Bytecode.Canonical
import LolToolchain.Proofs.Bytecode.History
import LolToolchain.Proofs.Code.Contents
import LolToolchain.Proofs.Token.Items
import LolToolchain.Proofs.Code.Heights
import LolToolchain.Proofs.Code.Levels
import LolToolchain.Proofs.Code.Tracking
import LolToolchain.Proofs.Code.Invariant
import LolToolchain.Proofs.Code.Discipline
import LolToolchain.Proofs.Code.Reuse
import LolToolchain.Proofs.Code.Saving
import LolToolchain.Proofs.Code.Decoding
import LolToolchain.Proofs.Code.Termination
import LolToolchain.Proofs.Code.Isolation
import LolToolchain.Proofs.Machine.Depth
import LolToolchain.Proofs.Evaluation.Calculation
import LolToolchain.Proofs.Evaluation.Renaming
import LolToolchain.Proofs.Evaluation.Ordering
import LolToolchain.Proofs.Code.Calculation
import LolToolchain.Proofs.Code.Folding
import LolToolchain.Proofs.Token.Extents
import LolToolchain.Proofs.Token.Layout
import LolToolchain.Proofs.Token.Joining
import LolToolchain.Proofs.Program.Rendering
import LolToolchain.Proofs.Program.Reading
import LolToolchain.Proofs.Program.Lines
import LolToolchain.Proofs.Program.Inversion
import LolToolchain.Proofs.Program.Grammar
import LolToolchain.Proofs.Program.Consumption
import LolToolchain.Proofs.Program.Recognition
import LolToolchain.Proofs.Code.Erasure
import LolToolchain.Proofs.Code.Locations
import LolToolchain.Proofs.Code.Rendering
import LolToolchain.Proofs.Code.Bindings
import LolToolchain.Proofs.Code.Floors
import LolToolchain.Proofs.Editor.Delivery
import LolToolchain.Proofs.Program.Simplification
import LolToolchain.Proofs.Program.Sameness
import LolToolchain.Proofs.Code.Resolution
import LolToolchain.Proofs.Machine.Elements
import LolToolchain.Proofs.Text.Numeral
import LolToolchain.Proofs.Machine.Conversion
import LolToolchain.Proofs.Numbar.Value
import LolToolchain.Proofs.Machine.Equality
import LolToolchain.Proofs.Bytecode.Keys
import LolToolchain.Proofs.Bytecode.Sharing
import LolToolchain.Proofs.Source.Positions
import LolToolchain.Proofs.Code.Purity
import LolToolchain.Proofs.Code.Acceptance
import LolToolchain.Proofs.Code.Weaving
import LolToolchain.Proofs.Bytecode.Templates
import LolToolchain.Proofs.Bytecode.Ledger
import LolToolchain.Proofs.CommandLine.Builds
import LolToolchain.Proofs.Editor.Words
import LolToolchain.Proofs.Code.Optimization
