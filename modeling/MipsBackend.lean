import MipsBackend.Main
import MipsBackend.Program.Builder
import MipsBackend.Proofs.Hierarchy.Tree
import MipsBackend.Proofs.Stateful
import MipsBackend.Proofs.Layout.Pass
import MipsBackend.Proofs.Assembly.Labels
import MipsBackend.Proofs.Layout.Records
import MipsBackend.Proofs.Layout.Ranges
import MipsBackend.Proofs.Layout.Dispatch
import MipsBackend.Proofs.Machine.Basic
import MipsBackend.Proofs.Code.Steps
import MipsBackend.Proofs.Machine.Sequences
import MipsBackend.Proofs.Machine.Convention
import MipsBackend.Proofs.Code.Trace
import MipsBackend.Proofs.Code.Typing
import MipsBackend.Proofs.Code.Paths
import MipsBackend.Proofs.Code.Heights
import MipsBackend.Proofs.Code.Bodies
import MipsBackend.Proofs.Layout.Protection
import MipsBackend.Proofs.Machine.Runs
import MipsBackend.Proofs.Code.Labels
import MipsBackend.Proofs.Code.Frames
import MipsBackend.Proofs.Code.Peaks
import MipsBackend.Proofs.Source.Expressions
import MipsBackend.Proofs.Source.Statements
import MipsBackend.Proofs.Source.WellFormed
import MipsBackend.Proofs.Execution.Control
import MipsBackend.Proofs.Execution.Values
import MipsBackend.Proofs.Execution.Expressions
import MipsBackend.Proofs.Execution.Statements
import MipsBackend.Proofs.Execution.Simulation
import MipsBackend.Proofs.Hierarchy.Subtyping
import MipsBackend.Proofs.Code.Progress
import MipsBackend.Proofs.Code.Generation
import MipsBackend.Proofs.Code.BodyGeneration
import MipsBackend.Proofs.Layout.Progress
import MipsBackend.Proofs.Layout.Coverage
import MipsBackend.Proofs.Compilation
import MipsBackend.Proofs.Json.Lexing
import MipsBackend.Proofs.Json.Parsing
import MipsBackend.Proofs.Json.Shapes
import MipsBackend.Proofs.Program.RoundTrip
import MipsBackend.Proofs.Assembly.Operands
import MipsBackend.Proofs.Code.References
import MipsBackend.Proofs.Code.BodyLabels
import MipsBackend.Proofs.Layout.References
import MipsBackend.Proofs.Assembly.Strings
import MipsBackend.Proofs.Layout.Literals
import MipsBackend.Proofs.Output
import MipsBackend.Proofs.Closure
import MipsBackend.Proofs.Assembly.Symbols
import MipsBackend.Proofs.Symbols
import MipsBackend.Proofs.Code.Breaks
import MipsBackend.Proofs.Variables.Points
import MipsBackend.Proofs.Variables.Tiling
import MipsBackend.Proofs.Variables.Aliasing
import MipsBackend.Proofs.Collection.Slots
import MipsBackend.Proofs.Collection.Contracts
import MipsBackend.Proofs.Collection.CallPoints
import MipsBackend.Proofs.Collection.Watch
import MipsBackend.Proofs.Collection.Operators
import MipsBackend.Proofs.Collection.Expressions
import MipsBackend.Proofs.Collection.Representation
import MipsBackend.Proofs.Code.Writes
import MipsBackend.Proofs.Writes
import MipsBackend.Proofs.Layout.Overrides
import MipsBackend.Proofs.Builder.Edits
import MipsBackend.Proofs.Builder.Nodes
import MipsBackend.Proofs.Builder.Links
import MipsBackend.Proofs.Builder.Runs
import MipsBackend.Proofs.Builder.Overrides
import MipsBackend.Proofs.Hierarchy.Paths
import MipsBackend.Proofs.Hierarchy.Worklist
import MipsBackend.Proofs.Hierarchy.Preorder
import MipsBackend.Proofs.Hierarchy.Reordering
import MipsBackend.Proofs.Layout.Objects
import MipsBackend.Proofs.Layout.Replay
import MipsBackend.Proofs.Layout.Siblings
import MipsBackend.Proofs.Ordering
import MipsBackend.Proofs.Emission.Emitter
import MipsBackend.Proofs.Emission.Schedules
import MipsBackend.Proofs.Interface
import MipsBackend.Proofs.Program.Canonical
import MipsBackend.Proofs.Machine.Accesses
import MipsBackend.Proofs.Accesses
import MipsBackend.Proofs.Spans
import MipsBackend.Proofs.Assembly.Streams
import MipsBackend.Proofs.Builder.Types
