import Cinder.Arena
import Cinder.Codegen.Operation
import Cinder.Codegen.Program
import Cinder.Codegen.Routine
import Cinder.Codegen.Value
import Cinder.CommandLine.Files
import Cinder.CommandLine.Options
import Cinder.CommandLine.Path
import Cinder.CommandLine.Run
import Cinder.Compiler.Compile
import Cinder.Compiler.Log
import Cinder.Constant
import Cinder.Diagnostic
import Cinder.Failure
import Cinder.Fault
import Cinder.Float.Arithmetic
import Cinder.Float.Decimal
import Cinder.Float.Format
import Cinder.Flow.Dataflow
import Cinder.Flow.Graph
import Cinder.Flow.Graphviz
import Cinder.Flow.Instruction
import Cinder.Flow.Listing
import Cinder.Flow.Liveness
import Cinder.Flow.Lower
import Cinder.Flow.Optimize
import Cinder.Flow.Pass.Branches
import Cinder.Flow.Pass.DeadCode
import Cinder.Flow.Pass.Folding
import Cinder.Flow.Pass.Propagation
import Cinder.Flow.Reached
import Cinder.Machine.Assembly
import Cinder.Machine.Data
import Cinder.Machine.Instr
import Cinder.Machine.Register
import Cinder.Machine.Toolchain
import Cinder.Main
import Cinder.Operator
import Cinder.Placement.Allocate
import Cinder.Placement.Coloring
import Cinder.Placement.Frame
import Cinder.Placement.Interference
import Cinder.Placement.Location
import Cinder.Pool
import Cinder.Program.Basic
import Cinder.Program.Parse
import Cinder.Program.Scope
import Cinder.Program.ScopeStack
import Cinder.Proofs.Compiler.Optimization
import Cinder.Proofs.Except
import Cinder.Proofs.Flow.Agreement
import Cinder.Proofs.Flow.Branches
import Cinder.Proofs.Flow.Constants
import Cinder.Proofs.Flow.DeadCode
import Cinder.Proofs.Flow.Drafting
import Cinder.Proofs.Flow.Interpreter
import Cinder.Proofs.Flow.Lowering
import Cinder.Proofs.Flow.Optimizer
import Cinder.Proofs.Flow.Progress
import Cinder.Proofs.Flow.Refinement
import Cinder.Proofs.Flow.Rewrites
import Cinder.Proofs.Flow.Rewriting
import Cinder.Proofs.Flow.Semantics
import Cinder.Proofs.Flow.Shaping
import Cinder.Proofs.Flow.Temporaries
import Cinder.Proofs.Flow.Termination
import Cinder.Proofs.Flow.Walk
import Cinder.Proofs.Program.Scoping
import Cinder.Proofs.SymbolTable
import Cinder.Proofs.Typing.Checking
import Cinder.Proofs.Typing.Judgement
import Cinder.Proofs.Typing.Program
import Cinder.Proofs.Typing.Soundness
import Cinder.Symbol
import Cinder.SymbolTable
import Cinder.Text.Source
import Cinder.Text.Styled
import Cinder.Text.Terminal
import Cinder.Token.Basic
import Cinder.Token.Layout
import Cinder.Token.Scan
import Cinder.Ty
import Cinder.Typing.Check
import Cinder.Typing.Rules
import Cinder.Proofs.Compiler.Lowering
import Cinder.Proofs.Flow.Dataflow
import Cinder.Proofs.Flow.Liveness
import Cinder.Proofs.Placement.Interference
import Cinder.Proofs.Compiler.Control
import Cinder.Proofs.Flow.Normal
import Cinder.Proofs.Typing.Nodes
import Cinder.Proofs.Flow.Apart
import Cinder.Proofs.Flow.Destinations
import Cinder.Proofs.Flow.Idle
import Cinder.Proofs.Flow.Translation
import Cinder.Proofs.Flow.Confluence
import Cinder.Proofs.Compiler.Order
import Cinder.Proofs.Placement.Coloring
import Cinder.Proofs.Placement.Locations
import Cinder.Proofs.Placement.Safety
import Cinder.Proofs.Compiler.Idempotence
import Cinder.Proofs.Flow.Parameters
import Cinder.Proofs.Flow.Callees
import Cinder.Proofs.Compiler.Ready
import Cinder.Proofs.Placement.Frame
import Cinder.Proofs.Codegen.Placed
import Cinder.Proofs.Codegen.Selection
import Cinder.Proofs.Codegen.Routines
import Cinder.Proofs.Compiler.Survival
import Cinder.Proofs.Compiler.Totality
import Cinder.Proofs.Codegen.Labels
import Cinder.Proofs.Compiler.Linkage
import Cinder.Proofs.Machine.Execution
import Cinder.Proofs.Codegen.Movement
import Cinder.Proofs.Codegen.Passing
import Cinder.Proofs.Codegen.Pointers
import Cinder.Proofs.Compiler.Convention
import Cinder.Proofs.Flow.Lifetimes
import Cinder.Proofs.Compiler.SingleAssignment
import Cinder.Proofs.Compiler.Linear
import Cinder.Proofs.Program.Lexical
import Cinder.Proofs.Flow.Initialization
import Cinder.Proofs.Compiler.Initialization
import Cinder.Proofs.Flow.Fixpoint
import Cinder.Proofs.Flow.Paths
import Cinder.Proofs.Text.Spans
import Cinder.Proofs.Token.Scanning
import Cinder.Proofs.Token.Spans
import Cinder.Proofs.Program.Spans
import Cinder.Proofs.Compiler.Diagnostics
import Cinder.Proofs.Token.Phrases
import Cinder.Proofs.Token.Pages
import Cinder.Proofs.Program.Writing
import Cinder.Proofs.Program.Descent
import Cinder.Proofs.Program.Statements
import Cinder.Proofs.Program.RoundTrip
import Cinder.Proofs.Float.Truncation
import Cinder.Proofs.Machine.Arithmetic
import Cinder.Proofs.Constant
import Cinder.Proofs.Codegen.Constants
import Cinder.Proofs.Codegen.Arithmetic
import Cinder.Proofs.Codegen.Conversion
import Cinder.Proofs.Typing.Numerals
import Cinder.Proofs.Placement.Slots
import Cinder.Proofs.Compiler.Simplification
import Cinder.Proofs.Token.Indentation
import Cinder.Proofs.Token.Coverage
import Cinder.Proofs.Token.BlankLines
import Cinder.Proofs.Flow.Traversal
import Cinder.Proofs.Token.LogicalLines
