import SsaCodegen.Decimal.Binary64
import SsaCodegen.Decimal.Significant
import SsaCodegen.Diagnostic
import SsaCodegen.Emit.Emission
import SsaCodegen.Failure
import SsaCodegen.Flow.Cache
import SsaCodegen.Flow.Dominators
import SsaCodegen.Flow.Graph
import SsaCodegen.Flow.Liveness
import SsaCodegen.Flow.Loops
import SsaCodegen.Flow.Rows
import SsaCodegen.Flow.Search
import SsaCodegen.Flow.Words
import SsaCodegen.Ir.Builder
import SsaCodegen.Ir.Condition
import SsaCodegen.Ir.Func
import SsaCodegen.Ir.Inst
import SsaCodegen.Ir.Opcode
import SsaCodegen.Ir.Printer
import SsaCodegen.Ir.Ty
import SsaCodegen.Ir.Value
import SsaCodegen.Opt.CompareBranch
import SsaCodegen.Opt.ConstantFold
import SsaCodegen.Opt.DeadCode
import SsaCodegen.Opt.LoopInvariant
import SsaCodegen.Opt.NanGuard
import SsaCodegen.Opt.Unreachable
import SsaCodegen.Opt.ValueKey
import SsaCodegen.Opt.ValueNumbering
import SsaCodegen.Pipeline.Session
import SsaCodegen.Pipeline.Stage
import SsaCodegen.Proofs.Encoding.Decoder
import SsaCodegen.Proofs.Encoding.Parts
import SsaCodegen.Proofs.Encoding.RoundTrip
import SsaCodegen.Proofs.Execution.Arithmetic
import SsaCodegen.Proofs.Execution.Conditions
import SsaCodegen.Proofs.Execution.Defined
import SsaCodegen.Proofs.Execution.Equations
import SsaCodegen.Proofs.Execution.Machine
import SsaCodegen.Proofs.Execution.Motion
import SsaCodegen.Proofs.Execution.Routes
import SsaCodegen.Proofs.Execution.Semantics
import SsaCodegen.Proofs.Execution.Simulation
import SsaCodegen.Proofs.Execution.Stutter
import SsaCodegen.Proofs.Flow.Cache
import SsaCodegen.Proofs.Flow.Closed
import SsaCodegen.Proofs.Flow.Dominance
import SsaCodegen.Proofs.Flow.Entry
import SsaCodegen.Proofs.Flow.Faithful
import SsaCodegen.Proofs.Flow.Forest
import SsaCodegen.Proofs.Flow.Interpose
import SsaCodegen.Proofs.Flow.Labels
import SsaCodegen.Proofs.Flow.LiveRounds
import SsaCodegen.Proofs.Flow.LiveSets
import SsaCodegen.Proofs.Flow.Liveness
import SsaCodegen.Proofs.Flow.LivenessByPaths
import SsaCodegen.Proofs.Flow.Loops
import SsaCodegen.Proofs.Flow.LoopsByPaths
import SsaCodegen.Proofs.Flow.Paths
import SsaCodegen.Proofs.Flow.Refinement
import SsaCodegen.Proofs.Flow.Rounds
import SsaCodegen.Proofs.Flow.Search
import SsaCodegen.Proofs.Flow.Storage
import SsaCodegen.Proofs.Flow.Words
import SsaCodegen.Proofs.Ir.Bare
import SsaCodegen.Proofs.Ir.Expand
import SsaCodegen.Proofs.Ir.Machine
import SsaCodegen.Proofs.Ir.Move
import SsaCodegen.Proofs.Ir.Narrow
import SsaCodegen.Proofs.Ir.Prune
import SsaCodegen.Proofs.Ir.Quiet
import SsaCodegen.Proofs.Ir.Reshape
import SsaCodegen.Proofs.Ir.Rewrite
import SsaCodegen.Proofs.Ir.Substitute
import SsaCodegen.Proofs.Ir.Types
import SsaCodegen.Proofs.Ir.Version
import SsaCodegen.Proofs.Ir.WellFormed
import SsaCodegen.Proofs.LabelRanges.Joined
import SsaCodegen.Proofs.LabelRanges.Live
import SsaCodegen.Proofs.LabelRanges.Ordered
import SsaCodegen.Proofs.LabelRanges.Spans
import SsaCodegen.Proofs.Layout.Assignments
import SsaCodegen.Proofs.Layout.Branches
import SsaCodegen.Proofs.Layout.Callbacks
import SsaCodegen.Proofs.Layout.Emission
import SsaCodegen.Proofs.Layout.Forms
import SsaCodegen.Proofs.Layout.Frame
import SsaCodegen.Proofs.Layout.FrameLaid
import SsaCodegen.Proofs.Layout.Least
import SsaCodegen.Proofs.Layout.Placement
import SsaCodegen.Proofs.Layout.Relative
import SsaCodegen.Proofs.Layout.Reports
import SsaCodegen.Proofs.Layout.Shrinking
import SsaCodegen.Proofs.Layout.Sizes
import SsaCodegen.Proofs.Layout.Tables
import SsaCodegen.Proofs.Legalize.Edges
import SsaCodegen.Proofs.Legalize.Encodings
import SsaCodegen.Proofs.Legalize.Fitted
import SsaCodegen.Proofs.Legalize.FloatRuns
import SsaCodegen.Proofs.Legalize.Floats
import SsaCodegen.Proofs.Legalize.Growth
import SsaCodegen.Proofs.Legalize.Legalized
import SsaCodegen.Proofs.Legalize.LegalizedRuns
import SsaCodegen.Proofs.Legalize.SelectedRuns
import SsaCodegen.Proofs.Legalize.Selects
import SsaCodegen.Proofs.Lowering.AtOnce
import SsaCodegen.Proofs.Lowering.Calculations
import SsaCodegen.Proofs.Lowering.Checked
import SsaCodegen.Proofs.Lowering.Choices
import SsaCodegen.Proofs.Lowering.Confined
import SsaCodegen.Proofs.Lowering.FoldedCompares
import SsaCodegen.Proofs.Lowering.Frames
import SsaCodegen.Proofs.Lowering.Instructions
import SsaCodegen.Proofs.Lowering.Integers
import SsaCodegen.Proofs.Lowering.Moving
import SsaCodegen.Proofs.Lowering.Operands
import SsaCodegen.Proofs.Lowering.Operations
import SsaCodegen.Proofs.Lowering.Reads
import SsaCodegen.Proofs.Lowering.Slots
import SsaCodegen.Proofs.Lowering.Stack
import SsaCodegen.Proofs.Lowering.Transfers
import SsaCodegen.Proofs.Moves.Cycles
import SsaCodegen.Proofs.Moves.Drain
import SsaCodegen.Proofs.Moves.ParallelCopy
import SsaCodegen.Proofs.Moves.Pending
import SsaCodegen.Proofs.Moves.Rotate
import SsaCodegen.Proofs.Moves.Serving
import SsaCodegen.Proofs.Opt.CompareBranch
import SsaCodegen.Proofs.Opt.ConstantFold
import SsaCodegen.Proofs.Opt.DeadCode
import SsaCodegen.Proofs.Opt.DeadCodeRuns
import SsaCodegen.Proofs.Opt.FoldedRuns
import SsaCodegen.Proofs.Opt.FoldedSteps
import SsaCodegen.Proofs.Opt.FusedRuns
import SsaCodegen.Proofs.Opt.GuardedRuns
import SsaCodegen.Proofs.Opt.HoistedRuns
import SsaCodegen.Proofs.Opt.LoopInvariant
import SsaCodegen.Proofs.Opt.NanGuard
import SsaCodegen.Proofs.Opt.NumberedLabels
import SsaCodegen.Proofs.Opt.NumberedRuns
import SsaCodegen.Proofs.Opt.Preheader
import SsaCodegen.Proofs.Opt.Preheaders
import SsaCodegen.Proofs.Opt.PrunedRuns
import SsaCodegen.Proofs.Opt.Settled
import SsaCodegen.Proofs.Opt.TrimmedRuns
import SsaCodegen.Proofs.Opt.Unreachable
import SsaCodegen.Proofs.Opt.ValueKey
import SsaCodegen.Proofs.Opt.ValueNumbering
import SsaCodegen.Proofs.Pipeline.Buffer
import SsaCodegen.Proofs.Pipeline.Compile
import SsaCodegen.Proofs.Pipeline.Current
import SsaCodegen.Proofs.Pipeline.Emittable
import SsaCodegen.Proofs.Pipeline.HoistedOnce
import SsaCodegen.Proofs.Pipeline.Lasting
import SsaCodegen.Proofs.Pipeline.Operations
import SsaCodegen.Proofs.Pipeline.Prologues
import SsaCodegen.Proofs.Pipeline.Reached
import SsaCodegen.Proofs.Pipeline.Recipes
import SsaCodegen.Proofs.Pipeline.Reuse
import SsaCodegen.Proofs.Pipeline.Run
import SsaCodegen.Proofs.Pipeline.Unchecked
import SsaCodegen.Proofs.Pipeline.Unplaced
import SsaCodegen.Proofs.RegAlloc.Allocation
import SsaCodegen.Proofs.RegAlloc.Intervals
import SsaCodegen.Proofs.RegAlloc.Kept
import SsaCodegen.Proofs.RegAlloc.LinearScan
import SsaCodegen.Proofs.RegAlloc.LivePoints
import SsaCodegen.Proofs.RegAlloc.StackMaps
import SsaCodegen.Proofs.Verify.Locations
import SsaCodegen.Proofs.Verify.Paths
import SsaCodegen.Proofs.Verify.Soundness
import SsaCodegen.Proofs.Verify.Structure
import SsaCodegen.RegAlloc.Intervals
import SsaCodegen.RegAlloc.LinearScan
import SsaCodegen.Settings
import SsaCodegen.Target.RegisterFile
import SsaCodegen.Timings
import SsaCodegen.Verify.Locations
import SsaCodegen.Verify.Structure
import SsaCodegen.Verify.Violation
import SsaCodegen.X64.Assembly
import SsaCodegen.X64.Encoder
import SsaCodegen.X64.Frame
import SsaCodegen.X64.LabelRanges
import SsaCodegen.X64.Layout
import SsaCodegen.X64.Legalize
import SsaCodegen.X64.Lower
import SsaCodegen.X64.MachineInst
import SsaCodegen.X64.ParallelCopy
import SsaCodegen.X64.Recipe
import SsaCodegen.X64.Registers
import SsaCodegen.X64.Shrink
import SsaCodegen.X64.Target
