import ReversibleLogic.Symbol
import ReversibleLogic.Sorted
import ReversibleLogic.Expression.Basic
import ReversibleLogic.Expression.Order
import ReversibleLogic.Expression.Eval
import ReversibleLogic.Program
import ReversibleLogic.Qubit
import ReversibleLogic.Gate
import ReversibleLogic.Circuit.Error
import ReversibleLogic.Circuit.Basic
import ReversibleLogic.Circuit.Append
import ReversibleLogic.Circuit.Uncompute
import ReversibleLogic.Circuit.Cancel
import ReversibleLogic.Circuit.Simulate
import ReversibleLogic.Compile.Error
import ReversibleLogic.Compile.Options
import ReversibleLogic.Compile.Memo
import ReversibleLogic.Compile.Lowering
import ReversibleLogic.Compile.Assignments
import ReversibleLogic.Compile.Schedule
import ReversibleLogic.Compile.InPlace
import ReversibleLogic.Section.Basic
import ReversibleLogic.Section.Decompile
import ReversibleLogic.Simplify
import ReversibleLogic.Optimize
import ReversibleLogic.Pass
import ReversibleLogic.Proofs.Action
import ReversibleLogic.Proofs.Rewind
import ReversibleLogic.Proofs.Circuit.Operations
import ReversibleLogic.Proofs.Circuit.Pool
import ReversibleLogic.Proofs.Cancel
import ReversibleLogic.Proofs.Simplify
import ReversibleLogic.Proofs.Simplify.Sound
import ReversibleLogic.Proofs.Lowering.Invariant
import ReversibleLogic.Proofs.Lowering.Growth
import ReversibleLogic.Proofs.Lowering.Emit
import ReversibleLogic.Proofs.Lowering.Specification
import ReversibleLogic.Proofs.Lowering.Expressions
import ReversibleLogic.Proofs.Lowering.Root
import ReversibleLogic.Proofs.Lowering.Effect
import ReversibleLogic.Proofs.Lowering.Residue
import ReversibleLogic.Proofs.Lowering.Calls
import ReversibleLogic.Proofs.Compile.Reclaim
import ReversibleLogic.Proofs.Compile.Step
import ReversibleLogic.Proofs.Compile.Boundary
import ReversibleLogic.Proofs.Compile.Correct
import ReversibleLogic.Proofs.Compile.Calls
import ReversibleLogic.Proofs.Compile.InPlace
import ReversibleLogic.Proofs.Compile.Schedule
import ReversibleLogic.Proofs.Compile.Simultaneous
import ReversibleLogic.Proofs.Compile.Scratch
import ReversibleLogic.Proofs.Compile.Cycles
import ReversibleLogic.Proofs.Section.Run
import ReversibleLogic.Proofs.Section.Decompile
import ReversibleLogic.Proofs.Section.Faithful
import ReversibleLogic.Proofs.Optimize.Equivalence
import ReversibleLogic.Proofs.Optimize.Compare
import ReversibleLogic.Proofs.Optimize.Preserve
import ReversibleLogic.Proofs.Optimize.Total
import ReversibleLogic.Proofs.Pass.Verification
import ReversibleLogic.Proofs.Pass.Pipeline
import ReversibleLogic.Proofs.Pass.Exhaustive
import ReversibleLogic.Proofs.Circuit.Invariant
import ReversibleLogic.Proofs.Circuit.Restore
import ReversibleLogic.Proofs.Circuit.Reverse
import ReversibleLogic.Proofs.Circuit.Compose
import ReversibleLogic.Proofs.Circuit.Validation
import ReversibleLogic.Proofs.Optimize.Size
import ReversibleLogic.Proofs.Optimize.Frame
import ReversibleLogic.Proofs.Pass.Levels
import ReversibleLogic.Proofs.Lowering.Acceptance
import ReversibleLogic.Proofs.Compile.Success
import ReversibleLogic.Proofs.Compile.Names
import ReversibleLogic.Proofs.Simplify.NormalForm
import ReversibleLogic.Proofs.Simplify.Affine
import ReversibleLogic.Proofs.Cancel.Confluence
import ReversibleLogic.Proofs.Section.Tiling
import ReversibleLogic.Proofs.Section.Limit
import ReversibleLogic.Proofs.Simplify.Regroup
import ReversibleLogic.Proofs.Simplify.Shape
