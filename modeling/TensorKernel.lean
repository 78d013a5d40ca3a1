import TensorKernel.Compile
import TensorKernel.Eval.Evaluator
import TensorKernel.Graph.Text
import TensorKernel.Proofs.Agreement
import TensorKernel.Proofs.BlankWrites
import TensorKernel.Proofs.Broadcast
import TensorKernel.Proofs.CacheTransparency
import TensorKernel.Proofs.ClosedBodies
import TensorKernel.Proofs.Eval.Faults
import TensorKernel.Proofs.Graph.Acyclic
import TensorKernel.Proofs.Graph.Records
import TensorKernel.Proofs.Compile
import TensorKernel.Proofs.Inlining
import TensorKernel.Proofs.Source.Functions
import TensorKernel.Proofs.WellTyped
import TensorKernel.Surface.Kernels
import TensorKernel.Proofs.Buffer.Cells
import TensorKernel.Proofs.ComputedSize
import TensorKernel.Proofs.Eval.Demand
import TensorKernel.Proofs.Execution.Reduction
import TensorKernel.Proofs.Lower.Demand
import TensorKernel.Proofs.Reductions
import TensorKernel.Proofs.Slices
import TensorKernel.Proofs.Termination
import TensorKernel.Proofs.TypeSoundness
import TensorKernel.Proofs.AffineMaps
import TensorKernel.Proofs.ConstantRanges
import TensorKernel.Proofs.OpenRanges
import TensorKernel.Proofs.Powers
import TensorKernel.Proofs.Shapes
import TensorKernel.Proofs.Pointwise
import TensorKernel.Proofs.Folds
import TensorKernel.Proofs.Quotients
import TensorKernel.Proofs.SharedDimensions
import TensorKernel.Proofs.Shadowing
import TensorKernel.Proofs.Print.Sessions
import TensorKernel.Proofs.ParameterNames
import TensorKernel.Proofs.Hygiene
import TensorKernel.Proofs.Arguments
import TensorKernel.Proofs.AppendOnly
import TensorKernel.Proofs.Reading
import TensorKernel.Proofs.Memoization
import TensorKernel.Proofs.RowMajor
