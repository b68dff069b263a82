import CircuitGrad.Trace.Packing
import CircuitGrad.Trace.Fingerprint
import CircuitGrad.Recording
import CircuitGrad.Expansion
import CircuitGrad.Plan.Transform
import CircuitGrad.Simulation
import CircuitGrad.Backend.Simulator
import CircuitGrad.Binding.Basic
import CircuitGrad.Expression
import CircuitGrad.Tensor.Checked
import CircuitGrad.Proofs.Decoding
import CircuitGrad.Proofs.Fingerprint
import CircuitGrad.Proofs.Curvature
import CircuitGrad.Proofs.JetCalculus
import CircuitGrad.Proofs.ExpressionSemantics
import CircuitGrad.Proofs.ForwardMode
import CircuitGrad.Proofs.BasisIndex
import CircuitGrad.Proofs.BlockWalk
import CircuitGrad.Proofs.Wave
import CircuitGrad.Proofs.MatrixProduct
import CircuitGrad.Proofs.GateAction
import CircuitGrad.Proofs.GateBlock
import CircuitGrad.Proofs.StandardAction
import CircuitGrad.Proofs.Decomposition
import CircuitGrad.Proofs.Outcome
import CircuitGrad.Proofs.Replacement
import CircuitGrad.Proofs.Isometry
import CircuitGrad.Proofs.ShiftExactness
import CircuitGrad.Proofs.TurningGates
import CircuitGrad.Proofs.Assignment
import CircuitGrad.Proofs.Packed
import CircuitGrad.Proofs.ExactTrace
import CircuitGrad.Proofs.ParameterDerivative
import CircuitGrad.Proofs.ShiftPlan
import CircuitGrad.Proofs.ShiftDerivative
import CircuitGrad.Proofs.PlanAlgebra
import CircuitGrad.Proofs.PlanContract
import CircuitGrad.Proofs.ResultCache
import CircuitGrad.Proofs.RecentUse
import CircuitGrad.Proofs.ExecutionLog
import CircuitGrad.Proofs.Dispatch
import CircuitGrad.Proofs.Shares
import CircuitGrad.Proofs.ShareResults
import CircuitGrad.Proofs.SplitExactness
import CircuitGrad.Proofs.DecomposedState
import CircuitGrad.Proofs.Contraction
import CircuitGrad.Proofs.ArgumentDerivative
import CircuitGrad.Proofs.ShotBatches
import CircuitGrad.Proofs.Counts
import CircuitGrad.Proofs.ShotVectors
import CircuitGrad.Proofs.Unpacking
import CircuitGrad.Proofs.TrailingDimensions
import CircuitGrad.Proofs.FirstOrderShape
import CircuitGrad.Proofs.DerivativeShape
import CircuitGrad.Proofs.IteratedDifference
import CircuitGrad.Proofs.MovedJets
import CircuitGrad.Proofs.Rebinding
import CircuitGrad.Proofs.SmoothOutput
import CircuitGrad.Proofs.DisplacedTrace
import CircuitGrad.Proofs.PreparedTrace
import CircuitGrad.Proofs.SplitLinearity
import CircuitGrad.Proofs.PipelineDerivative
import CircuitGrad.Proofs.ArgumentSensitivity
import CircuitGrad.Proofs.ExactKeys
import CircuitGrad.Proofs.OversizedRegister
import CircuitGrad.Proofs.BatchedRequest
import CircuitGrad.Proofs.ExactExecution
import CircuitGrad.Proofs.StrategyAgreement
import CircuitGrad.Proofs.SplitValidity
import CircuitGrad.Proofs.GivenAnswers
import CircuitGrad.Proofs.MissingBatches
import CircuitGrad.Proofs.DecompositionTree
import CircuitGrad.Proofs.DifferentiableTrace
import CircuitGrad.Proofs.FollowedExpansion
import CircuitGrad.Proofs.SpectrumStability
import CircuitGrad.Proofs.ReturnedResults
import CircuitGrad.Proofs.Eigenbasis
import CircuitGrad.Proofs.WordOperations
import CircuitGrad.Proofs.LawfulResults
import CircuitGrad.Proofs.NativeForm
import CircuitGrad.Proofs.WellFormedTrace
import CircuitGrad.Proofs.FittingState
import CircuitGrad.Proofs.ReachableTrace
import CircuitGrad.Proofs.RequestSteps
import CircuitGrad.Proofs.DeterministicBackend
import CircuitGrad.Proofs.BatchSlices
import CircuitGrad.Proofs.ArgumentSlots
import CircuitGrad.Proofs.PlanResults
import CircuitGrad.Proofs.PipelineShape
import CircuitGrad.Proofs.Cotangent
import CircuitGrad.Proofs.ResultPlaces
import CircuitGrad.Proofs.ShiftedResults
import CircuitGrad.Proofs.RisingLists
import CircuitGrad.Proofs.WordFactors
import CircuitGrad.Proofs.GreedyGroups
import CircuitGrad.Proofs.SplitRefusals
import CircuitGrad.Proofs.SpectrumSums
import CircuitGrad.Proofs.EmptySelection
import CircuitGrad.Proofs.BatchBinding
import CircuitGrad.Proofs.EmptyBatch
import CircuitGrad.Proofs.DifferenceSteps
import CircuitGrad.Proofs.FoldCalls
import CircuitGrad.Proofs.ExactRules
import CircuitGrad.Proofs.FlatParameters
import CircuitGrad.Proofs.RecordedCalls
import CircuitGrad.Proofs.SampledResults
import CircuitGrad.Proofs.RowMajor
import CircuitGrad.Proofs.AxisContraction
import CircuitGrad.Proofs.SlicesAndStacks
import CircuitGrad.Proofs.SeededArguments
import CircuitGrad.Proofs.StoredCurvature
