import CircuitGrad.Readout
import CircuitGrad.ArgumentKind

/-! # Errors

    Every way in which recording, transforming, executing or differentiating
    a circuit can fail, as a cause with its data.  The wording stands in the
    `message` functions of this module and nowhere else.
-/

namespace CircuitGrad

/-- A list of sizes or wires in brackets. -/
def listText (items : List Nat) : String :=
  "[" ++ ", ".intercalate (items.map toString) ++ "]"

/-- Sizes or shapes that do not fit together. -/
inductive ShapeFault where
  | entryCount (shape : List Nat) (needed actual : Nat)
  | unequal (context : String) (left right : List Nat)
  | coefficientCount (coefficients tensors : Nat)
  | emptyCombination
  | emptyStack
  | scalarIndexed
  | indexOutOfRange (index leading : Nat)
  | scalarUnstacked
  | axisOutOfRange (axis : Nat) (shape : List Nat)
  | contraction (dimension entries columns : Nat)
  | leadMismatch (shape lead : List Nat)
  | factorCount (factors : String) (count wires : Nat)
  | termCount (coefficients observables : Nat)
  | argumentValueCount (shape : List Nat) (needed actual : Nat)
  | replacementCount (entries values : Nat)
  | unevenShotBatches
  | shotBatchCount (expected actual : Nat)
  | resultCount (expected actual : Nat)
  | measurementShape (actual expected : List Nat)
  | packedShape (actual expected : List Nat)
  | foldArity (expected actual : Nat)
  | unequalTrailing (first other : List Nat)
  | executionCount (backend : String) (results traces : Nat)
  | executionShape (backend : String) (actual expected : List Nat)
  | shiftArity (expected actual : Nat)
  | differenceArity (expected actual : Nat)
  | batchSizes (first firstSize other otherSize : Nat)
  | bindingShape (binding : Nat) (shape : List Nat)
  | cotangentShape (actual expected : List Nat)
  | noResult
  | missingDerivatives
  | derivativeRank (order rank : Nat)

def ShapeFault.message : ShapeFault → String
  | entryCount shape needed actual =>
    s!"shape {listText shape} needs {needed} entries, got {actual}"
  | unequal context left right => s!"{context}: {listText left} vs {listText right}"
  | coefficientCount coefficients tensors => s!"{coefficients} coefficients for {tensors} tensors"
  | emptyCombination => "empty linear combination"
  | emptyStack => "cannot stack zero tensors"
  | scalarIndexed => "cannot index a scalar"
  | indexOutOfRange index leading =>
    s!"index {index} out of range for leading dimension {leading}"
  | scalarUnstacked => "cannot unstack a scalar"
  | axisOutOfRange axis shape => s!"axis {axis} out of range for {listText shape}"
  | contraction dimension entries columns =>
    s!"cannot contract dimension {dimension} with a {entries}-entry matrix of {columns} columns"
  | leadMismatch shape lead => s!"shape {listText shape} does not start with {listText lead}"
  | factorCount factors count wires =>
    s!"Pauli string '{factors}' has {count} factors for {wires} wires"
  | termCount coefficients observables =>
    s!"{coefficients} coefficients for {observables} observables"
  | argumentValueCount shape needed actual =>
    s!"argument of shape {listText shape} needs {needed} values, got {actual}"
  | replacementCount entries values => s!"argument has {entries} entries, {values} values given"
  | unevenShotBatches => "shot batches of different size give differently shaped samples"
  | shotBatchCount expected actual =>
    s!"expected results for {expected} shot batches, got {actual}"
  | resultCount expected actual => s!"expected {expected} measurement results, got {actual}"
  | measurementShape actual expected =>
    s!"measurement result has shape {listText actual}, expected {listText expected}"
  | packedShape actual expected =>
    s!"result has shape {listText actual}, trace produces {listText expected}"
  | foldArity expected actual => s!"combining function expects {expected} results, got {actual}"
  | unequalTrailing first other =>
    s!"group results carry trailing dimensions {listText first} and {listText other}"
  | executionCount backend results traces =>
    s!"backend '{backend}' returned {results} results for {traces} traces"
  | executionShape backend actual expected =>
    s!"backend '{backend}' returned shape {listText actual}, trace produces {listText expected}"
  | shiftArity expected actual => s!"parameter shift expects {expected} results, got {actual}"
  | differenceArity expected actual =>
    s!"finite differences expect {expected} results, got {actual}"
  | batchSizes first firstSize other otherSize =>
    s!"argument {first} has batch size {firstSize}, argument {other} has batch size {otherSize}"
  | bindingShape binding shape =>
    s!"binding {binding} has shape {listText shape}; expected one value per batch index"
  | cotangentShape actual expected =>
    s!"cotangent of shape {listText actual} for output of shape {listText expected}"
  | noResult => "no result for the call"
  | missingDerivatives => "missing derivative results"
  | derivativeRank order rank => s!"derivative of order {order} has only {rank} dimensions"

/-- Arguments of a call, a transform or a configuration that are refused. -/
inductive ArgumentFault where
  | zeroShots
  | emptyShotVector
  | shotBatch (shots repetitions : Nat)
  | notPauli (letter : Char)
  | emptyHamiltonian
  | parameterValues (parameters values : Nat)
  | parameterIndex (index : Nat)
  | parameterIndexOf (index parameters : Nat)
  | scalarBatch
  | notBatched
  | batchIndex (index size : Nat)
  | batchedSeed (argument : Nat)
  | unexpected (name : String)
  | kind (name : String) (expected actual : ArgumentKind)
  | missing (name : String)
  | noMainEntry (transform : String)
  | negativeDepth (depth : Int)
  | trainableIndex (index trainable : Nat)
  | step (shown : String)
  | argumentIndex (index arguments : Nat)
  | notDifferentiable (index : Nat)
  | noSecondDerivatives
  | spectrumArgument (index : Nat)
  | bindingCount (trainable bindings : Nat)
  | noBatch
  | registerSize (needed : Nat) (backend : String) (provided : Nat)
  | zeroOrder
  | batchedProduct
  /-- Refused by a function of the user, for a reason of its own. -/
  | refused (reason : String)

def ArgumentFault.message : ArgumentFault → String
  | zeroShots => "shot count must be positive"
  | emptyShotVector => "shot vector must not be empty"
  | shotBatch shots repetitions => s!"invalid shot batch ({shots}, {repetitions})"
  | notPauli letter => s!"'{letter}' is not a Pauli operator"
  | emptyHamiltonian => "Hamiltonian needs at least one term"
  | parameterValues parameters values =>
    s!"trace has {parameters} parameters, {values} values given"
  | parameterIndex index => s!"parameter index {index} out of range"
  | parameterIndexOf index parameters =>
    s!"parameter index {index} out of range for {parameters} parameters"
  | scalarBatch => "a batched argument needs a leading dimension"
  | notBatched => "argument is not batched"
  | batchIndex index size => s!"batch index {index} out of range for batch size {size}"
  | batchedSeed argument => s!"argument {argument} is batched; split the batch before tracing"
  | unexpected name => s!"unexpected argument '{name}'"
  | kind name expected actual =>
    s!"argument '{name}' must be {expected.name}, got {actual.name}"
  | missing name => s!"missing argument '{name}'"
  | noMainEntry transform => s!"transform '{transform}' has no main entry point"
  | negativeDepth depth => s!"negative expansion depth {depth}"
  | trainableIndex index trainable =>
    s!"trainable parameter {index} out of range for {trainable} trainable parameters"
  | step shown => s!"finite-difference step must be positive, got {shown}"
  | argumentIndex index arguments => s!"argument {index} out of range for {arguments} arguments"
  | notDifferentiable index => s!"argument {index} is not differentiable"
  | noSecondDerivatives => "trace was recorded without second derivatives of its preprocessing"
  | spectrumArgument index =>
    s!"argument {index} is not a differentiable argument of the trace"
  | bindingCount trainable bindings =>
    s!"trace has {trainable} trainable parameters, {bindings} bindings given"
  | noBatch => "no parameter binding carries a batch dimension"
  | registerSize needed backend provided =>
    s!"circuit needs {needed} wires, '{backend}' provides {provided}"
  | zeroOrder => "max_diff must be at least 1 when differentiation is enabled"
  | batchedProduct => "vector-Jacobian products take unbatched arguments"
  | refused reason => reason

/-- Traces that are malformed for what is asked of them. -/
inductive TraceFault where
  | emptyRegister
  | noMeasurements
  | lateOperation
  | sampleWithoutShots
  /-- Refused by a function of the user, for a reason of its own. -/
  | refused (reason : String)

def TraceFault.message : TraceFault → String
  | emptyRegister => "trace needs at least one wire"
  | noMeasurements => "trace has no measurements"
  | lateOperation => "operations must be applied before measurements"
  | sampleWithoutShots => "sample measurements need a finite shot count"
  | refused reason => reason

/-- Why an operation or a measurement cannot be executed or split. -/
inductive UnsupportedCause where
  | noNativeForm (backend : String) (depth : Nat)
  | notNative (backend : String)
  | readout (backend : String)
  | wordsOnly (backend : String)
  | nonCommuting (backend : String)
  | notLinear (kind : Readout)

def UnsupportedCause.message : UnsupportedCause → String
  | noNativeForm backend depth =>
    s!"not native to '{backend}' and no decomposition reaches the native set within depth {depth}"
  | notNative backend => s!"not native to '{backend}'"
  | readout backend => s!"return type not supported by '{backend}'"
  | wordsOnly backend => s!"'{backend}' measures Pauli words only"
  | nonCommuting backend => s!"'{backend}' cannot measure non-commuting observables in one trace"
  | notLinear kind => s!"{kind.name} of a Hamiltonian cannot be split into terms"

/-- Why a derivative does not exist or is not computed. -/
inductive GradientCause where
  | noDerivative
  | noRule
  | hamiltonianSquare
  | nonlinearReadout
  | depthReached
  | noDecomposition
  | disabled
  | curvedPreprocessing

def GradientCause.message : GradientCause → String
  | noDerivative => "measurement has no parameter derivative"
  | noRule => "no gradient recipe; expand the trace for differentiation first"
  | hamiltonianSquare => "the square of a Hamiltonian is not the identity"
  | nonlinearReadout => "derivatives above first order are only defined for linear measurements"
  | depthReached => "no gradient recipe within the expansion depth"
  | noDecomposition => "no gradient recipe and no decomposition"
  | disabled => "differentiation is disabled"
  | curvedPreprocessing =>
    "derivatives above second order need affine classical preprocessing"

/-- Why a frequency spectrum does not exist. -/
inductive SpectrumCause where
  | nonlinear (operation : String) (input : Nat)
  | noGenerator (operation : String)

def SpectrumCause.message : SpectrumCause → String
  | nonlinear operation input =>
    s!"parameter of '{operation}' depends non-linearly on input {input}"
  | noGenerator operation => s!"'{operation}' has no generator"

/-- Why a measurement cannot be evaluated on a state vector. -/
inductive MeasurementFault where
  | noObservable
  | sampleWithoutShots
  | sampledHamiltonian

def MeasurementFault.message : MeasurementFault → String
  | noObservable => "no observable"
  | sampleWithoutShots => "samples need a finite shot count"
  | sampledHamiltonian => "sampled Hamiltonian must be split into terms"

/-- Why no samples can be drawn from a list of weights. -/
inductive SamplingFault where
  | noWeights
  | invalidWeight
  | allWeightsZero

def SamplingFault.message : SamplingFault → String
  | noWeights => "No weights provided in distribution"
  | invalidWeight => "A weight is invalid in distribution"
  | allWeightsZero => "All weights are zero in distribution"

/-- What an execution can run out of. -/
inductive CapabilityFault where
  | wires (needed provided : Nat)
  | finiteShotsOnly (backend : String)

def CapabilityFault.message : CapabilityFault → String
  | wires needed provided =>
    s!"trace requires {needed} wires, backend supports max {provided}"
  | finiteShotsOnly backend => s!"'{backend}' only executes with finite shots"

/-- Failures inside a simulator. -/
inductive SimulatorError where
  | invalidWire (index wires : Nat)
  | invalidDimension (dimension : Nat)
  | dimensionMismatch (expected actual : Nat)
  | missingMatrix (operation : String)
  | unsupportedMeasurement (measurement : String) (fault : MeasurementFault)
  | sampling (fault : SamplingFault)
  | capabilityExceeded (fault : CapabilityFault)

def SimulatorError.message : SimulatorError → String
  | invalidWire index wires => s!"Invalid wire index {index} for {wires}-wire state"
  | invalidDimension dimension => s!"Invalid state dimension {dimension}"
  | dimensionMismatch expected actual =>
    s!"Dimension mismatch: expected {expected}, got {actual}"
  | missingMatrix operation => s!"Operation '{operation}' has no matrix representation"
  | unsupportedMeasurement measurement fault =>
    s!"Unsupported measurement: {measurement}: {fault.message}"
  | sampling fault => s!"Sampling failed: {fault.message}"
  | capabilityExceeded fault => s!"Backend capability exceeded: {fault.message}"

/-- Name of the kind of a failure, for programs to tell it by. -/
def SimulatorError.kind : SimulatorError → String
  | invalidWire .. => "InvalidWire"
  | invalidDimension .. => "InvalidDimension"
  | dimensionMismatch .. => "DimensionMismatch"
  | missingMatrix .. => "MissingMatrix"
  | unsupportedMeasurement .. => "UnsupportedMeasurement"
  | sampling .. => "Sampling"
  | capabilityExceeded .. => "CapabilityExceeded"

/-- Failures that a backend reports. -/
inductive BackendFault where
  | simulator (error : SimulatorError)
  | unanswered
  /-- Reported by a backend of the user, in its own words. -/
  | reported (text : String)

def BackendFault.message : BackendFault → String
  | simulator error => error.message
  | unanswered => "no result produced for a trace"
  | reported text => text

/-- Everything that can go wrong between recording a circuit and reading its
    derivatives. -/
inductive Error where
  | unsupported (name : String) (cause : UnsupportedCause)
  | signatureMismatch (transform expand main : String)
  | gradientUndefined (name : String) (cause : GradientCause)
  | shapeMismatch (fault : ShapeFault)
  | invalidWire (wire wires : Nat)
  | wireCount (name : String) (expected actual : Nat)
  | parameterCount (name : String) (expected actual : Nat)
  | duplicateWire (wire : Nat)
  | invalidArgument (fault : ArgumentFault)
  | invalidTrace (fault : TraceFault)
  | orderExceeded (requested max : Nat)
  | spectrumUndefined (cause : SpectrumCause)
  | backend (fault : BackendFault)
  /-- An index fell outside the list it addresses: the computation stops
      without an answer of its own. -/
  | aborted
  /-- A count outgrew its word, or a list the memory that can be addressed:
      the computation stops as well. -/
  | overflow

def Error.message : Error → String
  | unsupported name cause => s!"Unsupported operation '{name}': {cause.message}"
  | signatureMismatch transform expand main =>
    s!"Signature mismatch in transform '{transform}': expand entry point takes ({expand}), transform entry point takes ({main})"
  | gradientUndefined name cause => s!"Gradient undefined for '{name}': {cause.message}"
  | shapeMismatch fault => s!"Shape mismatch: {fault.message}"
  | invalidWire wire wires => s!"Invalid wire {wire}: trace has only {wires} wires"
  | wireCount name expected actual =>
    s!"Operation '{name}' acts on {expected} wires, but {actual} were provided"
  | parameterCount name expected actual =>
    s!"Operation '{name}' takes {expected} parameters, but {actual} were provided"
  | duplicateWire wire => s!"Duplicate wire {wire} in operation"
  | invalidArgument fault => s!"Invalid argument: {fault.message}"
  | invalidTrace fault => s!"Invalid trace: {fault.message}"
  | orderExceeded requested max =>
    s!"Derivative order {requested} exceeds the maximum order {max}"
  | spectrumUndefined cause => s!"Spectrum undefined: {cause.message}"
  | backend fault => s!"Backend error: {fault.message}"
  | aborted => "index out of range"
  | overflow => "count out of range"

/-- Name of the kind of an error, for programs to tell it by. -/
def Error.kind : Error → String
  | unsupported .. => "UnsupportedOperation"
  | signatureMismatch .. => "SignatureMismatch"
  | gradientUndefined .. => "GradientUndefined"
  | shapeMismatch .. => "ShapeMismatch"
  | invalidWire .. => "InvalidWire"
  | wireCount .. => "InvalidWireCount"
  | parameterCount .. => "InvalidParameterCount"
  | duplicateWire .. => "DuplicateWire"
  | invalidArgument .. => "InvalidArgument"
  | invalidTrace .. => "InvalidTrace"
  | orderExceeded .. => "DerivativeOrderExceeded"
  | spectrumUndefined .. => "SpectrumUndefined"
  | backend .. => "Backend"
  | aborted => "Aborted"
  | overflow => "Overflow"

/-- A failed shape check. -/
def ShapeFault.error {ε : Type} (fault : ShapeFault) : Except Error ε :=
  .error (.shapeMismatch fault)

/-- A refused argument. -/
def ArgumentFault.error {ε : Type} (fault : ArgumentFault) : Except Error ε :=
  .error (.invalidArgument fault)

/-- A failure of a simulator, as its callers see it. -/
def SimulatorError.toError (error : SimulatorError) : Error := .backend (.simulator error)

end CircuitGrad
