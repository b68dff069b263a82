import CircuitGrad.Count
import CircuitGrad.Tensor.Axes

/-! # Sizes of tensors in memory

    An operation on tensors computes sizes on its way: the number of entries
    of a shape is a product of words, from left to right, and a new array needs
    memory for its entries.  Where a product overflows or the memory cannot be
    addressed the operation stops, also if a dimension of size zero would have
    left the result without entries.  Everywhere else it is the operation on
    exact numbers.

    Memory is asked for where an array may be larger than what is stored
    already; operations entry by entry compute no size.
-/

namespace CircuitGrad.Tensor.Checked

variable {α : Type}

/-! ### Sizes -/

/-- Bytes of an entry. -/
def entryBytes : Nat := 8

/-- Bytes of a tensor in a list: where its shape and its data are, how long
    they are and how long they may grow. -/
def tensorBytes : Nat := 48

/-- Number of entries of a tensor of the given shape, as it is computed. -/
def numel (shape : List Nat) : Except Error Nat := Count.product shape

/-- Memory for the entries of a shape. -/
def roomFor (shape : List Nat) : Except Error Unit := do
  Count.room (← numel shape) entryBytes

/-- Memory for a sum of tensors, laid out in the shape of the first before any
    shapes are compared. -/
def roomToCombine (coefficients : Nat) (tensors : List (Tensor α)) : Except Error Unit :=
  match tensors with
  | [] => .ok ()
  | first :: _ => if coefficients = tensors.length then roomFor first.shape else .ok ()

/-- Memory for as many tensors as there are, all as large as the first. -/
def roomToStack (tensors : List (Tensor α)) : Except Error Unit :=
  match tensors with
  | [] => .ok ()
  | first :: _ => do Count.room (← Count.mul first.size tensors.length) entryBytes

/-- Memory for a list of all tensors of shape `lead`. -/
def roomToSplit (shape lead : List Nat) : Except Error Unit := do
  if lead.isPrefixOf shape then
    let count ← numel (shape.drop lead.length)
    let _ ← numel lead
    Count.room count tensorBytes

/-- Number of entries when a dimension is replaced by `columns`. -/
def resultSize (shape : List Nat) (axis columns : Nat) : Except Error Nat := do
  let outer ← numel (shape.take axis)
  let inner ← numel (shape.drop (axis + 1))
  Count.mul (← Count.mul outer columns) inner

/-- Memory for the result of a contraction by a matrix of so many entries, once
    the matrix is known to fit. -/
def roomToContract (shape : List Nat) (axis entries columns : Nat) : Except Error Unit :=
  match shape[axis]? with
  | none => .ok ()
  | some n => do
    if entries = (← Count.mul n columns) then
      Count.room (← resultSize shape axis columns) entryBytes

/-! ### Construction -/

def make (shape : List Nat) (data : Array α) : Except Error (Tensor α) := do
  let _ ← numel shape
  Tensor.make shape data

def reshape (t : Tensor α) (shape : List Nat) : Except Error (Tensor α) := make shape t.data

variable [Zero α]

def zeros (shape : List Nat) : Except Error (Tensor α) := do
  roomFor shape
  return Tensor.zeros shape

def linearCombination [Add α] [Mul α] (coefficients : List α) (tensors : List (Tensor α)) :
    Except Error (Tensor α) := do
  roomToCombine coefficients.length tensors
  Tensor.linearCombination coefficients tensors

/-! ### Dimensions -/

def stack (tensors : List (Tensor α)) : Except Error (Tensor α) := do
  roomToStack tensors
  Tensor.stack tensors

def stackTrailing (tensors : List (Tensor α)) : Except Error (Tensor α) := do
  let stacked ← Tensor.stackTrailing tensors
  roomToStack tensors
  return stacked

def indexLeading (t : Tensor α) (i : Nat) : Except Error (Tensor α) := do
  let item ← t.indexLeading i
  let _ ← numel item.shape
  return item

def unstack (t : Tensor α) : Except Error (List (Tensor α)) :=
  match t.shape with
  | [] => ShapeFault.scalarUnstacked.error
  | lead :: _ => do
    Count.room lead tensorBytes
    (List.range lead).mapM (indexLeading t)

def contract [Add α] [Mul α] [BEq α] (t : Tensor α) (axis : Nat) (matrix : Array α)
    (columns : Nat) : Except Error (Tensor α) := do
  roomToContract t.shape axis matrix.size columns
  t.contract axis matrix columns

def splitTrailing (t : Tensor α) (lead : List Nat) :
    Except Error (List Nat × List (Tensor α)) := do
  roomToSplit t.shape lead
  t.splitTrailing lead

def joinTrailing (slices : List (Tensor α)) (trailing : List Nat) : Except Error (Tensor α) := do
  let stacked ← stackTrailing slices
  reshape stacked (stacked.shape.dropLast ++ trailing)

end CircuitGrad.Tensor.Checked
