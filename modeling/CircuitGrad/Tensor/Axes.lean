import CircuitGrad.Tensor.Basic

/-! # Dimensions of tensors

    Adding, removing, splitting and contracting dimensions.  Positions are
    row-major throughout: entry `(o, k, i)` of a tensor whose middle
    dimension has size `n` and whose last dimensions have volume `inner`
    stands at `(o * n + k) * inner + i`.  The operations are given on exact
    sizes, which tensors in memory meet only as far as their products fit
    (`Tensor.Checked`).
-/

namespace CircuitGrad.Tensor

variable {α : Type} [Zero α]

/-- Tensors of one shape along a new leading dimension. -/
def stack (tensors : List (Tensor α)) : Except Error (Tensor α) := do
  match tensors with
  | [] => ShapeFault.emptyStack.error
  | first :: _ =>
    tensors.forM fun t => checkShape "stack" first.shape t.shape
    let items := tensors.toArray
    let inner := volume first.shape
    return ofFn (items.size :: first.shape) fun p =>
      (items.getD (p / inner) first).entry (p % inner)

/-- Tensors of one shape along a new trailing dimension. -/
def stackTrailing (tensors : List (Tensor α)) : Except Error (Tensor α) := do
  match tensors with
  | [] => ShapeFault.emptyStack.error
  | first :: _ =>
    tensors.forM fun t => checkShape "stack" first.shape t.shape
    let items := tensors.toArray
    return ofFn (first.shape ++ [items.size]) fun p =>
      (items.getD (p % items.size) first).entry (p / items.size)

/-- The data of tensors of any shape, one after the other. -/
def concat (tensors : List (Tensor α)) : Tensor α :=
  vector (tensors.foldl (fun acc t => acc ++ t.data) #[])

/-- The tensor at an index of the leading dimension. -/
def indexLeading (t : Tensor α) (i : Nat) : Except Error (Tensor α) :=
  match t.shape with
  | [] => ShapeFault.scalarIndexed.error
  | lead :: rest =>
    if i < lead then .ok (ofFn rest fun p => t.entry (i * volume rest + p))
    else (ShapeFault.indexOutOfRange i lead).error

/-- The tensors along the leading dimension. -/
def unstack (t : Tensor α) : Except Error (List (Tensor α)) :=
  match t.shape with
  | [] => ShapeFault.scalarUnstacked.error
  | lead :: _ => (List.range lead).mapM t.indexLeading

/-- Replace a dimension of size `n` by its product with an `n × columns`
    matrix.  Zero entries of the matrix contribute nothing, whatever they
    meet. -/
def contract [Add α] [Mul α] [BEq α] (t : Tensor α) (axis : Nat) (matrix : Array α)
    (columns : Nat) : Except Error (Tensor α) :=
  match t.shape[axis]? with
  | none => (ShapeFault.axisOutOfRange axis t.shape).error
  | some n =>
    if matrix.size ≠ n * columns then
      (ShapeFault.contraction n matrix.size columns).error
    else
      let inner := volume (t.shape.drop (axis + 1))
      .ok <| ofFn (t.shape.set axis columns) fun p =>
        let o := p / (columns * inner)
        let c := p / inner % columns
        let i := p % inner
        (List.range n).foldl (fun acc k =>
          let m := matrix.getD (k * columns + c) 0
          if m == 0 then acc else acc + m * t.entry ((o * n + k) * inner + i)) 0

/-- Split off every dimension after `lead`: the shape of those dimensions, and
    one tensor of shape `lead` for each of their indices in order. -/
def splitTrailing (t : Tensor α) (lead : List Nat) :
    Except Error (List Nat × List (Tensor α)) :=
  if lead.isPrefixOf t.shape then
    let trailing := t.shape.drop lead.length
    let count := volume trailing
    .ok (trailing, (List.range count).map fun j => ofFn lead fun g => t.entry (g * count + j))
  else (ShapeFault.leadMismatch t.shape lead).error

/-- Tensors of one shape as the slices of a tensor with trailing dimensions. -/
def joinTrailing (slices : List (Tensor α)) (trailing : List Nat) :
    Except Error (Tensor α) := do
  let stacked ← stackTrailing slices
  stacked.reshape (stacked.shape.dropLast ++ trailing)

end CircuitGrad.Tensor
