import CircuitGrad.Scalar
import CircuitGrad.Error

/-! # Dense tensors

    Every result, every combined result and every derivative is a row-major
    array with an explicit shape; a scalar has the empty shape.  That the
    data fills the shape is part of the type, so a tensor is determined by
    its shape and its entries.

    Sizes are exact numbers here.  What the operations compute of them in
    words, and where that stops them, is said in `Tensor.Checked`.
-/

namespace CircuitGrad

/-- A row-major array that fills its shape. -/
structure Tensor (α : Type) where
  shape   : List Nat
  data    : Array α
  size_eq : data.size = shape.foldr (· * ·) 1

namespace Tensor

/-! ### Volume of a shape -/

/-- Number of entries of a tensor of the given shape, however large; in a word
    it is `Checked.numel`. -/
def volume (shape : List Nat) : Nat := shape.foldr (· * ·) 1

@[simp] theorem volume_nil : volume [] = 1 := rfl

@[simp] theorem volume_cons (n : Nat) (shape : List Nat) :
    volume (n :: shape) = n * volume shape := rfl

theorem volume_append (a b : List Nat) : volume (a ++ b) = volume a * volume b := by
  induction a with
  | nil => simp
  | cons n a ih => simp [ih, Nat.mul_assoc]

variable {α : Type}

/-! ### Entries -/

/-- Number of entries. -/
def size (t : Tensor α) : Nat := t.data.size

theorem size_eq_volume (t : Tensor α) : t.size = volume t.shape := t.size_eq

/-- Number of dimensions. -/
def rank (t : Tensor α) : Nat := t.shape.length

def isEmpty (t : Tensor α) : Bool := t.data.isEmpty

/-- The entry at a row-major position; zero outside. -/
def entry [Zero α] (t : Tensor α) (i : Nat) : α := t.data.getD i 0

/-- The tensor with the given entries by row-major position. -/
def ofFn (shape : List Nat) (f : Nat → α) : Tensor α :=
  { shape, data := Array.ofFn (n := volume shape) fun i => f i, size_eq := Array.size_ofFn }

@[simp] theorem shape_ofFn (shape : List Nat) (f : Nat → α) : (ofFn shape f).shape = shape := rfl

@[simp] theorem size_ofFn (shape : List Nat) (f : Nat → α) :
    (ofFn shape f).size = volume shape := Array.size_ofFn

theorem entry_ofFn [Zero α] {shape : List Nat} {f : Nat → α} {i : Nat} (h : i < volume shape) :
    (ofFn shape f).entry i = f i := by
  simp [entry, ofFn, h]

/-- Tensors with equal shapes and equal entries are equal. -/
theorem ext_entry [Zero α] {a b : Tensor α} (hs : a.shape = b.shape)
    (he : ∀ i < volume a.shape, a.entry i = b.entry i) : a = b := by
  obtain ⟨sa, da, ha⟩ := a
  obtain ⟨sb, db, hb⟩ := b
  obtain rfl : sa = sb := hs
  have hsize : da.size = db.size := ha.trans hb.symm
  obtain rfl : da = db := by
    refine Array.ext hsize fun i h₁ h₂ => ?_
    have := he i (Nat.lt_of_lt_of_eq h₁ ha)
    simpa [entry, Array.getD, h₁, h₂] using this
  rfl

instance [BEq α] : BEq (Tensor α) := ⟨fun a b => a.shape == b.shape && a.data == b.data⟩

/-! ### Construction -/

/-- Data laid into a shape, which it must fill. -/
def make (shape : List Nat) (data : Array α) : Except Error (Tensor α) :=
  if h : data.size = volume shape then .ok ⟨shape, data, h⟩
  else (ShapeFault.entryCount shape (volume shape) data.size).error

def scalar (x : α) : Tensor α := ⟨[], #[x], rfl⟩

def vector (data : Array α) : Tensor α := ⟨[data.size], data, by simp⟩

def zeros [Zero α] (shape : List Nat) : Tensor α := ofFn shape fun _ => 0

/-- The value of a tensor with one entry. -/
def item? (t : Tensor α) : Option α := if t.data.size = 1 then t.data[0]? else none

/-- Same data, different shape. -/
def reshape (t : Tensor α) (shape : List Nat) : Except Error (Tensor α) := make shape t.data

/-- All data in one dimension. -/
def flatten (t : Tensor α) : Tensor α := vector t.data

/-! ### Entry by entry -/

def map (t : Tensor α) (f : α → α) : Tensor α :=
  ⟨t.shape, t.data.map f, by simpa using t.size_eq⟩

/-- Every entry times a constant. -/
def scale [Mul α] (t : Tensor α) (x : α) : Tensor α := t.map (· * x)

/-- Fails unless two shapes agree. -/
def checkShape (context : String) (expected actual : List Nat) : Except Error Unit :=
  if expected = actual then .ok () else (ShapeFault.unequal context expected actual).error

/-- Entry-wise sum. -/
def add [Zero α] [Add α] (a b : Tensor α) : Except Error (Tensor α) := do
  checkShape "add" a.shape b.shape
  return ofFn a.shape fun i => a.entry i + b.entry i

/-- Entry-wise product. -/
def mul [Zero α] [Mul α] (a b : Tensor α) : Except Error (Tensor α) := do
  checkShape "mul" a.shape b.shape
  return ofFn a.shape fun i => a.entry i * b.entry i

/-- Sum of tensors of one shape, each times its coefficient, from left to
    right. -/
def linearCombination [Zero α] [Add α] [Mul α] (coefficients : List α)
    (tensors : List (Tensor α)) : Except Error (Tensor α) := do
  if coefficients.length ≠ tensors.length then
    (ShapeFault.coefficientCount coefficients.length tensors.length).error
  else match tensors with
    | [] => ShapeFault.emptyCombination.error
    | first :: _ =>
      tensors.forM fun t => checkShape "linear combination" first.shape t.shape
      let terms := coefficients.zip tensors
      return ofFn first.shape fun i => terms.foldl (fun acc (c, t) => acc + c * t.entry i) 0

/-- The shapes agree, and so do the entries up to an absolute tolerance and
    one relative to the second tensor. -/
def allClose [Scalar α] (a b : Tensor α) (relative absolute : α) : Bool :=
  a.shape == b.shape && (List.range a.size).all fun i =>
    Scalar.le (Scalar.abs (a.entry i - b.entry i))
      (absolute + relative * Scalar.abs (b.entry i))

/-- A scalar as its number, anything else as its shape and its entries. -/
def text (t : Tensor Float) : String :=
  match t.shape, t.item? with
  | [], some x => Decimal.Style.plain.text x
  | _, _ =>
    let entries := t.data.toList.map Decimal.Style.detailed.text
    "Tensor" ++ listText t.shape ++ "[" ++ ", ".intercalate entries ++ "]"

end Tensor

end CircuitGrad
