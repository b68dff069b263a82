import CircuitGrad.Error
import CircuitGrad.Natural

/-! # Counts

    Counts and sizes are 64-bit words, and they do not wrap: where a sum or a
    product outgrows its word, or a list the memory that can be addressed,
    the computation stops.
-/

namespace CircuitGrad.Count

/-- A number that fits a word. -/
def word (n : Nat) : Except Error Nat :=
  if n < 2 ^ (64 : Nat) then .ok n else .error .overflow

def add (a b : Nat) : Except Error Nat := word (a + b)

def mul (a b : Nat) : Except Error Nat := word (a * b)

/-- Sum over the items of a list, one after the other. -/
def sum {β : Type} (measure : β → Except Error Nat) (items : List β) : Except Error Nat :=
  items.foldlM (fun acc x => do add acc (← measure x)) 0

/-- Product of the numbers of a list, from left to right: a zero does not
    undo an overflow before it. -/
def product (counts : List Nat) : Except Error Nat := counts.foldlM mul 1

/-- Memory for a list of `count` items of so many bytes each. -/
def room (count bytes : Nat) : Except Error Unit :=
  if count * bytes < 2 ^ (63 : Nat) then .ok () else .error .overflow

end CircuitGrad.Count
