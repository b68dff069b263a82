/-! # Natural numbers

    Powers and sums of natural numbers are the core ones, whatever algebra
    is in scope beside them.
-/

namespace CircuitGrad

instance natPow : Pow Nat Nat := instPowNat

instance natZero : Zero Nat := Zero.ofOfNat0

end CircuitGrad
