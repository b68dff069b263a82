import CircuitGrad.Scalar
import CircuitGrad.Pauli.Word

/-! # Observables

    An observable is a Pauli word or a Hamiltonian, a real linear combination
    of Pauli words.
-/

namespace CircuitGrad

/-- A real linear combination of Pauli words. -/
structure Hamiltonian (α : Type) where
  terms : List (α × PauliWord)
deriving BEq

namespace Hamiltonian

variable {α : Type}

/-- Coefficients and words of equal, positive number. -/
def make (coefficients : List α) (words : List PauliWord) : Except Error (Hamiltonian α) :=
  if coefficients.length ≠ words.length then
    (ShapeFault.termCount coefficients.length words.length).error
  else if coefficients.isEmpty then ArgumentFault.emptyHamiltonian.error
  else .ok ⟨coefficients.zip words⟩

/-- Wires of all terms, in rising order. -/
def wires (h : Hamiltonian α) : List Nat :=
  (h.terms.flatMap fun (_, w) => w.wires).mergeSort.eraseReps

/-- Greedy partition of the terms into commuting groups. -/
def grouping (h : Hamiltonian α) : List (List Nat) :=
  PauliWord.groups (h.terms.map (·.2))

def text [Scalar α] (h : Hamiltonian α) : String :=
  " + ".intercalate (h.terms.map fun (c, w) => s!"{Scalar.text c}*({w.text})")

end Hamiltonian

/-- What an expectation value, a variance or a sample is taken of. -/
inductive Observable (α : Type) where
  | word (word : PauliWord)
  | hamiltonian (hamiltonian : Hamiltonian α)
deriving BEq

namespace Observable

variable {α : Type}

def wires : Observable α → List Nat
  | word w => w.wires
  | hamiltonian h => h.wires

def isHamiltonian : Observable α → Bool
  | word _ => false
  | hamiltonian _ => true

def asWord? : Observable α → Option PauliWord
  | word w => some w
  | hamiltonian _ => none

/-- Coefficients and words; a word is one term with coefficient one. -/
def terms [One α] : Observable α → List (α × PauliWord)
  | word w => [(1, w)]
  | hamiltonian h => h.terms

/-- The words of all terms. -/
def words : Observable α → List PauliWord
  | word w => [w]
  | hamiltonian h => h.terms.map (·.2)

/-- Every word of one commutes with every word of the other. -/
def commutes (a b : Observable α) : Bool :=
  a.words.all fun v => b.words.all fun w => v.commutes w

/-- Greedy partition of observables into commuting groups. -/
def groups (observables : List (Observable α)) : List (List Nat) :=
  Grouping.groups commutes observables

def text [Scalar α] : Observable α → String
  | word w => w.text
  | hamiltonian h => h.text

end Observable

end CircuitGrad
