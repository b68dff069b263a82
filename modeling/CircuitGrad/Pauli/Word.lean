import CircuitGrad.Error
import CircuitGrad.Grouping

/-! # Pauli words

    Tensor products of Pauli operators on named wires.  A word lists its
    factors by rising wire and stores no identity, so two words are the same
    operator exactly when they are equal, and the empty word is the identity.
-/

namespace CircuitGrad

/-- A Pauli operator on one wire. -/
inductive Pauli where
  | I
  | X
  | Y
  | Z
deriving DecidableEq, Repr

namespace Pauli

def letter : Pauli → Char
  | I => 'I'
  | X => 'X'
  | Y => 'Y'
  | Z => 'Z'

/-- Read a letter of either case. -/
def ofLetter (c : Char) : Except Error Pauli :=
  match c.toUpper with
  | 'I' => .ok I
  | 'X' => .ok X
  | 'Y' => .ok Y
  | 'Z' => .ok Z
  | other => (ArgumentFault.notPauli other).error

def text (p : Pauli) : String := p.letter.toString

/-- Position in the order `I`, `X`, `Y`, `Z`. -/
def index : Pauli → Nat
  | I => 0
  | X => 1
  | Y => 2
  | Z => 3

/-- Diagonal in the computational basis. -/
def isDiagonal : Pauli → Bool
  | I | Z => true
  | _ => false

end Pauli

/-- A factor of a word: a wire and the operator on it. -/
abbrev PauliFactor := Nat × Pauli

/-- Set the operator on one wire of a list of factors by rising wire. -/
def placeFactor (f : PauliFactor) : List PauliFactor → List PauliFactor
  | [] => [f]
  | g :: rest =>
    if f.1 < g.1 then f :: g :: rest
    else if f.1 = g.1 then f :: rest
    else g :: placeFactor f rest

theorem mem_placeFactor {f g : PauliFactor} {fs : List PauliFactor}
    (h : g ∈ placeFactor f fs) : g = f ∨ g ∈ fs := by
  fun_induction placeFactor f fs <;> simp_all <;> grind

theorem placeFactor_sorted {f : PauliFactor} {fs : List PauliFactor}
    (h : fs.Pairwise (·.1 < ·.1)) : (placeFactor f fs).Pairwise (·.1 < ·.1) := by
  fun_induction placeFactor f fs with
  | case1 => simp
  | case2 g rest hlt =>
    refine List.pairwise_cons.2 ⟨fun x hx => ?_, h⟩
    rcases List.mem_cons.1 hx with rfl | hx
    · exact hlt
    · exact Nat.lt_trans hlt ((List.pairwise_cons.1 h).1 x hx)
  | case3 g rest hlt heq =>
    rw [List.pairwise_cons] at h ⊢
    exact ⟨fun x hx => heq ▸ h.1 x hx, h.2⟩
  | case4 g rest hlt hne ih =>
    rw [List.pairwise_cons] at h ⊢
    refine ⟨fun x hx => ?_, ih h.2⟩
    rcases mem_placeFactor hx with rfl | hx
    · omega
    · exact h.1 x hx

/-- A tensor product of Pauli operators on distinct wires. -/
structure PauliWord where
  /-- The factors other than the identity, by rising wire. -/
  factors : List PauliFactor
  sorted  : factors.Pairwise (·.1 < ·.1)
  proper  : ∀ f ∈ factors, f.2 ≠ .I

namespace PauliWord

instance : DecidableEq PauliWord := fun a b =>
  decidable_of_iff (a.factors = b.factors) <| by
    constructor
    · intro h
      cases a
      cases b
      cases h
      rfl
    · exact fun h => h ▸ rfl

/-- The identity. -/
def identity : PauliWord := ⟨[], List.Pairwise.nil, by simp⟩

/-- The word with its operator on one wire replaced; an identity leaves the
    word as it is. -/
def set (word : PauliWord) (f : PauliFactor) : PauliWord :=
  if h : f.2 = .I then word
  else
    { factors := placeFactor f word.factors
      sorted := placeFactor_sorted word.sorted
      proper := fun g hg => (mem_placeFactor hg).elim (fun e => e ▸ h) (word.proper g) }

/-- One operator on one wire. -/
def single (wire : Nat) (p : Pauli) : PauliWord := identity.set (wire, p)

/-- The first wire of a list that stands in it before. -/
def repeatedWire? (seen : List Nat) : List Nat → Option Nat
  | [] => none
  | w :: rest => if seen.contains w then some w else repeatedWire? (w :: seen) rest

/-- The word with the given factors, on wires that must differ. -/
def ofFactors (factors : List PauliFactor) : Except Error PauliWord :=
  match repeatedWire? [] (factors.map (·.1)) with
  | some w => .error (.duplicateWire w)
  | none => .ok (factors.foldl set identity)

/-- The word with the given letters on the given wires. -/
def parse (letters : String) (wires : List Nat) : Except Error PauliWord := do
  if letters.length ≠ wires.length then
    (ShapeFault.factorCount letters letters.length wires.length).error
  else
    let paulis ← letters.toList.mapM Pauli.ofLetter
    ofFactors (wires.zip paulis)

/-- The operator on a wire. -/
def get (word : PauliWord) (wire : Nat) : Pauli := (word.factors.lookup wire).getD .I

/-- Wires with an operator other than the identity. -/
def wires (word : PauliWord) : List Nat := word.factors.map (·.1)

/-- Product of two words on disjoint wires. -/
def tensor (a b : PauliWord) : Except Error PauliWord :=
  match b.wires.find? fun w => a.wires.contains w with
  | some w => .error (.duplicateWire w)
  | none => .ok (b.factors.foldl set a)

def isIdentity (word : PauliWord) : Bool := word.factors.isEmpty

/-- Every factor is diagonal. -/
def isDiagonal (word : PauliWord) : Bool := word.factors.all fun f => f.2.isDiagonal

/-- On every wire that both words act on, they act by the same operator. -/
def commutes (a b : PauliWord) : Bool :=
  a.factors.all fun (w, p) => (b.factors.lookup w).all (· == p)

/-- Greedy partition of words into commuting groups. -/
def groups (words : List PauliWord) : List (List Nat) := Grouping.groups commutes words

def text (word : PauliWord) : String :=
  if word.isIdentity then "I"
  else " ".intercalate (word.factors.map fun (w, p) => s!"{p.text}{w}")

end PauliWord

end CircuitGrad
