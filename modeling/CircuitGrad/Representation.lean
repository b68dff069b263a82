import CircuitGrad.Natural

/-! # Representations

    How numbers are written into keys.  A key is a sequence of codes; a float
    contributes its eight bytes, and a carrier whose numbers are no byte
    sequences may contribute codes of its own.
-/

namespace CircuitGrad

/-- Codes for the numbers of a carrier, among them all bytes. -/
class Representation (α : Type) where
  Code : Type
  [codeEq : DecidableEq Code]
  byte : UInt8 → Code
  number : α → List Code

namespace Representation

instance (α : Type) [Representation α] : DecidableEq (Code α) := codeEq

/-- The eight bytes of a 64-bit word, the lowest first. -/
def wordBytes (n : Nat) : List UInt8 :=
  (List.range 8).map fun i => UInt8.ofNat (n / 256 ^ i)

instance : Representation Float where
  Code := UInt8
  byte b := b
  number x := wordBytes x.toBits.toNat

variable {α : Type} [Representation α]

/-- The codes of a size, an index or a choice, as a 64-bit word. -/
def word (n : Nat) : List (Code α) := (wordBytes n).map byte

/-- The codes of a text, closed by a byte that no text holds. -/
def label (text : String) : List (Code α) :=
  (text.toUTF8.toList.map byte) ++ [byte 255]

/-- Same representation: finer than `==` where one number has several. -/
def identical (x y : α) : Bool := number x == number y

end Representation

end CircuitGrad
