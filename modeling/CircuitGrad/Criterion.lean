import CircuitGrad.Operation

/-! # Criteria

    Named conditions on operations.  They combine by negation, conjunction
    and disjunction, and decide where expansion stops.
-/

namespace CircuitGrad

/-- A named condition on operations. -/
structure Criterion (α : Type) where
  name  : String
  check : Operation α → Bool

namespace Criterion

variable {α : Type}

def always : Criterion α := ⟨"always", fun _ => true⟩

def never : Criterion α := ⟨"never", fun _ => false⟩

protected def not (c : Criterion α) : Criterion α := ⟨"!" ++ c.name, fun op => !c.check op⟩

protected def and (c d : Criterion α) : Criterion α :=
  ⟨s!"({c.name} & {d.name})", fun op => c.check op && d.check op⟩

protected def or (c d : Criterion α) : Criterion α :=
  ⟨s!"({c.name} | {d.name})", fun op => c.check op || d.check op⟩

def hasGenerator : Criterion α := ⟨"has_gen", (·.hasGenerator)⟩

def hasGradMethod : Criterion α := ⟨"has_grad_method", (·.hasGradMethod)⟩

/-- More than one parameter. -/
def hasManyParams : Criterion α := ⟨"has_multipar", fun op => op.params.length > 1⟩

def hasNoParams : Criterion α := ⟨"has_nopar", fun op => op.params.isEmpty⟩

/-- The generator is a multiple of a unitary. -/
def hasUnitaryGenerator : Criterion α :=
  ⟨"has_unitary_gen", fun op => op.spec.generator.any (·.unitary)⟩

def isTrainable : Criterion α := ⟨"is_trainable", (·.isTrainable)⟩

def hasOwnGradient [Scalar α] : Criterion α := ⟨"has_own_gradient", (·.hasOwnGradient)⟩

/-- The gate's name is one of the given. -/
def oneOf (names : List String) : Criterion α := ⟨"in_set", fun op => names.contains op.name⟩

/-- The criteria that have a name of one word. -/
def named [Scalar α] : List (Criterion α) :=
  [always, never, hasGenerator, hasGradMethod, hasManyParams, hasNoParams, hasUnitaryGenerator,
    isTrainable, hasOwnGradient]

def ofName? [Scalar α] (name : String) : Option (Criterion α) := named.find? (·.name == name)

def text (c : Criterion α) : String := s!"Criterion({c.name})"

end Criterion

end CircuitGrad
